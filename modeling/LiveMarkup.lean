import LiveMarkup.Css.Selector.Parse
import LiveMarkup.Css.Selector
import LiveMarkup.Css.Lexer
import LiveMarkup.Decimal.Shortest
import LiveMarkup.Text.Blank
import LiveMarkup.Dom.Walk
import LiveMarkup.Dom.Import
import LiveMarkup.Html.Builder
import LiveMarkup.Html.Serialize
import LiveMarkup.Html.Outline
import LiveMarkup.Preview.StyleText
import LiveMarkup.Css.Selector.Select
import LiveMarkup.Css.Split
import LiveMarkup.Css.RuleIndex
import LiveMarkup.Media.Parse
import LiveMarkup.Css.Applies
import LiveMarkup.Json.Parse
import LiveMarkup.Json.Print
import LiveMarkup.Json.Fields
import LiveMarkup.Media.Settings
import LiveMarkup.Identity.Canonical
import LiveMarkup.Source.Position
import LiveMarkup.Source.Shortcode
import LiveMarkup.Source.Edit
import LiveMarkup.Editor.Compilation
import LiveMarkup.Wire.Channel
import LiveMarkup.Script.Load
import LiveMarkup.Warnings
import LiveMarkup.Preview.Setup
import LiveMarkup.Editor.Setup
import LiveMarkup.Editor.Replica
import LiveMarkup.Editor.Expansion
import LiveMarkup.Editor.Bridge
import LiveMarkup.Session
import LiveMarkup.Main
import LiveMarkup.Proofs.Html.Forest
import LiveMarkup.Proofs.Dom.Core
import LiveMarkup.Proofs.Html.Arena
import LiveMarkup.Proofs.Html.Lexing.References
import LiveMarkup.Proofs.Html.Lexing.Run
import LiveMarkup.Proofs.Html.Lexing.Layout
import LiveMarkup.Proofs.Html.Lexing.Shift
import LiveMarkup.Proofs.Html.Lexing.Text
import LiveMarkup.Proofs.Html.Views
import LiveMarkup.Proofs.Identity.Named
import LiveMarkup.Proofs.Html.Naming
import LiveMarkup.Proofs.Html.Nesting
import LiveMarkup.Proofs.Html.Descent
import LiveMarkup.Proofs.Source.Region
import LiveMarkup.Proofs.Html.Likeness
import LiveMarkup.Proofs.Identity.Kept
import LiveMarkup.Proofs.Html.Lexing.Tag
import LiveMarkup.Proofs.Source.Cut
import LiveMarkup.Proofs.Source.TextEdit
import LiveMarkup.Proofs.Html.Lexing.Valid
import LiveMarkup.Proofs.Html.Lexing.Mode
import LiveMarkup.Proofs.Html.Origin
import LiveMarkup.Proofs.Source.AttributeEdit
import LiveMarkup.Proofs.Identity.Annotated
import LiveMarkup.Proofs.Html.Lexing.Markup
import LiveMarkup.Proofs.Html.Listing
import LiveMarkup.Proofs.Html.Rebuild
import LiveMarkup.Proofs.Html.RoundTrip
import LiveMarkup.Proofs.Source.Placement
import LiveMarkup.Proofs.Html.Grown
import LiveMarkup.Proofs.Html.Restored
import LiveMarkup.Proofs.Identity.FixedPoint
import LiveMarkup.Proofs.Html.Ancestry
import LiveMarkup.Proofs.Html.WellNested
import LiveMarkup.Proofs.Html.ListItems
import LiveMarkup.Proofs.Editor.Handshake
import LiveMarkup.Proofs.Editor.Renderings
import LiveMarkup.Proofs.Editor.Desk
import LiveMarkup.Proofs.Editor.Selection
import LiveMarkup.Proofs.Editor.Marks
import LiveMarkup.Proofs.Editor.Backstage
import LiveMarkup.Proofs.Editor.Script
import LiveMarkup.Proofs.Editor.Compiling
import LiveMarkup.Proofs.Preview.Shown
import LiveMarkup.Proofs.Session.Agreement
import LiveMarkup.Proofs.Json.ReadBack
import LiveMarkup.Proofs.Wire.Delivery
import LiveMarkup.Proofs.Dom.Links
import LiveMarkup.Proofs.Dom.Operations
import LiveMarkup.Proofs.Dom.Additions
import LiveMarkup.Proofs.Dom.Walks
import LiveMarkup.Proofs.Dom.Circles
import LiveMarkup.Proofs.Dom.Copies
import LiveMarkup.Proofs.Text.Chars
import LiveMarkup.Proofs.Css.Blocks
import LiveMarkup.Proofs.Css.Preludes
import LiveMarkup.Proofs.Css.Structure
import LiveMarkup.Proofs.Css.Chains
import LiveMarkup.Proofs.Css.Plain
import LiveMarkup.Proofs.Css.Lexing
import LiveMarkup.Proofs.Css.Reading
import LiveMarkup.Proofs.Css.Splitting
import LiveMarkup.Proofs.Css.Rereading
import LiveMarkup.Proofs.Css.Agreement
import LiveMarkup.Proofs.Dom.Pictures
import LiveMarkup.Proofs.Dom.Growth
import LiveMarkup.Proofs.Preview.Painting
import LiveMarkup.Proofs.Preview.History
import LiveMarkup.Proofs.Html.Lexing.Ending
import LiveMarkup.Proofs.Preview.Hovering
import LiveMarkup.Proofs.Preview.Outlines
import LiveMarkup.Proofs.Preview.Injection
import LiveMarkup.Proofs.Html.Lexing.Pieces
import LiveMarkup.Proofs.Source.Tokens
import LiveMarkup.Proofs.Html.Limit
import LiveMarkup.Proofs.Html.Depth
import LiveMarkup.Proofs.Source.Coordinates
import LiveMarkup.Proofs.Css.Entries
import LiveMarkup.Proofs.Identity.Ordered
import LiveMarkup.Proofs.Html.Lexing.Marks
import LiveMarkup.Proofs.Source.ClosingTags
import LiveMarkup.Proofs.Css.Positions
import LiveMarkup.Proofs.Css.Pieces
import LiveMarkup.Proofs.Css.Grammar
import LiveMarkup.Proofs.Css.Trimming
import LiveMarkup.Proofs.Css.Degrading
import LiveMarkup.Proofs.Css.Words
import LiveMarkup.Proofs.Media.Ranges
import LiveMarkup.Proofs.Preview.Topmost
import LiveMarkup.Proofs.Source.Scanning
import LiveMarkup.Proofs.Html.Behind
import LiveMarkup.Proofs.Preview.Stylesheet
import LiveMarkup.Proofs.Html.Planted
import LiveMarkup.Proofs.Dom.Splicing
import LiveMarkup.Proofs.Html.Written
import LiveMarkup.Proofs.Editor.Expanding
import LiveMarkup.Proofs.Editor.Asking
import LiveMarkup.Proofs.Dom.Preorder
import LiveMarkup.Proofs.Css.Attributes
import LiveMarkup.Proofs.Html.Lexing.Numbers
import LiveMarkup.Proofs.Script.Loading
