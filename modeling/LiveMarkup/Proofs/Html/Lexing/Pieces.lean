/-
Texts that are put together.

A text whose last character is the `>` of a tag, a comment or a declaration can be followed by any other:
if markup is read there, the rest is read as it would be read on its own, further back in the text
(`tokenize_append`). All that the machine still holds at such a place is the name of the last start tag,
for which it does not ask in markup. The data of a comment, however the comment came about, can be
written between `<!--` and `-->` and is read back as it is (`tokenize_comment`).
-/
import LiveMarkup.Proofs.Html.Lexing.Ending
import LiveMarkup.Proofs.Html.Lexing.Markup
import LiveMarkup.Proofs.Html.Lexing.Mode
import LiveMarkup.Proofs.Html.Lexing.Shift
import LiveMarkup.Proofs.Html.Lexing.Valid

set_option autoImplicit false

namespace LiveMarkup.Html

open Text

namespace Lexer

/-- In text, the end of the text is all that is left to report there. -/
theorem tokens_at_end {l : Lexer} {content : Content} (hrest : l.rest = []) (hstate : l.state = .text content) :
    l.tokens = [.endOfFile l.offset] := by
  obtain ⟨rest, offset, last, state⟩ := l
  subst hrest hstate
  exact tokens_of_none rfl

/-- **Where markup is read, a text is read as if it stood alone.** -/
theorem tokens_markup (text : List Char) (offset : Nat) (last : Option String) :
    tokens ⟨text, offset, last, .text .markup⟩ = (start text).tokens.map (.shift offset) := by
  have hlast : (⟨text, offset, last, .text .markup⟩ : Lexer) = ((start text).shift offset).relast last := by
    simp only [relast, shift, start, State.shift, Nat.zero_add]
  have hmarkup : InMarkup ((start text).shift offset).state := ⟨rfl, rfl⟩
  rw [hlast, tokens_relast hmarkup, tokens_shift]

end Lexer

/-! ## A text after a tag -/

/-- The machine consumes the last character of a text, a `>`, on its way from `k` to `l`, and reads markup
behind it. So it does when a tag, a comment or a declaration ends there. -/
structure Closed (text : String) (k l : Lexer) : Prop where
  reached : ∃ n, (Lexer.start text.toList).after n = some k
  mark : k.rest = ['>']
  next : k.step.next = some l
  consumed : l.rest = []
  state : l.state = .text .markup

section Closed

variable {a : String} {k l : Lexer}

theorem offset_of_closed (h : Closed a k l) : l.offset = a.utf8ByteSize := by
  obtain ⟨n, hafter⟩ := h.reached
  obtain ⟨eaten, hwhole, hoffset⟩ := (Lexer.moves_after hafter).trans (Lexer.moves_step h.next)
  rw [h.consumed, List.append_nil] at hwhole
  rw [utf8ByteSize_eq, hoffset, ← hwhole]
  exact Nat.zero_add _

/-- **What is read up to a closed tag does not depend on the text after it.** -/
theorem reads_of_closed (h : Closed a k l) :
    ∃ ts, ∀ more, Lexer.Reads (.start (a.toList ++ more)) ts ⟨more, a.utf8ByteSize, l.lastStart, .text .markup⟩ := by
  obtain ⟨n, hafter⟩ := h.reached
  obtain ⟨before, hreads⟩ := Lexer.reads_of_after hafter
  obtain ⟨eaten, hwhole, -⟩ := Lexer.moves_after hafter
  rw [h.mark] at hwhole
  -- a mark lies ahead of every step up to the last one, so none of them looks at the text behind it
  have hall : Lexer.Marked (Lexer.start a.toList).rest := ⟨eaten, '>', hwhole, .inr rfl⟩
  have hlast : Lexer.Marked k.rest := ⟨[], '>', h.mark, .inr rfl⟩
  refine ⟨before ++ k.step.tokens, fun more => ?_⟩
  have hstep := Lexer.step_extend more hlast
  have hnext : (k.extend more).step.next = some (l.extend more) := by
    rw [hstep]
    exact congrArg (Option.map (Lexer.extend more)) h.next
  have hend : l.extend more = ⟨more, a.utf8ByteSize, l.lastStart, .text .markup⟩ := by
    rw [Lexer.extend, h.consumed, List.nil_append, h.state, offset_of_closed h]
  rw [← hend]
  exact (hreads.extend more hall hlast.ne_nil).trans (.one hnext (by rw [hstep]; rfl))

/-- **A text after a closed tag is read on its own.** The tokens of the two texts put together are those of
the first, without its end, and those of the second, moved by the length of the first. -/
theorem tokenize_append (h : Closed a k l) (b : String) :
    ∃ ts, tokenize a = ts ++ [.endOfFile a.utf8ByteSize] ∧
      tokenize (a ++ b) = ts ++ (tokenize b).map (.shift a.utf8ByteSize) := by
  obtain ⟨ts, hreads⟩ := reads_of_closed h
  refine ⟨ts, ?_, ?_⟩
  · have halone := hreads []
    rw [List.append_nil] at halone
    rw [tokenize_eq, Lexer.tokens_of_reads halone, Lexer.tokens_at_end rfl rfl]
  · rw [tokenize_eq, String.toList_append, Lexer.tokens_of_reads (hreads b.toList), Lexer.tokens_markup,
      ← tokenize_eq]

/-- The text of a `title` is not read as markup, but what follows its end tag is. -/
theorem tokenize_append_title :
    Closed "<title>é</title>" ⟨['>'], 16, some "title", .rawEndTagName .escapable 9 "title"⟩
        ⟨[], 17, some "title", .text .markup⟩ ∧
      ∃ ts, tokenize "<title>é</title>" = ts ++ [.endOfFile "<title>é</title>".utf8ByteSize] ∧
        tokenize ("<title>é</title>" ++ "</title>") =
          ts ++ (tokenize "</title>").map (.shift "<title>é</title>".utf8ByteSize) := by
  have hclosed : Closed "<title>é</title>" ⟨['>'], 16, some "title", .rawEndTagName .escapable 9 "title"⟩
      ⟨[], 17, some "title", .text .markup⟩ := ⟨⟨17, by cbv⟩, rfl, by cbv, rfl, rfl⟩
  exact ⟨hclosed, tokenize_append hclosed "</title>"⟩

end Closed

/-! ## A comment alone -/

/-- **Every comment can be written again.** -/
theorem tokenize_comment {text data : String} {span : Span} (h : .comment data span ∈ tokenize text) :
    tokenize ("<!--" ++ data ++ "-->") =
      [.comment data ⟨0, ("<!--" ++ data ++ "-->").utf8ByteSize⟩,
        .endOfFile ("<!--" ++ data ++ "-->").utf8ByteSize] := by
  have hdata : CommentText data.toList := valid_tokenize h
  have hreads := @Lexer.reads_comment none data hdata [] 0
  rw [List.append_nil] at hreads
  rw [tokenize_eq, Lexer.start, Lexer.tokens_of_reads hreads, Lexer.tokens_at_end rfl rfl, utf8ByteSize_eq, Nat.zero_add]
  rfl

/-- A comment that begins with a question mark and is cut off by the end of the text. -/
theorem tokenize_comment_cut :
    .comment "?a--!" ⟨0, 6⟩ ∈ tokenize "<?a--!" ∧
      tokenize ("<!--" ++ "?a--!" ++ "-->") =
        [.comment "?a--!" ⟨0, ("<!--" ++ "?a--!" ++ "-->").utf8ByteSize⟩,
          .endOfFile ("<!--" ++ "?a--!" ++ "-->").utf8ByteSize] := by
  have hmem : .comment "?a--!" ⟨0, 6⟩ ∈ tokenize "<?a--!" := by
    have htokens : tokenize "<?a--!" = [.comment "?a--!" ⟨0, 6⟩, .endOfFile 6] := by cbv
    rw [htokens]
    exact List.mem_cons_self
  exact ⟨hmem, tokenize_comment hmem⟩

end LiveMarkup.Html
