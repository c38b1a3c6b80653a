/-
A style sheet in its element.

A backslash behind the angle bracket of every end tag that a style sheet writes is all that is added to it
(`guards_escape`), and no end tag is left (`clear_escape`). So the lexer reads the style sheet as text up to the end tag
that follows it, and the markup behind that as by itself. Main result: `escapeStyleText_contained`.
-/
import LiveMarkup.Preview.StyleText
import LiveMarkup.Proofs.Html.Behind
import LiveMarkup.Proofs.Html.Grown
import LiveMarkup.Proofs.Html.Lexing.Pieces

set_option autoImplicit false

namespace LiveMarkup.Preview

open Html Text

variable {cs ds name after : List Char}

/-! ## End tags in a style sheet -/

/-- A text begins with what begins the end tag of a `style` element, in any case. -/
def Closes (cs : List Char) : Prop := startsWithIgnoreCase cs "</style" = true

/-- The end tag of a `style` element stands nowhere in a text. -/
def Clear (cs : List Char) : Prop := ∀ tail, tail <:+ cs → ¬ Closes tail

/-- The second text is the first with a backslash in some of the end tags of `style` elements, and nothing else. -/
inductive Guards : List Char → List Char → Prop
  | nil : Guards [] []
  | keep {c : Char} {cs ds : List Char} : Guards cs ds → Guards (c :: cs) (c :: ds)
  | guard {name cs ds : List Char} : name.map Char.toLower = "style".toList → Guards cs ds →
      Guards ('<' :: '/' :: (name ++ cs)) ('<' :: '\\' :: '/' :: (name ++ ds))

theorem closes_iff : Closes cs ↔ ∃ name after, cs = '<' :: '/' :: (name ++ after) ∧ name.map Char.toLower = "style".toList := by
  have hword : "</style".toList.map Char.toLower = '<' :: '/' :: "style".toList := by decide
  unfold Closes startsWithIgnoreCase
  rw [beq_iff_eq, hword]
  constructor
  · intro h
    obtain ⟨c, d, name, htake, hc, hd, hname⟩ : ∃ c d name, cs.take 7 = c :: d :: name ∧ c.toLower = '<' ∧
        d.toLower = '/' ∧ name.map Char.toLower = "style".toList := by
      obtain ⟨c, rest, hcs, hc, hrest⟩ := List.map_eq_cons_iff.1 h
      obtain ⟨d, name, rfl, hd, hname⟩ := List.map_eq_cons_iff.1 hrest
      exact ⟨c, d, name, hcs, hc, hd, hname⟩
    obtain rfl := eq_of_toLower hc (.inl (by decide))
    obtain rfl := eq_of_toLower hd (.inl (by decide))
    refine ⟨name, cs.drop 7, ?_, hname⟩
    rw [← List.cons_append, ← List.cons_append, ← htake, List.take_append_drop]
  · rintro ⟨name, after, rfl, hname⟩
    have hlength : ('<' :: '/' :: name).length = 7 := by
      have := congrArg List.length hname
      rw [List.length_map] at this
      rw [List.length_cons, List.length_cons, this]
      rfl
    change ((('<' :: '/' :: name) ++ after).take 7).map Char.toLower = _
    rw [← hlength, List.take_left, List.map_cons, List.map_cons, hname]
    rfl

theorem escape_of_closes (h : Closes ('<' :: cs)) :
    escapeStyleChars ('<' :: cs) = '<' :: '\\' :: escapeStyleChars cs := if_pos h

theorem escape_of_not_closes {c : Char} (h : ¬ Closes (c :: cs)) :
    escapeStyleChars (c :: cs) = c :: escapeStyleChars cs := if_neg h

/-- Only an angle bracket begins an end tag. -/
theorem not_closes_of_ne {c : Char} (h : c ≠ '<') : ¬ Closes (c :: cs) := by
  rw [closes_iff]
  rintro ⟨name, after, heq, -⟩
  exact h (List.cons.inj heq).1

/-- Text without angle brackets is kept. -/
theorem escape_append (h : '<' ∉ name) (cs : List Char) : escapeStyleChars (name ++ cs) = name ++ escapeStyleChars cs := by
  induction name with
  | nil => rfl
  | cons c name ih =>
    rw [List.mem_cons, not_or] at h
    rw [List.cons_append, escape_of_not_closes (not_closes_of_ne (Ne.symm h.1)), ih h.2, List.cons_append]

/-- No letter is an angle bracket. -/
theorem unmarked_of_style (h : name.map Char.toLower = "style".toList) : '<' ∉ name := by
  intro hmem
  have hlower := List.mem_map_of_mem (f := Char.toLower) hmem
  rw [h] at hlower
  exact absurd hlower (by decide)

/-- **Only the backslash is added**, in end tags of `style` elements only. -/
theorem guards_escape (cs : List Char) : Guards cs (escapeStyleChars cs) := by
  induction hn : cs.length using Nat.strongRecOn generalizing cs with
  | ind n ih =>
    cases cs with
    | nil => exact .nil
    | cons c cs =>
      by_cases hcloses : Closes (c :: cs)
      · obtain ⟨name, after, heq, hname⟩ := closes_iff.1 hcloses
        obtain ⟨rfl, rfl⟩ := List.cons.inj heq
        have hslash : '<' ∉ '/' :: name := by
          rw [List.mem_cons, not_or]
          exact ⟨by decide, unmarked_of_style hname⟩
        rw [escape_of_closes hcloses, ← List.cons_append, escape_append hslash]
        refine .guard hname (ih after.length ?_ after rfl)
        rw [← hn, List.length_cons, List.length_cons, List.length_append]
        omega
      · rw [escape_of_not_closes hcloses]
        exact .keep (ih cs.length (by rw [← hn]; exact Nat.lt_succ_self _) cs rfl)

/-- What the text becomes begins with some letters only if the text does. -/
theorem exists_of_escape (h : escapeStyleChars cs = name ++ ds) (hname : '<' ∉ name) :
    ∃ after, cs = name ++ after ∧ escapeStyleChars after = ds := by
  induction name generalizing cs with
  | nil => exact ⟨cs, rfl, h⟩
  | cons c name ih =>
    rw [List.mem_cons, not_or] at hname
    cases cs with
    | nil => cases h
    | cons d cs =>
      have hd : d = c := by
        rw [escapeStyleChars] at h
        split at h <;> exact (List.cons.inj h).1
      subst hd
      rw [escape_of_not_closes (not_closes_of_ne (Ne.symm hname.1))] at h
      obtain ⟨after, rfl, hafter⟩ := ih (List.cons.inj h).2 hname.2
      exact ⟨after, rfl, hafter⟩

theorem not_closes_escape (cs : List Char) : ¬ Closes (escapeStyleChars cs) := by
  intro hescaped
  obtain ⟨name, after, heq, hname⟩ := closes_iff.1 hescaped
  cases cs with
  | nil => cases heq
  | cons c cs =>
    by_cases hcloses : Closes (c :: cs)
    · obtain ⟨_, _, hmark, -⟩ := closes_iff.1 hcloses
      obtain ⟨rfl, -⟩ := List.cons.inj hmark
      rw [escape_of_closes hcloses] at heq
      exact absurd (List.cons.inj (List.cons.inj heq).2).1 (by decide)
    · -- the text would have had an end tag there already
      rw [escape_of_not_closes hcloses] at heq
      obtain ⟨rfl, hrest⟩ := List.cons.inj heq
      have hslash : '<' ∉ '/' :: name := by
        rw [List.mem_cons, not_or]
        exact ⟨by decide, unmarked_of_style hname⟩
      obtain ⟨before, rfl, -⟩ := exists_of_escape hrest hslash
      exact hcloses (closes_iff.2 ⟨name, before, rfl, hname⟩)

/-- **No end tag is left.** -/
theorem clear_escape (cs : List Char) : Clear (escapeStyleChars cs) := by
  induction cs with
  | nil =>
    intro tail htail
    rw [List.suffix_nil.1 htail]
    exact not_closes_escape []
  | cons c cs ih =>
    intro tail htail
    by_cases hcloses : Closes (c :: cs)
    · obtain ⟨_, _, hmark, -⟩ := closes_iff.1 hcloses
      obtain ⟨rfl, -⟩ := List.cons.inj hmark
      have hwhole := not_closes_escape ('<' :: cs)
      rw [escape_of_closes hcloses] at htail hwhole
      rcases List.suffix_cons_iff.1 htail with rfl | htail
      · exact hwhole
      · rcases List.suffix_cons_iff.1 htail with rfl | htail
        · exact not_closes_of_ne (by decide)
        · exact ih tail htail
    · have hwhole := not_closes_escape (c :: cs)
      rw [escape_of_not_closes hcloses] at htail hwhole
      rcases List.suffix_cons_iff.1 htail with rfl | htail
      · exact hwhole
      · exact ih tail htail

/-- A text without end tags is kept as it is. -/
theorem escape_of_clear (h : Clear cs) : escapeStyleChars cs = cs := by
  induction cs with
  | nil => rfl
  | cons c cs ih =>
    rw [escape_of_not_closes (h _ (List.suffix_refl _)), ih fun tail htail => h tail (htail.trans (List.suffix_cons c cs))]

/-- The lexer finds no end tag either. -/
theorem rawText_of_clear (h : Clear cs) : RawText "style" cs := by
  induction hn : cs.length using Nat.strongRecOn generalizing cs with
  | ind n ih =>
    have hafter : ∀ piece after, cs = piece ++ after → 0 < piece.length → RawText "style" after := by
      rintro piece after rfl hpiece
      refine ih after.length ?_ (fun tail htail => h tail (htail.trans (List.suffix_append _ _))) rfl
      rw [← hn, List.length_append]
      omega
    cases cs with
    | nil => exact .nil
    | cons c cs =>
      by_cases hc : c = '<'
      · subst hc
        rcases markPiece_or_closes "style" cs with ⟨piece, after, hcut, hpiece⟩ | ⟨w, c, after, rfl, -, -, hname, -⟩
        · rw [hcut]
          exact .piece hpiece (hafter piece after hcut (Lexer.length_of_markPiece hpiece))
        · exact absurd (closes_iff.2 ⟨w, c :: after, rfl, hname⟩) (h _ (List.suffix_refl _))
      · exact .char hc (hafter [c] cs rfl Nat.one_pos)

/-! ## The element of a style sheet -/

/-- A style sheet in its element. -/
def styled (css : String) : String := "<style>" ++ css ++ "</style>"

/-- The element that a style sheet stands in at the start of a text. -/
def styleElement (css : String) : Element :=
  { Element.ofName "style" with
    location := some
      { startTag := ⟨0, 7⟩
        endTag := some ⟨7 + css.utf8ByteSize, 15 + css.utf8ByteSize⟩
        span := ⟨0, 15 + css.utf8ByteSize⟩
        selfClosing := false } }

/-- What a style sheet in its element is read as. -/
def styleTokens (css : String) : List Token :=
  .startTag "style" false [] ⟨0, 7⟩ :: (css.toList.map .character ++
    [.endTag "style" ⟨7 + css.utf8ByteSize, 15 + css.utf8ByteSize⟩])

theorem utf8ByteSize_styled (css : String) : (styled css).utf8ByteSize = 15 + css.utf8ByteSize := by
  rw [styled, String.utf8ByteSize_append, String.utf8ByteSize_append]
  have hopen : "<style>".utf8ByteSize = 7 := by decide
  have hclose : "</style>".utf8ByteSize = 8 := by decide
  omega

theorem lowerTag_style : LowerTag "style" := lowerTag_of_letters (by decide) (List.all_iff_forall_prop.1 rfl)

theorem legible_style : Lexer.Legible (.ofName "style") where
  name := lowerTag_style.chars
  attributes _ h := absurd h List.not_mem_nil
  distinct := List.nodup_nil

/-- **The style sheet is text up to the end tag that follows it.** -/
theorem tokenize_styled {css : String} (h : Clear css.toList) (rest : String) :
    tokenize (styled css ++ rest) = styleTokens css ++ (tokenize rest).map (.shift (styled css).utf8ByteSize) := by
  have hlower : "style".toLower = "style" := toLower_of_lower lowerTag_style.lower
  have hopen : Lexer.Reads (.start ("<style>".toList ++ (css.toList ++ '<' :: ("/style>".toList ++ rest.toList))))
      [.startTag "style" false [] ⟨0, 7⟩]
      ⟨css.toList ++ '<' :: ("/style>".toList ++ rest.toList), 7, some "style", .text .raw⟩ := by
    have hreads := @Lexer.reads_writeStartTag none (.ofName "style") legible_style
      (css.toList ++ '<' :: ("/style>".toList ++ rest.toList)) 0
    rw [Element.ofName, hlower] at hreads
    exact hreads
  have htext := Lexer.reads_rawText (Content.noConfusion : Content.raw ≠ .markup) nofun nofun (rawText_of_clear h)
    ("/style>".toList ++ rest.toList) 7
  have hclose : Lexer.Reads ⟨'<' :: ("/style>".toList ++ rest.toList), 7 + byteLength css.toList, some "style", .text .raw⟩
      [.endTag "style" ⟨7 + byteLength css.toList, 7 + byteLength css.toList + 8⟩]
      ⟨rest.toList, 7 + byteLength css.toList + 8, some "style", .text .markup⟩ := by
    have hcontent : Content.ofElement "style".toLower = .raw := by rw [hlower]; rfl
    have hreads := Lexer.reads_rawEndTag lowerTag_style.chars hcontent nofun nofun rest.toList (7 + byteLength css.toList)
    rw [hlower] at hreads
    exact hreads
  have hwhole : (styled css ++ rest).toList = "<style>".toList ++ (css.toList ++ '<' :: ("/style>".toList ++ rest.toList)) := by
    simp [styled]
  have hbytes : 7 + byteLength css.toList + 8 = 15 + css.utf8ByteSize := by
    rw [utf8ByteSize_eq]
    omega
  rw [tokenize_eq, hwhole, Lexer.tokens_of_reads (hopen.trans (htext.trans hclose)), Lexer.tokens_markup, hbytes,
    ← tokenize_eq, utf8ByteSize_styled, styleTokens, utf8ByteSize_eq css]
  simp only [List.cons_append, List.nil_append, List.append_assoc]

/-- What is read outside of every element is the element with the style sheet. -/
theorem readAll_styleTokens (css : String) :
    Draft.start.readAll maxOpenElements 0 (styleTokens css) =
      .ok ⟨.element (styleElement css) (textForest css.toList) .nil, []⟩ := by
  have hvoid : isVoidName "style" = false := by cbv
  have hplan : ((Plan.start []).startTag ⟨"style", false, [], ⟨0, 7⟩⟩).actions =
      [.insert (Plan.htmlElement ⟨"style", false, [], ⟨0, 7⟩⟩) true] := by
    change [Action.insert _ (!isVoidName "style")] = _
    rw [hvoid]
    rfl
  have hopen : Draft.start.read maxOpenElements 0 (.startTag "style" false [] ⟨0, 7⟩) =
      .ok ⟨.nil, [⟨Plan.htmlElement ⟨"style", false, [], ⟨0, 7⟩⟩, .nil⟩]⟩ := by
    change ((Plan.start []).startTag ⟨"style", false, [], ⟨0, 7⟩⟩).actions.foldlM _ _ = _
    rw [hplan]
    rfl
  have hzero : offsetAt 0 (.startTag "style" false [] ⟨0, 7⟩) = 0 := rfl
  rw [styleTokens, Draft.readAll, hzero, hopen]
  change (⟨.nil, [⟨Plan.htmlElement ⟨"style", false, [], ⟨0, 7⟩⟩, .nil⟩]⟩ : Draft).readAll _ _ _ = _
  rw [Draft.readAll_append, readAll_textForest rfl]
  rfl

/-- The element of a style sheet at the start of a text, with the style sheet as its only text. -/
def styleView (css : String) : View :=
  .node 1 (.element (styleElement css)) [] (if css = "" then [] else [.node 2 (.text css) [] []])

/-- How many nodes the element of a style sheet takes. -/
def styleNodes (css : String) : Nat := if css = "" then 1 else 2

theorem views_styled {t : Tree} {parent : Nat} {f : Forest} (hf : Shows t parent 1 f) (css : String) (k : Nat) :
    (Forest.element (styleElement css) (textForest css.toList) (f.shift k)).views 1 =
      styleView css :: allLater (styleNodes css) k (f.views 1) := by
  have hbox : boxOf 1 (styleElement css) = 1 := rfl
  rw [← views_shift hf, Forest.views, hbox]
  unfold styleView styleNodes textForest
  by_cases hcss : css = ""
  · subst hcss
    rfl
  · have hlist : css.toList ≠ [] := fun h => hcss (String.toList_eq_nil_iff.1 h)
    rw [if_neg hlist, if_neg hcss, if_neg hcss, String.ofList_toList]
    rfl

theorem forestOf_styled {css : String} (h : Clear css.toList) (rest : String) :
    forestOf (styled css ++ rest) = match forestOf rest with
      | .ok f => .ok (.element (styleElement css) (textForest css.toList) (f.shift (styled css).utf8ByteSize))
      | .error (.tooDeep limit offset) => .error (.tooDeep limit (offset + (styled css).utf8ByteSize)) :=
  forestOf_behind (tokenize_styled h rest) (readAll_styleTokens css)

/-- What stands behind the element of a style sheet is parsed as by itself. -/
theorem parse_styled {css rest : String} {r : Tree} (h : Clear css.toList) (hr : parse rest = .ok r) :
    ∃ t nodes, r.view? Tree.root = some (.node Tree.root .document [] nodes) ∧ parse (styled css ++ rest) = .ok t ∧
      t.view? Tree.root = some (.node Tree.root .document []
        (styleView css :: allLater (styleNodes css) (styled css).utf8ByteSize nodes)) := by
  obtain ⟨f, hf, hdepicts⟩ := forest_of_parse hr
  have hwhole := forestOf_styled h rest
  rw [hf] at hwhole
  obtain ⟨t, ht, hshows⟩ := parse_of_forest hwhole
  refine ⟨t, f.views 1, view?_of_depicts hdepicts, ht, ?_⟩
  rw [view?_of_depicts hshows, views_styled hdepicts.shows]

theorem parse_styled_error {css rest : String} {limit offset : Nat} (h : Clear css.toList)
    (hr : parse rest = .error (.tooDeep limit offset)) :
    parse (styled css ++ rest) = .error (.tooDeep limit (offset + (styled css).utf8ByteSize)) := by
  have hwhole := forestOf_styled h rest
  rcases parse_cases rest with ⟨e, hparse, hforest⟩ | ⟨t, f, hparse, -, -⟩
  · rw [hr] at hparse
    cases hparse
    rw [hforest] at hwhole
    rcases parse_cases (styled css ++ rest) with ⟨e, hparse, hforest⟩ | ⟨t, f, -, hforest, -⟩
    · rw [hwhole] at hforest
      rw [hparse, Except.error.inj hforest]
    · rw [hwhole] at hforest
      cases hforest
  · rw [hr] at hparse
    cases hparse

/-- **A style sheet cannot leave its element.** Markup behind the element of an escaped style sheet is parsed as by
itself, only later by as many nodes and bytes as the element takes. The element has the escaped style sheet as its only
text, and its end tag is the one that was written behind that. To escape adds a backslash in each end tag of a `style`
element and nothing else, so that none is left and to escape again changes nothing. -/
theorem escapeStyleText_contained (css rest : String) :
    let text := escapeStyleText css
    let k := (styled text).utf8ByteSize
    (∀ r, parse rest = .ok r → ∃ t nodes, r.view? Tree.root = some (.node Tree.root .document [] nodes) ∧
        parse (styled text ++ rest) = .ok t ∧
        t.view? Tree.root =
          some (.node Tree.root .document [] (styleView text :: allLater (styleNodes text) k nodes))) ∧
      (∀ limit offset, parse rest = .error (.tooDeep limit offset) →
        parse (styled text ++ rest) = .error (.tooDeep limit (offset + k))) ∧
      escapeStyleText text = text ∧ Clear text.toList ∧ Guards css.toList text.toList := by
  intro text k
  have hchars : text.toList = escapeStyleChars css.toList := String.toList_ofList
  have hclear : Clear text.toList := by
    rw [hchars]
    exact clear_escape css.toList
  refine ⟨fun r hr => parse_styled hclear hr, fun limit offset hr => parse_styled_error hclear hr, ?_, hclear, ?_⟩
  · rw [escapeStyleText, escape_of_clear hclear, String.ofList_toList]
  · rw [hchars]
    exact guards_escape css.toList

/-- A style sheet with an end tag, and with the beginning of one at its end. -/
theorem escapeStyleText_contained_of_partial :
    escapeStyleText "a</STYLE>b</sty" = "a<\\/STYLE>b</sty" ∧ ∃ r t nodes, parse "<p>x" = .ok r ∧
      r.view? Tree.root = some (.node Tree.root .document [] nodes) ∧ nodes.length = 1 ∧
      parse "<style>a<\\/STYLE>b</sty</style><p>x" = .ok t ∧
      t.view? Tree.root =
        some (.node Tree.root .document [] (styleView "a<\\/STYLE>b</sty" :: allLater 2 31 nodes)) := by
  have htext : escapeStyleText "a</STYLE>b</sty" = "a<\\/STYLE>b</sty" := by decide
  have hseen : (parse "<p>x").map (fun r => (r.view? Tree.root).map fun v => v.children.length) = .ok (some 1) := by cbv
  cases hr : parse "<p>x" with
  | error e =>
    rw [hr] at hseen
    cases hseen
  | ok r =>
    rw [hr] at hseen
    obtain ⟨t, nodes, hnodes, ht, hview⟩ := (escapeStyleText_contained "a</STYLE>b</sty" "<p>x").1 r hr
    have hwhole : styled "a<\\/STYLE>b</sty" ++ "<p>x" = "<style>a<\\/STYLE>b</sty</style><p>x" := by decide
    have hbytes : (styled "a<\\/STYLE>b</sty").utf8ByteSize = 31 := by decide
    have hcount : styleNodes "a<\\/STYLE>b</sty" = 2 := by decide
    rw [htext] at ht hview
    rw [hwhole] at ht
    rw [hbytes, hcount] at hview
    have hlength : (r.view? Tree.root).map (fun v => v.children.length) = some 1 := Except.ok.inj hseen
    rw [hnodes] at hlength
    exact ⟨htext, r, t, nodes, rfl, hnodes, Option.some.inj hlength, ht, hview⟩

end LiveMarkup.Preview
