/-
Text that only the end tag of its element ends.

In such text a `<` begins the end tag of the element, or a piece of the text (`MarkPiece`). So the machine reports
characters up to the end tag or the end of the text (`tokens_inside`). Text in which not even references are read
is reported as it stands, and it is read in the same way when its end tag follows it (`reads_rawText`).
-/
import LiveMarkup.Proofs.Html.Lexing.Markup
import LiveMarkup.Proofs.Html.Lexing.Mode
import LiveMarkup.Proofs.Html.Lexing.Text
import Mathlib.Data.List.TakeWhile

set_option autoImplicit false

namespace LiveMarkup.Html

open Text

/-! ## Pieces of raw text -/

/-- Whether a character ends the name of an end tag. -/
def endsName (c : Char) : Bool := isAsciiSpace c || c == '/' || c == '>'

/-- A piece of raw text that begins with a `<` and is not the beginning of the end tag of an element; `next` is
the character that follows. -/
inductive MarkPiece (name : String) (next : Option Char) : List Char → Prop
  | mark : next ≠ some '/' → MarkPiece name next ['<']
  | slash : next.any Char.isAlpha = false → MarkPiece name next ['<', '/']
  | word {w : List Char} : w ≠ [] → (∀ c ∈ w, c.isAlpha = true) → next.any Char.isAlpha = false →
      (w.map Char.toLower = name.toList → next.any endsName = false) → MarkPiece name next ('<' :: '/' :: w)

/-- Text that the end tag of an element does not occur in. -/
inductive RawText (name : String) : List Char → Prop
  | nil : RawText name []
  | char {c : Char} {cs : List Char} : c ≠ '<' → RawText name cs → RawText name (c :: cs)
  | piece {piece cs : List Char} : MarkPiece name cs.head? piece → RawText name cs → RawText name (piece ++ cs)

section MarkPiece

variable {name : String} {next : Option Char} {piece : List Char}

/-- The end of the text may follow every piece, and so may an end tag. -/
theorem markPiece_before {next' : Option Char} (h : MarkPiece name next piece)
    (hnext : next' = next ∨ next' = none ∨ next' = some '<') : MarkPiece name next' piece := by
  rcases hnext with rfl | rfl | rfl
  · exact h
  · cases h with
    | mark _ => exact .mark nofun
    | slash _ => exact .slash rfl
    | word hw halpha _ _ => exact .word hw halpha rfl fun _ => rfl
  · cases h with
    | mark _ => exact .mark (by decide)
    | slash _ => exact .slash (by decide)
    | word hw halpha _ _ => exact .word hw halpha (by decide) fun _ => by decide

/-- **A `<` begins a piece of the text, or the end tag of the element.** -/
theorem markPiece_or_closes (name : String) (rest : List Char) :
    (∃ piece after, '<' :: rest = piece ++ after ∧ MarkPiece name after.head? piece) ∨
      ∃ w c after, rest = '/' :: (w ++ c :: after) ∧ w ≠ [] ∧ (∀ c ∈ w, c.isAlpha = true) ∧
        w.map Char.toLower = name.toList ∧ endsName c = true := by
  by_cases hslash : rest.head? = some '/'
  · obtain ⟨rest, rfl⟩ := List.head?_eq_some_iff.1 hslash
    have hsplit : rest = rest.takeWhile Char.isAlpha ++ rest.dropWhile Char.isAlpha :=
      List.takeWhile_append_dropWhile.symm
    have halpha : ∀ c ∈ rest.takeWhile Char.isAlpha, c.isAlpha = true := fun c hc => List.mem_takeWhile_imp hc
    have hnext : (rest.dropWhile Char.isAlpha).head?.any Char.isAlpha = false := by
      have hhead := List.head?_dropWhile_not Char.isAlpha rest
      cases hdrop : rest.dropWhile Char.isAlpha with
      | nil => rfl
      | cons c after =>
        rw [hdrop] at hhead
        exact hhead
    generalize rest.takeWhile Char.isAlpha = w at hsplit halpha
    generalize rest.dropWhile Char.isAlpha = after at hsplit hnext
    subst hsplit
    by_cases hw : w = []
    · subst hw
      exact .inl ⟨['<', '/'], after, rfl, .slash hnext⟩
    -- the letters after the slash are the name of the element, or they are text
    · by_cases hends : w.map Char.toLower = name.toList ∧ after.head?.any endsName = true
      · obtain ⟨hname, hany⟩ := hends
        cases after with
        | nil => exact absurd hany nofun
        | cons c after => exact .inr ⟨w, c, after, rfl, hw, halpha, hname, hany⟩
      · refine .inl ⟨'<' :: '/' :: w, after, rfl, .word hw halpha hnext fun hname => ?_⟩
        exact Bool.eq_false_iff.2 fun hany => hends ⟨hname, hany⟩
  · exact .inl ⟨['<'], rest, rfl, .mark hslash⟩

end MarkPiece

namespace Lexer

variable {ls : Option String} {content : Content} {name : String} {rest w : List Char} {offset : Nat}

/-! ## Reading pieces -/

/-- A `<` in text that is neither markup nor plain. -/
theorem step_mark (hm : content ≠ .markup) (hp : content ≠ .plain) (rest : List Char) (offset : Nat) :
    step ⟨'<' :: rest, offset, ls, .text content⟩
      = take ⟨'<' :: rest, offset, ls, .text content⟩ '<' rest (.rawLessThan content offset) := by
  simp only [step, stepText]
  rw [if_neg (fun h => absurd h.1 (by decide)), if_neg (fun h => hm h.2), if_pos ⟨trivial, hp⟩]

theorem passes_rawName {start : Nat} {written : String} (h : ∀ c ∈ w, c.isAlpha = true) :
    Passes ls (.rawEndTagName content start written) w
      (.rawEndTagName content start (written ++ String.ofList w)) := by
  induction w generalizing written with
  | nil =>
    rw [show written ++ String.ofList [] = written from String.append_empty]
    exact passes_nil _
  | cons c w ih =>
    have hc : c.isAlpha = true := h c List.mem_cons_self
    have hchar := tagChar_of_isAlpha hc
    have hjoin : written.push c ++ String.ofList w = written ++ String.ofList (c :: w) := by
      apply String.ext
      simp only [String.toList_append, String.toList_push, String.toList_ofList, List.append_assoc,
        List.singleton_append]
    have hfirst : Passes ls (.rawEndTagName content start written) [c]
        (.rawEndTagName content start (written.push c)) := by
      refine passes_take fun rest offset => ⟨0, ?_⟩
      simp only [step, stepRawEndTagName, hchar.space, beq_eq_false_iff_ne.2 hchar.slash,
        beq_eq_false_iff_ne.2 hchar.close, Bool.false_and, Bool.false_eq_true, if_false, hc, if_true]
    rw [← hjoin]
    exact passes_append hfirst (ih fun d hd => h d (List.mem_cons_of_mem c hd))

/-- The beginning of what may be an end tag. -/
theorem reads_rawEndTagName (hm : content ≠ .markup) (hp : content ≠ .plain) (hw : w ≠ [])
    (halpha : ∀ c ∈ w, c.isAlpha = true) (rest : List Char) (offset : Nat) :
    Reads ⟨'<' :: '/' :: (w ++ rest), offset, ls, .text content⟩ []
      ⟨rest, offset + byteLength ('<' :: '/' :: w), ls, .rawEndTagName content offset (String.ofList w)⟩ := by
  have hbytes : offset + byteLength ('<' :: '/' :: w) = offset + 1 + 1 + byteLength w := by
    rw [byteLength, byteLength, Char.utf8Size_eq_one_iff.2 (by decide), Char.utf8Size_eq_one_iff.2 (by decide)]
    omega
  obtain ⟨c, more, rfl⟩ := List.exists_cons_of_ne_nil hw
  have hc : c.isAlpha = true := halpha c List.mem_cons_self
  have hname := @passes_rawName ls content (c :: more) offset "" halpha rest (offset + 1 + 1)
  rw [String.empty_append] at hname
  have hopen : step ⟨c :: more ++ rest, offset + 1 + 1, ls, .rawEndTagOpen content offset⟩
      = stay ⟨c :: more ++ rest, offset + 1 + 1, ls, .rawEndTagOpen content offset⟩
          (.rawEndTagName content offset "") := by
    simp only [step, stepRawEndTagOpen, List.cons_append, List.head?_cons, hc, if_true]
  have hfirst := @step_mark ls content hm hp ('/' :: (c :: more ++ rest)) offset
  rw [hbytes]
  refine .silent (congrArg Step.next hfirst) (congrArg Step.tokens hfirst) ?_
  refine .silent rfl rfl ?_
  exact .silent (congrArg Step.next hopen) (congrArg Step.tokens hopen) hname

/-- **A piece of the text is reported as it stands.** -/
theorem reads_markPiece {piece : List Char} (hm : content ≠ .markup) (hp : content ≠ .plain) {rest : List Char}
    (h : MarkPiece name rest.head? piece) (offset : Nat) :
    Reads ⟨piece ++ rest, offset, some name, .text content⟩ (piece.map .character)
      ⟨rest, offset + byteLength piece, some name, .text content⟩ := by
  have hfirst : ∀ rest, Reads ⟨'<' :: rest, offset, some name, .text content⟩ []
      ⟨rest, offset + 1, some name, .rawLessThan content offset⟩ := by
    intro rest
    have hstep := @step_mark (some name) content hm hp rest offset
    exact .one (congrArg Step.next hstep) (congrArg Step.tokens hstep)
  -- how far the lexer looks after the mark depends on the kind of the piece
  cases h with
  | mark hnext =>
    refine (hfirst rest).trans (.one ?_ ?_)
    all_goals
      simp only [step, stepRawLessThan]
      split
      · exact absurd rfl hnext
      · rfl
  | slash hnext =>
    refine (hfirst ('/' :: rest)).trans (.silent rfl rfl (.one ?_ ?_))
    all_goals
      simp only [step, stepRawEndTagOpen]
      split
      · rename_i c hc
        rw [hc, Option.any_some] at hnext
        rw [hnext]
        rfl
      · rfl
  | @word w hw halpha hnext hname =>
    have hstep : step ⟨rest, offset + byteLength ('<' :: '/' :: w), some name,
          .rawEndTagName content offset (String.ofList w)⟩
        = stay ⟨rest, offset + byteLength ('<' :: '/' :: w), some name,
            .rawEndTagName content offset (String.ofList w)⟩ (.text content)
          (('<' :: '/' :: w).map .character) := by
      -- the name is another one, or what follows does not end it
      have happropriate : (some name == some (String.ofList w).toLower) = true → w.map Char.toLower = name.toList := by
        intro heq
        rw [Option.some.inj (eq_of_beq heq), toList_toLower, String.toList_ofList]
      simp only [step, stepRawEndTagName, String.toList_ofList]
      cases rest with
      | nil => rfl
      | cons c rest =>
        rw [List.head?_cons, Option.any_some] at hnext hname
        cases hlast : (some name == some (String.ofList w).toLower) with
        | false =>
          simp only [Bool.and_false, Bool.false_eq_true, if_false, hnext]
          rfl
        | true =>
          have hends := hname (happropriate hlast)
          rw [endsName, Bool.or_eq_false_iff, Bool.or_eq_false_iff] at hends
          simp only [hends.1.1, hends.1.2, hends.2, Bool.false_and, Bool.false_eq_true, if_false, hnext]
          rfl
    exact (reads_rawEndTagName hm hp hw halpha rest offset).trans
      (.one (congrArg Step.next hstep) (congrArg Step.tokens hstep))

/-- **Raw text is reported as it stands** when an end tag follows it. -/
theorem reads_rawText {cs : List Char} (hm : content ≠ .markup) (hp : content ≠ .plain) (he : content ≠ .escapable)
    (h : RawText name cs) (more : List Char) (offset : Nat) :
    Reads ⟨cs ++ '<' :: more, offset, some name, .text content⟩ (cs.map .character)
      ⟨'<' :: more, offset + byteLength cs, some name, .text content⟩ := by
  induction h generalizing offset with
  | nil => exact .refl _
  | @char c cs hc _ ih =>
    have hstep : step ⟨c :: (cs ++ '<' :: more), offset, some name, .text content⟩
        = take ⟨c :: (cs ++ '<' :: more), offset, some name, .text content⟩ c (cs ++ '<' :: more) (.text content)
            [.character c] := by
      simp only [step, stepText, hc, hm, he, or_self, and_false, false_and, if_false]
    have hrest := ih (offset + c.utf8Size)
    rw [Nat.add_assoc] at hrest
    exact .next (congrArg Step.next hstep) (congrArg Step.tokens hstep) hrest
  | @piece piece cs hpiece _ ih =>
    have hnext : (cs ++ '<' :: more).head? = cs.head? ∨ (cs ++ '<' :: more).head? = none ∨
        (cs ++ '<' :: more).head? = some '<' := by
      cases cs with
      | nil => exact .inr (.inr rfl)
      | cons c cs => exact .inl rfl
    rw [List.map_append, List.append_assoc, byteLength_append, ← Nat.add_assoc]
    exact (reads_markPiece hm hp (markPiece_before hpiece hnext) offset).trans (ih _)

/-- The elements whose text is not markup have names of letters. -/
theorem isAlpha_of_content {name : String} (h : Content.ofElement name.toLower ≠ .markup) :
    ∀ c ∈ name.toList, c.isAlpha = true := by
  have hletters : ∀ other ∈ ["title", "textarea", "style", "xmp", "iframe", "noembed", "noframes", "noscript", "script",
      "plaintext"], other.toList.all Char.isAlpha = true := by decide
  have hmem : name.toLower ∈ ["title", "textarea", "style", "xmp", "iframe", "noembed", "noframes", "noscript",
      "script", "plaintext"] := by
    by_contra hnot
    simp only [List.mem_cons, List.not_mem_nil, or_false, not_or] at hnot
    refine h ?_
    simp only [Content.ofElement, List.mem_cons, List.not_mem_nil, or_false, hnot, if_false]
  intro c hc
  refine isAlpha_of_toLower (List.all_eq_true.1 (hletters _ hmem) _ ?_)
  rw [toList_toLower]
  exact List.mem_map_of_mem hc

/-- **The end tag of an element is read in its text.** -/
theorem reads_rawEndTag {name : String} (hname : TagName name.toList) (hcontent : Content.ofElement name.toLower = content)
    (hm : content ≠ .markup) (hp : content ≠ .plain) (rest : List Char) (offset : Nat) :
    Reads ⟨("</" ++ name ++ ">").toList ++ rest, offset, some name.toLower, .text content⟩
      [.endTag name.toLower ⟨offset, offset + byteLength ("</" ++ name ++ ">").toList⟩]
      ⟨rest, offset + byteLength ("</" ++ name ++ ">").toList, some name.toLower, .text .markup⟩ := by
  have halpha : ∀ c ∈ name.toList, c.isAlpha = true := isAlpha_of_content (hcontent ▸ hm)
  have hne : name.toList ≠ [] := by
    intro hnil
    rw [hnil] at hname
    cases hname
  have htext : ("</" ++ name ++ ">").toList ++ rest = '<' :: '/' :: (name.toList ++ '>' :: rest) := by
    simp only [String.toList_append, List.append_assoc]
    rfl
  have hbytes : offset + byteLength ("</" ++ name ++ ">").toList
      = offset + byteLength ('<' :: '/' :: name.toList) + 1 := by
    have hwhole : ("</" ++ name ++ ">").toList = ('<' :: '/' :: name.toList) ++ ['>'] := by
      simp only [String.toList_append]
      rfl
    rw [hwhole, byteLength_append, ← Nat.add_assoc]
    rfl
  have hstep : step ⟨'>' :: rest, offset + byteLength ('<' :: '/' :: name.toList), some name.toLower,
        .rawEndTagName content offset (String.ofList name.toList)⟩
      = closeTag ⟨'>' :: rest, offset + byteLength ('<' :: '/' :: name.toList), some name.toLower,
          .rawEndTagName content offset (String.ofList name.toList)⟩ rest ⟨true, offset, name.toLower, []⟩ false := by
    have hspace : isAsciiSpace '>' = false := by decide
    have hslash : ('>' == '/') = false := by decide
    simp only [step, stepRawEndTagName, String.ofList_toList, hspace, hslash, Bool.false_and, Bool.false_eq_true, if_false,
      beq_self_eq_true, Bool.and_self, if_true]
  rw [htext, hbytes]
  refine (reads_rawEndTagName hm hp hne halpha ('>' :: rest) offset).trans (.one ?_ ?_)
  · rw [hstep]
    rfl
  · rw [hstep]
    rfl

/-! ## The end of the text -/

/-- What follows the text of an element: the end of the whole text, or the end tag of the element. -/
def EndsText (name : String) (ts : List Token) : Prop :=
  (∃ n, ts = [.endOfFile n]) ∨ ∃ span rest, ts = .endTag name span :: rest

/-- The end tag of the element is reported, unless the text ends in it. -/
theorem endsText_of_tag {l : Lexer} {tag : TagDraft} (hlast : l.lastStart = some name)
    (htag : l.state.tag? = some tag) (hclosing : tag.closing = true) (hname : tag.name = name) :
    EndsText name l.tokens := by
  induction l using tokens.induct generalizing tag with
  | case1 l hnext =>
    have hstep := closesTag_step hlast htag hclosing hname
    rw [tokens_of_none hnext]
    generalize l.step = step at hstep hnext
    cases hstep with
    | goes errors _ _ _ _ => cases hnext
    | ends span m errors => cases hnext
    | cut n errors => exact .inl ⟨n, rfl⟩
  | case2 l m hnext ih =>
    have hstep := closesTag_step hlast htag hclosing hname
    rw [tokens_of_some hnext]
    generalize l.step = step at hstep hnext
    cases hstep with
    | goes errors hlast' htag' hclosing' hname' =>
      obtain rfl := Option.some.inj hnext
      exact ih hlast' htag' hclosing' hname'
    | ends span m' errors => exact .inr ⟨span, _, rfl⟩
    | cut n errors => cases hnext

/-- After the name of a tag the lexer goes on in one of three ways. -/
def Continues (c : Char) (after : List Char) (tag : TagDraft) (l : Lexer) : Prop :=
  l.step = l.take c after (.beforeAttributeName tag) ∨ l.step = l.take c after (.selfClosing tag) ∨
    l.step = l.closeTag after tag false

/-- The name of the last start tag, in any case, ends its text. -/
theorem continues_rawEndTagName {c : Char} {start : Nat} {written : String} (hc : endsName c = true)
    (after : List Char) (offset : Nat) :
    Continues c after ⟨true, start, written.toLower, []⟩
      ⟨c :: after, offset, some written.toLower, .rawEndTagName content start written⟩ := by
  simp only [Continues, step, stepRawEndTagName, beq_self_eq_true, Bool.and_true]
  rw [endsName, Bool.or_eq_true, Bool.or_eq_true] at hc
  by_cases hspace : isAsciiSpace c = true
  · exact .inl (if_pos hspace)
  · rw [if_neg hspace]
    by_cases hslash : (c == '/') = true
    · exact .inr (.inl (if_pos hslash))
    · rw [if_neg hslash]
      exact .inr (.inr (if_pos ((hc.resolve_left fun h => h.elim hspace hslash))))

/-- The end tag of the element ends the text. -/
theorem endsText_of_name {c : Char} (hm : content ≠ .markup) (hp : content ≠ .plain) (hw : w ≠ [])
    (halpha : ∀ c ∈ w, c.isAlpha = true) (hname : w.map Char.toLower = name.toList) (hc : endsName c = true)
    (after : List Char) (offset : Nat) :
    EndsText name (⟨'<' :: '/' :: (w ++ c :: after), offset, some name, .text content⟩ : Lexer).tokens := by
  rw [tokens_of_reads (reads_rawEndTagName hm hp hw halpha (c :: after) offset), List.nil_append]
  have hlower : (String.ofList w).toLower = name := by
    apply String.ext
    rw [toList_toLower, String.toList_ofList, hname]
  generalize hl : (⟨c :: after, _, some name, .rawEndTagName content offset (String.ofList w)⟩ : Lexer) = l
  -- after the name the tag goes on in one of three ways
  have hstep : Continues c after ⟨true, offset, name, []⟩ l := by
    rw [← hl, ← hlower]
    exact continues_rawEndTagName hc after _
  have hlast : l.lastStart = some name := by
    rw [← hl]
  rcases hstep with hstep | hstep | hstep
  · have hnext : l.step.next = some _ := congrArg Step.next hstep
    rw [tokens_of_some hnext, hstep]
    exact endsText_of_tag hlast rfl rfl rfl
  · have hnext : l.step.next = some _ := congrArg Step.next hstep
    rw [tokens_of_some hnext, hstep]
    exact endsText_of_tag hlast rfl rfl rfl
  · have hnext : l.step.next = some _ := congrArg Step.next hstep
    rw [tokens_of_some hnext, hstep]
    exact .inr ⟨_, _, rfl⟩

/-- Text without a `<` is reported up to its end. -/
theorem tokens_unmarked {l : Lexer} (hs : l.state.start? = none) (hno : '<' ∉ l.rest) :
    ∃ (cs : List Char) (n : Nat), l.tokens = cs.map .character ++ [.endOfFile n] := by
  -- without a mark no step leaves the text, so all that is reported is characters
  induction l using tokens.induct with
  | case1 l hnext =>
    have hanatomy := step_anatomy l
    rw [tokens_of_none hnext]
    generalize l.step = step at hanatomy hnext
    cases hanatomy with
    | finish cs errors _ => exact ⟨cs, _, rfl⟩
    | cut start token errors _ hstart _ _ =>
      rw [hs] at hstart
      cases hstart
    | draft start m errors _ _ _ _ _ => cases hnext
    | text cs m errors _ _ _ _ => cases hnext
    | startTag start name selfClosing attributes rest errors _ _ => cases hnext
    | other start token rest errors _ _ _ _ => cases hnext
  | case2 l m hnext ih =>
    have hanatomy := step_anatomy l
    rw [tokens_of_some hnext]
    generalize l.step = step at hanatomy hnext
    cases hanatomy with
    | finish cs errors _ => cases hnext
    | cut start token errors _ _ _ _ => cases hnext
    | draft start m' errors _ hbegins _ _ _ =>
      rcases hbegins with hstart | ⟨-, hhead, -⟩
      · rw [hs] at hstart
        cases hstart
      · exact absurd (List.mem_of_mem_head? hhead) hno
    | text cs m' errors hstart hmoves _ _ =>
      obtain rfl := Option.some.inj hnext
      obtain ⟨eaten, heaten, -⟩ := hmoves
      have hno' : '<' ∉ m'.rest := fun hmem => hno (heaten ▸ List.mem_append_right eaten hmem)
      obtain ⟨cs', n, htokens⟩ := ih hstart hno'
      refine ⟨cs ++ cs', n, ?_⟩
      rw [htokens, List.map_append, List.append_assoc]
    | startTag start name selfClosing attributes rest errors hstart _ =>
      rw [hs] at hstart
      cases hstart
    | other start token rest errors hstart _ _ _ =>
      rw [hs] at hstart
      cases hstart

/-- Up to the end of the text, or to its first `<`. -/
theorem split_mark (rest : List Char) : '<' ∉ rest ∨ ∃ before tail, rest = before ++ '<' :: tail ∧ '<' ∉ before := by
  by_cases h : '<' ∈ rest
  · obtain ⟨before, tail, hrest, hno⟩ := List.eq_append_cons_of_mem h
    exact .inr ⟨before, tail, hrest, hno⟩
  · exact .inl h

theorem length_of_markPiece {next : Option Char} {piece : List Char} (h : MarkPiece name next piece) :
    0 < piece.length := by
  cases h <;> exact Nat.succ_pos _

/-- Text that only the end tag of its element ends is reported as characters. -/
theorem tokens_escapable (hm : content ≠ .markup) (hp : content ≠ .plain) (rest : List Char) (offset : Nat) :
    ∃ (cs : List Char) (ts : List Token), (⟨rest, offset, some name, .text content⟩ : Lexer).tokens
      = cs.map .character ++ ts ∧ EndsText name ts := by
  -- by induction on how much is left; the text is cut before each mark
  induction hn : rest.length using Nat.strongRecOn generalizing rest offset with
  | ind n ih =>
    rcases split_mark rest with hno | ⟨before, tail, rfl, hno⟩
    · obtain ⟨cs, m, htokens⟩ := @tokens_unmarked ⟨rest, offset, some name, .text content⟩ rfl hno
      exact ⟨cs, _, htokens, .inl ⟨m, rfl⟩⟩
    · obtain ⟨cs, hreads⟩ := @reads_text ⟨before ++ '<' :: tail, offset, some name, .text content⟩ before tail rfl rfl hno
      change Reads _ _ ⟨'<' :: tail, offset + byteLength before, some name, .text content⟩ at hreads
      rw [tokens_of_reads hreads]
      rcases markPiece_or_closes name tail with ⟨piece, after, hsplit, hpiece⟩ | ⟨w, c, after, rfl, hw, halpha, hname, hc⟩
      · have hlength : after.length < n := by
          have htail := congrArg List.length hsplit
          have hpos := length_of_markPiece hpiece
          rw [List.length_append] at htail
          rw [← hn, List.length_append, htail]
          omega
        obtain ⟨cs', ts, htokens, hends⟩ := ih _ hlength after (offset + byteLength before + byteLength piece) rfl
        refine ⟨cs ++ (piece ++ cs'), ts, ?_, hends⟩
        rw [hsplit, tokens_of_reads (reads_markPiece hm hp hpiece _), htokens]
        simp only [List.map_append, List.append_assoc]
      · exact ⟨cs, _, rfl, endsText_of_name hm hp hw halpha hname hc after _⟩

/-- Text in which not even references are read is reported as it stands. -/
theorem tokens_raw (hm : content ≠ .markup) (hp : content ≠ .plain) (he : content ≠ .escapable) (rest : List Char)
    (offset : Nat) :
    ∃ (cs after : List Char) (ts : List Token), rest = cs ++ after ∧ RawText name cs ∧
      (⟨rest, offset, some name, .text content⟩ : Lexer).tokens = cs.map .character ++ ts ∧ EndsText name ts := by
  -- by induction on how much is left; a character is one step, a mark is read with what belongs to it
  induction hn : rest.length using Nat.strongRecOn generalizing rest offset with
  | ind n ih =>
    cases rest with
    | nil => exact ⟨[], [], _, rfl, .nil, tokens_of_none rfl, .inl ⟨offset, rfl⟩⟩
    | cons c rest =>
      by_cases hc : c = '<'
      · subst hc
        rcases markPiece_or_closes name rest with ⟨piece, after, hsplit, hpiece⟩ | ⟨w, c, after, rfl, hw, halpha, hname, hc⟩
        · have hlength : after.length < n := by
            have htail := congrArg List.length hsplit
            have hpos := length_of_markPiece hpiece
            rw [List.length_append] at htail
            omega
          obtain ⟨cs, after', ts, rfl, hcs, htokens, hends⟩ := ih _ hlength after (offset + byteLength piece) rfl
          have hnext : cs.head? = (cs ++ after').head? ∨ cs.head? = none ∨ cs.head? = some '<' := by
            cases cs with
            | nil => exact .inr (.inl rfl)
            | cons c cs => exact .inl rfl
          refine ⟨piece ++ cs, after', ts, ?_, .piece (markPiece_before hpiece hnext) hcs, ?_, hends⟩
          · rw [hsplit, List.append_assoc]
          · rw [hsplit, tokens_of_reads (reads_markPiece hm hp hpiece _), htokens, List.map_append, List.append_assoc]
        · exact ⟨[], _, _, rfl, .nil, rfl, endsText_of_name hm hp hw halpha hname hc after offset⟩
      · have hstep : step ⟨c :: rest, offset, some name, .text content⟩
            = take ⟨c :: rest, offset, some name, .text content⟩ c rest (.text content) [.character c] := by
          simp only [step, stepText, hc, hm, he, or_self, and_false, false_and, if_false]
        have hlength : rest.length < n := by
          rw [← hn, List.length_cons]
          exact Nat.lt_succ_self _
        obtain ⟨cs, after, ts, rfl, hcs, htokens, hends⟩ := ih _ hlength rest (offset + c.utf8Size) rfl
        refine ⟨c :: cs, after, ts, rfl, .char hc hcs, ?_, hends⟩
        rw [tokens_of_some (congrArg Step.next hstep), hstep]
        exact congrArg (Token.character c :: ·) htokens

/-- **Text that only the end tag of its element ends is reported as characters**, up to the end tag or the end of
the whole text. It is raw text, unless references are read in it. -/
theorem tokens_inside (hm : content ≠ .markup) (hp : content ≠ .plain) (rest : List Char) (offset : Nat) :
    ∃ (cs : List Char) (ts : List Token), (⟨rest, offset, some name, .text content⟩ : Lexer).tokens
      = cs.map .character ++ ts ∧ EndsText name ts ∧ (content ≠ .escapable → RawText name cs) := by
  by_cases he : content = .escapable
  · obtain ⟨cs, ts, htokens, hends⟩ := @tokens_escapable content name hm hp rest offset
    exact ⟨cs, ts, htokens, hends, fun hne => absurd he hne⟩
  · obtain ⟨cs, -, ts, -, hcs, htokens, hends⟩ := @tokens_raw content name hm hp he rest offset
    exact ⟨cs, ts, htokens, hends, fun _ => hcs⟩

end Lexer

/-! ## The tokens of a text -/

/-- Whether only its end tag ends the text of an element. -/
def Content.endsOwn : Content → Bool
  | .escapable | .raw | .script => true
  | .markup | .plain => false

/-- After the start tag of an element whose text only its end tag ends, characters follow. -/
def TextFollows (ts : List Token) : Prop :=
  ∀ before name attributes span after, ts = before ++ .startTag name false attributes span :: after →
    (Content.ofElement name).endsOwn = true → ∃ (cs : List Char) (rest : List Token),
      after = cs.map .character ++ rest ∧ Lexer.EndsText name rest ∧
        (Content.ofElement name ≠ .escapable → RawText name cs)

theorem textFollows_tokenize (text : String) : TextFollows (tokenize text) := by
  intro before name attributes span after htokens hends
  rw [tokenize_eq] at htokens
  obtain ⟨m, k, n, hoccurs, rfl⟩ := Lexer.occurs_of_tokens rfl htokens rfl
  obtain ⟨hlast, hcontent⟩ := hoccurs.content _ _ _ _ rfl
  rw [if_neg Bool.false_ne_true] at hcontent
  have hstate := hoccurs.state
  obtain ⟨rest, offset, last, state⟩ := n
  simp only at hlast hstate hcontent
  subst hlast
  rw [hcontent] at hstate
  subst hstate
  have hm : Content.ofElement name ≠ .markup := by
    intro hm
    rw [hm] at hends
    exact absurd hends nofun
  have hp : Content.ofElement name ≠ .plain := by
    intro hp
    rw [hp] at hends
    exact absurd hends nofun
  exact Lexer.tokens_inside hm hp rest offset

end LiveMarkup.Html
