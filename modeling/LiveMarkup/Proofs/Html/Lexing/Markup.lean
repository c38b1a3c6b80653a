/-
Reading written markup.

What the serializer writes is read back piece by piece, whatever follows it: escaped text as the text that
was escaped (`reads_escapeText`), a comment as its data (`reads_comment`), and a tag as the tag of the
element (`reads_writeStartTag`, `reads_endTag`).
-/
import LiveMarkup.Proofs.Html.Lexing.Spelling
import Mathlib.Data.List.Induction

set_option autoImplicit false

namespace LiveMarkup.Html

open Text

namespace Lexer

variable {ls : Option String} {rest : List Char} {offset : Nat}

/-! ## Text -/

theorem longestEntity?_lt (rest : List Char) :
    longestEntity? (['l', 't', ';'] ++ rest) = some ⟨3, "<", true⟩ := by cbv

theorem longestEntity?_gt (rest : List Char) :
    longestEntity? (['g', 't', ';'] ++ rest) = some ⟨3, ">", true⟩ := by cbv

/-- An escaped character is read back as the character. -/
theorem reads_escapeInText {content : Content} (hc : content = .markup ∨ content = .escapable) (c : Char)
    (rest : List Char) (offset : Nat) :
    Reads ⟨(escapeInText c).toList ++ rest, offset, ls, .text content⟩ [.character c]
      ⟨rest, offset + byteLength (escapeInText c).toList, ls, .text content⟩ := by
  have hamp : ∀ rest offset, step ⟨'&' :: rest, offset, ls, .text content⟩
      = take ⟨'&' :: rest, offset, ls, .text content⟩ '&' rest (.reference (.text content)) := by
    intro rest offset
    simp only [step, stepText, hc, and_self, if_true]
  unfold escapeInText
  split
  · exact reads_reference (.text content) hamp rfl longestEntity?_amp rfl rfl (List.all_iff_forall_prop.1 rfl) rest offset
  · exact reads_reference (.text content) hamp rfl longestEntity?_nbsp rfl rfl (List.all_iff_forall_prop.1 rfl) rest offset
  · exact reads_reference (.text content) hamp rfl longestEntity?_lt rfl rfl (List.all_iff_forall_prop.1 rfl) rest offset
  · exact reads_reference (.text content) hamp rfl longestEntity?_gt rfl rfl (List.all_iff_forall_prop.1 rfl) rest offset
  · rename_i hamp _ hlt _
    have hamp : c ≠ '&' := hamp
    have hlt : c ≠ '<' := hlt
    have hstep : step ⟨c :: rest, offset, ls, .text content⟩
        = take ⟨c :: rest, offset, ls, .text content⟩ c rest (.text content) [.character c] := by
      simp only [step, stepText, hamp, hlt, false_and, if_false]
    rw [toList_toString]
    exact .one (congrArg Step.next hstep) (congrArg Step.tokens hstep)

/-- **Escaped text is read back as the text.** -/
theorem reads_escapeText {content : Content} (hc : content = .markup ∨ content = .escapable) (text : String)
    (rest : List Char) (offset : Nat) :
    Reads ⟨(escapeText text).toList ++ rest, offset, ls, .text content⟩ (text.toList.map .character)
      ⟨rest, offset + byteLength (escapeText text).toList, ls, .text content⟩ := by
  have htext : (escapeText text).toList = text.toList.flatMap fun c => (escapeInText c).toList := by
    rw [escapeText, String.toList_join, List.flatMap_map]
  rw [htext]
  generalize text.toList = cs
  induction cs generalizing offset with
  | nil => exact .refl _
  | cons c cs ih =>
    have hfirst := @reads_escapeInText ls _ hc c ((cs.flatMap fun c => (escapeInText c).toList) ++ rest) offset
    rw [List.flatMap_cons, List.append_assoc, byteLength_append, ← Nat.add_assoc]
    exact hfirst.trans (ih _)

/-! ## Comments -/

/-- The machine is in a comment and has read some text of it. What may still belong to the end of the
comment is not in the data yet. -/
inductive Commenting (start : Nat) : List Char → State → Prop
  | opened : Commenting start [] (.commentStart ⟨start, ""⟩)
  | openedDash : Commenting start ['-'] (.commentStartDash ⟨start, ""⟩)
  | data (data : String) : Commenting start data.toList (.comment ⟨start, data⟩)
  | dash (data : String) : Commenting start (data.toList ++ ['-']) (.commentEndDash ⟨start, data⟩)
  | dashes (data : String) : Commenting start (data.toList ++ ['-', '-']) (.commentEnd ⟨start, data⟩)
  | bang (data : String) : Commenting start (data.toList ++ ['-', '-', '!']) (.commentEndBang ⟨start, data⟩)

section Commenting

variable {start : Nat} {s : State} {cs : List Char} {c : Char}

/-- A character is added to the data, after what turned out not to end the comment. -/
theorem passes_comment (data pending : String) (hc : c ≠ '-') (hnull : c ≠ '\x00') :
    ∃ s', Commenting start (data.toList ++ pending.toList ++ [c]) s' ∧
      Passes ls (.comment ((⟨start, data⟩ : CommentDraft).append pending)) [c] s' := by
  refine ⟨.comment ⟨start, data ++ pending ++ c.toString⟩, ?_, passes_take fun rest offset => ⟨0, ?_⟩⟩
  · have hdata : data.toList ++ pending.toList ++ [c] = (data ++ pending ++ c.toString).toList := by
      rw [String.toList_append, String.toList_append, toList_toString]
    rw [hdata]
    exact .data _
  · simp only [step, stepComment, hc, if_false, replaceNull_of_ne hnull, CommentDraft.append]

theorem passes_commentDash (data : String) : Commenting start (data.toList ++ ['-']) (.commentEndDash ⟨start, data⟩) ∧
    Passes ls (.comment ⟨start, data⟩) ['-'] (.commentEndDash ⟨start, data⟩) :=
  ⟨.dash data, passes_take fun _ _ => ⟨0, rfl⟩⟩

/-- **A character of a comment goes to its data**, when it does not end the comment. -/
theorem passes_commenting (h : Commenting start cs s) (hnull : c ≠ '\x00') (hclose : c = '>' → Unended cs) :
    ∃ s', Commenting start (cs ++ [c]) s' ∧ Passes ls s [c] s' := by
  -- a character that ends nothing is looked at once more as one of the data
  have falls : ∀ (data pending : String), c ≠ '-' →
      (∀ rest offset, ∃ errors, step ⟨c :: rest, offset, ls, s⟩
        = stay ⟨c :: rest, offset, ls, s⟩ (.comment ((⟨start, data⟩ : CommentDraft).append pending)) [] errors) →
      cs = data.toList ++ pending.toList → ∃ s', Commenting start (cs ++ [c]) s' ∧ Passes ls s [c] s' := by
    intro data pending hc hstay hcs
    obtain ⟨s', hs', hpasses⟩ := @passes_comment ls start c data pending hc hnull
    exact ⟨s', hcs ▸ hs', passes_stay hstay hpasses⟩
  cases h with
  | opened =>
    by_cases hdash : c = '-'
    · subst hdash
      exact ⟨_, .openedDash, passes_take fun _ _ => ⟨0, rfl⟩⟩
    · have hgt : c ≠ '>' := fun hc => (hclose hc).empty rfl
      refine falls "" "" hdash (fun rest offset => ⟨0, ?_⟩) rfl
      simp only [step, stepCommentStart]
      split
      · rename_i heq
        exact absurd (List.cons.inj heq).1 hdash
      · rename_i heq
        exact absurd (List.cons.inj heq).1 hgt
      · rfl
  | openedDash =>
    by_cases hdash : c = '-'
    · subst hdash
      exact ⟨_, .dashes "", passes_take fun _ _ => ⟨0, rfl⟩⟩
    · have hgt : c ≠ '>' := fun hc => (hclose hc).dash rfl
      refine falls "" "-" hdash (fun rest offset => ⟨0, ?_⟩) rfl
      simp only [step, stepCommentStartDash]
      split
      · rename_i heq
        exact absurd heq (List.cons_ne_nil _ _)
      · rename_i heq
        exact absurd (List.cons.inj heq).1 hdash
      · rename_i heq
        exact absurd (List.cons.inj heq).1 hgt
      · rfl
  | data data =>
    by_cases hdash : c = '-'
    · subst hdash
      exact ⟨_, passes_commentDash data⟩
    · obtain ⟨s', hs', hpasses⟩ := @passes_comment ls start c data "" hdash hnull
      have hdata : (⟨start, data⟩ : CommentDraft).append "" = ⟨start, data⟩ := by
        rw [CommentDraft.append, String.append_empty]
      rw [hdata] at hpasses
      rw [show "".toList = [] from rfl, List.append_nil] at hs'
      exact ⟨s', hs', hpasses⟩
  | dash data =>
    by_cases hdash : c = '-'
    · subst hdash
      refine ⟨.commentEnd ⟨start, data⟩, ?_, passes_take fun _ _ => ⟨0, rfl⟩⟩
      rw [List.append_assoc]
      exact .dashes data
    · refine falls data "-" hdash (fun rest offset => ⟨0, ?_⟩) rfl
      simp only [step, stepCommentEndDash]
      split
      · rename_i heq
        exact absurd heq (List.cons_ne_nil _ _)
      · rename_i heq
        exact absurd (List.cons.inj heq).1 hdash
      · rfl
  | dashes data =>
    by_cases hdash : c = '-'
    · subst hdash
      refine ⟨.commentEnd ⟨start, data ++ "-"⟩, ?_, passes_take fun _ _ => ⟨0, rfl⟩⟩
      have hdata : data.toList ++ ['-', '-'] ++ ['-'] = (data ++ "-").toList ++ ['-', '-'] := by
        rw [String.toList_append, List.append_assoc, List.append_assoc]
        rfl
      rw [hdata]
      exact .dashes _
    · have hgt : c ≠ '>' := fun hc => (hclose hc).dashes (List.suffix_append _ _)
      by_cases hbang : c = '!'
      · subst hbang
        refine ⟨.commentEndBang ⟨start, data⟩, ?_, passes_take fun _ _ => ⟨0, rfl⟩⟩
        rw [List.append_assoc]
        exact .bang data
      · refine falls data "--" hdash (fun rest offset => ⟨0, ?_⟩) rfl
        simp only [step, stepCommentEnd]
        split
        · rename_i heq
          exact absurd heq (List.cons_ne_nil _ _)
        · rename_i heq
          exact absurd (List.cons.inj heq).1 hgt
        · rename_i heq
          exact absurd (List.cons.inj heq).1 hbang
        · rename_i heq
          exact absurd (List.cons.inj heq).1 hdash
        · rfl
  | bang data =>
    by_cases hdash : c = '-'
    · subst hdash
      refine ⟨.commentEndDash ⟨start, data ++ "--!"⟩, ?_, passes_take fun _ _ => ⟨0, rfl⟩⟩
      have hdata : data.toList ++ ['-', '-', '!'] ++ ['-'] = (data ++ "--!").toList ++ ['-'] := by
        rw [String.toList_append]
        rfl
      rw [hdata]
      exact .dash _
    · have hgt : c ≠ '>' := fun hc => (hclose hc).bang (List.suffix_append _ _)
      refine falls data "--!" hdash (fun rest offset => ⟨0, ?_⟩) rfl
      simp only [step, stepCommentEndBang]
      split
      · rename_i heq
        exact absurd heq (List.cons_ne_nil _ _)
      · rename_i heq
        exact absurd (List.cons.inj heq).1 hdash
      · rename_i heq
        exact absurd (List.cons.inj heq).1 hgt
      · rfl

theorem commentText_of_append {cs ds : List Char} (h : CommentText (cs ++ ds)) : CommentText cs := by
  refine ⟨?_, fun hmem => h.null (List.mem_append_left _ hmem)⟩
  rintro before after rfl
  exact h.unended before (after ++ ds) (by rw [List.append_assoc, List.cons_append])

/-- The text of a comment is read to its end. -/
theorem passes_commentText (h : CommentText cs) :
    ∃ s, Commenting start cs s ∧ Passes ls (.commentStart ⟨start, ""⟩) cs s := by
  induction cs using List.reverseRecOn with
  | nil => exact ⟨_, .opened, passes_nil _⟩
  | append_singleton cs c ih =>
    obtain ⟨s, hs, hpasses⟩ := ih (commentText_of_append h)
    have hnull : c ≠ '\x00' := by
      rintro rfl
      exact h.null (List.mem_append_right _ List.mem_cons_self)
    have hclose : c = '>' → Unended cs := by
      rintro rfl
      exact h.unended cs [] rfl
    obtain ⟨s', hs', hlast⟩ := passes_commenting hs hnull hclose
    exact ⟨s', hs', passes_append hpasses hlast⟩

/-- Two hyphens and a `>` end a comment at every place. -/
theorem reads_commentEnd (h : Commenting start cs s) (rest : List Char) (offset : Nat) :
    Reads ⟨'-' :: '-' :: '>' :: rest, offset, ls, s⟩ [.comment (String.ofList cs) ⟨start, offset + 3⟩]
      ⟨rest, offset + 3, ls, .text .markup⟩ := by
  have hclose : ∀ data : String,
      Reads ⟨'>' :: rest, offset + 2, ls, .commentEnd ⟨start, data⟩⟩ [.comment data ⟨start, offset + 3⟩]
        ⟨rest, offset + 3, ls, .text .markup⟩ := fun data => .one rfl rfl
  have hdashes : ∀ data : String,
      Reads ⟨'-' :: '>' :: rest, offset + 1, ls, .commentEnd ⟨start, data⟩⟩
        [.comment (data ++ "-") ⟨start, offset + 3⟩] ⟨rest, offset + 3, ls, .text .markup⟩ :=
    fun data => .silent rfl rfl (hclose _)
  have hdash : ∀ data : String,
      Reads ⟨'-' :: '>' :: rest, offset + 1, ls, .commentEndDash ⟨start, data⟩⟩
        [.comment data ⟨start, offset + 3⟩] ⟨rest, offset + 3, ls, .text .markup⟩ :=
    fun data => .silent rfl rfl (hclose _)
  have hdata : ∀ data pending : String,
      String.ofList (data.toList ++ pending.toList) = data ++ pending := by
    intro data pending
    rw [← String.toList_append, String.ofList_toList]
  -- what was held back of a possible end differs from place to place
  cases h with
  | opened =>
    have hopened : Reads ⟨'-' :: '>' :: rest, offset + 1, ls, .commentStartDash ⟨start, ""⟩⟩
        [.comment "" ⟨start, offset + 3⟩] _ := .silent rfl rfl (hclose "")
    exact .silent rfl rfl hopened
  | openedDash => exact .silent rfl rfl (hdashes "")
  | data data =>
    rw [String.ofList_toList]
    exact .silent rfl rfl (hdash data)
  | dash data =>
    rw [show ['-'] = "-".toList from rfl, hdata]
    exact .silent rfl rfl (hdashes data)
  | dashes data =>
    rw [show ['-', '-'] = "--".toList from rfl, hdata, show "--" = "-" ++ "-" from rfl, ← String.append_assoc]
    exact .silent rfl rfl (hdashes (data ++ "-"))
  | bang data =>
    rw [show ['-', '-', '!'] = "--!".toList from rfl, hdata]
    exact .silent rfl rfl (hdash (data ++ "--!"))

end Commenting

/-- **A comment is read back.** -/
theorem reads_comment {data : String} (h : CommentText data.toList) (rest : List Char) (offset : Nat) :
    Reads ⟨("<!--" ++ data ++ "-->").toList ++ rest, offset, ls, .text .markup⟩
      [.comment data ⟨offset, offset + byteLength ("<!--" ++ data ++ "-->").toList⟩]
      ⟨rest, offset + byteLength ("<!--" ++ data ++ "-->").toList, ls, .text .markup⟩ := by
  have htext : ("<!--" ++ data ++ "-->").toList ++ rest
      = '<' :: '!' :: '-' :: '-' :: (data.toList ++ '-' :: '-' :: '>' :: rest) := by
    simp only [String.toList_append, List.append_assoc]
    rfl
  have hbytes : offset + byteLength ("<!--" ++ data ++ "-->").toList = offset + 4 + byteLength data.toList + 3 := by
    simp only [String.toList_append, byteLength_append]
    have : byteLength "<!--".toList = 4 := rfl
    have : byteLength "-->".toList = 3 := rfl
    omega
  obtain ⟨s, hs, hpasses⟩ := @passes_commentText ls offset _ h
  have hinside := hpasses ('-' :: '-' :: '>' :: rest) (offset + 4)
  have hend := @reads_commentEnd ls _ _ _ hs rest (offset + 4 + byteLength data.toList)
  rw [String.ofList_toList] at hend
  have hopen : Reads ⟨'-' :: '-' :: (data.toList ++ '-' :: '-' :: '>' :: rest), offset + 2, ls,
      .markupDeclaration offset⟩ [.comment data ⟨offset, offset + 4 + byteLength data.toList + 3⟩] _ :=
    .silent rfl rfl (hinside.trans hend)
  rw [htext, hbytes]
  exact .silent rfl rfl (.silent rfl rfl hopen)

/-! ## Tags -/

/-- **The name of an end tag is read.** -/
theorem reads_endOpen {name rest : List Char} (hname : TagName name) (offset : Nat) :
    Reads ⟨'<' :: '/' :: (name ++ rest), offset, ls, .text .markup⟩ []
      ⟨rest, offset + 2 + byteLength name, ls,
        .tagName ⟨true, offset, String.ofList (name.map Char.toLower), []⟩⟩ := by
  obtain ⟨hc, hcs⟩ := hname
  rename_i c cs
  have hchars : ∀ d ∈ c :: cs, TagChar d := by
    intro d hd
    rcases List.mem_cons.1 hd with rfl | hd
    · exact tagChar_of_isAlpha hc
    · exact hcs d hd
  have hread := @passes_name ls (c :: cs) ⟨true, offset, "", []⟩ hchars rest (offset + 2)
  rw [String.empty_append] at hread
  have hstep : (⟨c :: cs ++ rest, offset + 2, ls, .endTagOpen offset⟩ : Lexer).step
      = stay ⟨c :: cs ++ rest, offset + 2, ls, .endTagOpen offset⟩ (.tagName ⟨true, offset, "", []⟩) := by
    simp only [step, List.cons_append, stepEndTagOpen, hc, if_true]
  have hopen : Reads ⟨c :: cs ++ rest, offset + 2, ls, .endTagOpen offset⟩ _ _ :=
    .silent (congrArg Step.next hstep) (congrArg Step.tokens hstep) hread
  exact .silent rfl rfl (.silent rfl rfl hopen)

/-- **An end tag is read back.** -/
theorem reads_endTag {name : String} (h : TagName name.toList) (rest : List Char) (offset : Nat) :
    Reads ⟨("</" ++ name ++ ">").toList ++ rest, offset, ls, .text .markup⟩
      [.endTag name.toLower ⟨offset, offset + byteLength ("</" ++ name ++ ">").toList⟩]
      ⟨rest, offset + byteLength ("</" ++ name ++ ">").toList, ls, .text .markup⟩ := by
  have htext : ("</" ++ name ++ ">").toList ++ rest = '<' :: '/' :: (name.toList ++ '>' :: rest) := by
    simp only [String.toList_append, List.append_assoc]
    rfl
  have hbytes : offset + byteLength ("</" ++ name ++ ">").toList = offset + 2 + byteLength name.toList + 1 := by
    simp only [String.toList_append, byteLength_append]
    have : byteLength "</".toList = 2 := rfl
    have : byteLength ">".toList = 1 := rfl
    omega
  rw [htext, hbytes, toLower_eq]
  exact (reads_endOpen h offset).trans (.one rfl rfl)

/-- The states of a tag whose attributes are all in quotes. -/
inductive Quoted (tag : TagDraft) : State → Prop
  | tagName : Quoted tag (.tagName tag)
  | afterQuotedValue : Quoted tag (.afterQuotedValue tag)

/-- A start tag that is read as it is written. -/
structure Legible (e : Element) : Prop where
  name : TagName e.name.toList
  attributes : ∀ a ∈ e.attributes, AttributeName a.name.toList ∧ '\x00' ∉ a.value.toList
  distinct : ((e.attributes.map lowered).map (·.name)).Nodup

/-- **A start tag is read back**, with its names in lower case. -/
theorem reads_writeStartTag {e : Element} (h : Legible e) (rest : List Char) (offset : Nat) :
    Reads ⟨(writeStartTag e).toList ++ rest, offset, ls, .text .markup⟩
      [.startTag e.name.toLower false (e.attributes.map lowered)
        ⟨offset, offset + byteLength (writeStartTag e).toList⟩]
      ⟨rest, offset + byteLength (writeStartTag e).toList, some e.name.toLower,
        .text (Content.ofElement e.name.toLower)⟩ := by
  have htext : (writeStartTag e).toList = '<' :: (e.name.toList
      ++ (e.attributes.flatMap fun a => (writeAttribute a).toList) ++ tagEnd false) := by
    rw [writeStartTag]
    simp only [String.toList_append, String.toList_join, List.flatMap_map]
    rfl
  have hready : ∀ tag s, Quoted tag s → Ready tag s := by
    intro tag s hs
    cases hs with
    | tagName => exact .tagName
    | afterQuotedValue => exact .afterQuotedValue
  rw [htext, toLower_eq]
  refine reads_startTag hready (fun _ => .tagName) h.name ?_ h.distinct false rest offset
  intro a ha tag s hs
  obtain ⟨hname, hvalue⟩ := h.attributes a ha
  refine ⟨_, .afterQuotedValue, passes_quoted (hready _ _ hs) hname ?_ ?_⟩
  · rintro rfl
    exact absurd hs nofun
  · rintro d hd rfl
    exact hvalue hd

end Lexer

end LiveMarkup.Html
