/-
The text before a block.

White space and comments before the text say nothing (`dropBlank_append`). What is left names a style rule by its
selector list (`StyleText`), or a media rule by its condition (`MediaText`); every other block has no name. Both are
said of the text alone, and a block is one of a style rule, or of a media rule, exactly when its text is such a text
(`ofPrelude_of_styleText` and `exists_styleText`, `ofPrelude_of_mediaText` and `exists_mediaText`).
-/
import LiveMarkup.Css.RuleIndex
import LiveMarkup.Proofs.Text.Chars

set_option autoImplicit false

namespace LiveMarkup.Css

open Text

/-! ## White space and comments -/

/-- ASCII white space and closed comments. -/
inductive Skipped : List Char → Prop
  | nil : Skipped []
  | space (c : Char) (cs : List Char) : isAsciiSpace c = true → Skipped cs → Skipped (c :: cs)
  | comment (body cs : List Char) : ¬ ['*', '/'] <:+: body → Skipped cs →
      Skipped ('/' :: '*' :: (body ++ '*' :: '/' :: cs))

/-- A text that begins neither with ASCII white space nor with a comment. -/
structure Starts (text : List Char) : Prop where
  space : ∀ c, text.head? = some c → isAsciiSpace c = false
  comment : ¬ ['/', '*'] <+: text

variable {text lead rest : List Char}

theorem dropBlank_of_starts (h : Starts text) : dropBlank false text = text := by
  unfold dropBlank
  split
  · contradiction
  · contradiction
  · exact absurd ⟨_, rfl⟩ h.comment
  · rw [if_neg (by rw [h.space _ rfl]; decide)]
  · rfl

/-- A comment is left where its text first ends. -/
theorem dropBlank_comment {body : List Char} (h : ¬ ['*', '/'] <:+: body) (cs : List Char) :
    dropBlank true (body ++ '*' :: '/' :: cs) = dropBlank false cs := by
  induction body with
  | nil => rw [List.nil_append, dropBlank]
  | cons c body ih =>
    have hbody : ¬ ['*', '/'] <:+: body := fun hin => h (hin.trans (List.infix_cons (List.infix_refl _)))
    rw [List.cons_append, dropBlank, ih hbody]
    intro tail hstar htail
    subst hstar
    cases body with
    | nil => exact absurd (List.cons.inj htail).1 (by decide)
    | cons d body =>
      obtain ⟨rfl, -⟩ := List.cons.inj htail
      exact h ⟨[], body, rfl⟩

theorem dropBlank_append (h : Skipped lead) (cs : List Char) : dropBlank false (lead ++ cs) = dropBlank false cs := by
  induction h with
  | nil => rfl
  | space c lead hc _ ih =>
    rw [List.cons_append, dropBlank, if_pos hc, ih]
    rintro tail heq -
    subst heq
    exact absurd hc (by decide)
  | comment body lead hbody _ ih =>
    rw [List.cons_append, List.cons_append, List.append_assoc, List.cons_append, List.cons_append, dropBlank,
      dropBlank_comment hbody, ih]

theorem starts_dropBlank (b : Bool) (text : List Char) : Starts (dropBlank b text) := by
  fun_induction dropBlank b text with
  | case1 cs ih => exact ih
  | case2 c cs _ ih => exact ih
  | case3 cs ih => exact ih
  | case4 c cs _ _ ih => exact ih
  | case5 c cs hcomment hspace =>
    refine ⟨fun d hd => ?_, ?_⟩
    · obtain rfl := Option.some.inj hd
      exact Bool.eq_false_iff.2 hspace
    · rintro ⟨tail, htail⟩
      obtain ⟨rfl, rfl⟩ := List.cons.inj htail
      exact hcomment tail rfl rfl
  | case6 => exact ⟨by simp, by simp⟩

/-- What is dropped is white space and comments; a comment that is open leaves nothing. -/
theorem exists_dropBlank (b : Bool) (text : List Char) (h : dropBlank b text ≠ []) :
    ∃ lead, text = lead ++ dropBlank b text ∧
      if b then ∃ body tail, lead = body ++ '*' :: '/' :: tail ∧ ¬ ['*', '/'] <:+: body ∧ Skipped tail
      else Skipped lead := by
  fun_induction dropBlank b text with
  | case1 cs ih =>
    obtain ⟨lead, hcs, hlead⟩ := ih h
    exact ⟨'*' :: '/' :: lead, by rw [List.cons_append, List.cons_append, ← hcs], [], lead, rfl, by simp, hlead⟩
  | case2 c cs hclose ih =>
    obtain ⟨lead, hcs, body, tail, rfl, hbody, htail⟩ := ih h
    refine ⟨c :: (body ++ '*' :: '/' :: tail), by rw [List.cons_append, ← hcs], c :: body, tail, rfl, ?_, htail⟩
    rw [List.infix_cons_iff]
    rintro (⟨more, hmore⟩ | hin)
    · obtain ⟨hstar, hslash⟩ := List.cons.inj hmore
      rw [← hslash] at hcs
      exact hclose _ hstar.symm hcs
    · exact hbody hin
  | case3 cs ih =>
    obtain ⟨lead, hcs, body, tail, rfl, hbody, htail⟩ := ih h
    exact ⟨'/' :: '*' :: (body ++ '*' :: '/' :: tail), by rw [List.cons_append, List.cons_append, ← hcs],
      .comment body tail hbody htail⟩
  | case4 c cs _ hspace ih =>
    obtain ⟨lead, hcs, hlead⟩ := ih h
    exact ⟨c :: lead, by rw [List.cons_append, ← hcs], .space c lead hspace hlead⟩
  | case5 c cs _ _ => exact ⟨[], rfl, .nil⟩
  | case6 => exact absurd rfl h

/-! ## Names of blocks -/

/-- A text before a block is a selector list between what is skipped and white space. -/
structure StyleText (text lead selector blanks : List Char) : Prop where
  whole : text = lead ++ (selector ++ blanks)
  skipped : Skipped lead
  nonempty : selector ≠ []
  starts : Starts selector
  at_sign : selector.head? ≠ some '@'
  flush : FlushEnd selector
  blank : Blank blanks

/-- A text before a block is an at sign, the word `media` in any case, and a condition. -/
structure MediaText (text lead name rest : List Char) : Prop where
  whole : text = lead ++ '@' :: (name ++ rest)
  skipped : Skipped lead
  name : name.map Char.toLower = ['m', 'e', 'd', 'i', 'a']
  ends : ∀ c, rest.head? = some c → isWordPart c = false ∧ c ≠ '-'

theorem starts_append {xs ys : List Char} (h : Starts xs) (hne : xs ≠ []) (hys : Blank ys) : Starts (xs ++ ys) := by
  cases xs with
  | nil => exact absurd rfl hne
  | cons x xs =>
    refine ⟨h.space, ?_⟩
    rintro ⟨tail, htail⟩
    obtain ⟨hslash, hstar⟩ := List.cons.inj htail
    cases xs with
    | nil =>
      cases ys with
      | nil => exact absurd hstar nofun
      | cons y ys =>
        have hblank := hys y List.mem_cons_self
        rw [← (List.cons.inj hstar).1] at hblank
        exact absurd hblank (by decide)
    | cons y xs =>
      have hy := (List.cons.inj hstar).1
      rw [← hslash, ← hy] at h
      exact h.comment ⟨xs, rfl⟩

theorem starts_of_append {xs ys : List Char} (h : Starts (xs ++ ys)) : Starts xs := by
  refine ⟨fun c hc => h.space c ?_, fun hin => h.comment (hin.trans (List.prefix_append xs ys))⟩
  rw [List.head?_append, hc, Option.some_or]

/-- The letters of the word `media`. -/
theorem letter_of_media {name : List Char} (h : name.map Char.toLower = ['m', 'e', 'd', 'i', 'a'])
    {c : Char} (hc : c ∈ name) :
    c.isAlpha = true := by
  have hmem : c.toLower ∈ ['m', 'e', 'd', 'i', 'a'] := h ▸ List.mem_map_of_mem hc
  have hletters : ∀ d ∈ ['m', 'e', 'd', 'i', 'a'], 97 ≤ d.toNat ∧ d.toNat ≤ 122 := by simp
  have hbounds := hletters _ hmem
  have hlower := toNat_toLower c
  rw [isAlpha_iff]
  split at hlower <;> omega

theorem not_blank_of_isAlpha {c : Char} (h : c.isAlpha = true) : isBlank c = false := by
  rw [isAlpha_iff] at h
  rw [Bool.eq_false_iff]
  intro hblank
  obtain ⟨⟨low, high⟩, hin, hbounds⟩ := List.any_eq_true.1 hblank
  simp only [Bool.and_eq_true, decide_eq_true_eq] at hbounds
  have hranges : ∀ r ∈ blankRanges, r.2 < 65 ∨ 122 < r.1 := by decide
  have hrange := hranges _ hin
  simp only at hrange
  omega

theorem wordPart_of_isAlpha {c : Char} (h : c.isAlpha = true) : isWordPart c = true := by
  simp [isWordPart, (isAlphanum_iff c).2 (.inl h)]

/-- White space ends a word. -/
theorem wordEnd_of_isBlank {c : Char} (h : isBlank c = true) : isWordPart c = false ∧ c ≠ '-' := by
  refine ⟨Bool.eq_false_iff.2 fun hword => ?_, ?_⟩
  · obtain ⟨⟨low, high⟩, hin, hbounds⟩ := List.any_eq_true.1 h
    have hranges : ∀ r ∈ blankRanges, r.2 < 48 ∨ 122 < r.1 := by decide
    have hrange := hranges _ hin
    simp only [Bool.and_eq_true, decide_eq_true_eq] at hbounds hrange
    simp only [isWordPart, Bool.or_eq_true, isAlphanum_iff, isAlpha_iff, beq_iff_eq, ← Char.toNat_inj] at hword
    have hunder : '_'.toNat = 95 := rfl
    omega
  · rintro rfl
    exact absurd h (by decide)

theorem eqIgnoreCase_ofList {name : List Char} :
    eqIgnoreCase (String.ofList name) "media" = true ↔ name.map Char.toLower = ['m', 'e', 'd', 'i', 'a'] := by
  have hlower : (String.ofList name).toLower.toList = (String.ofList name).toList.map Char.toLower := String.toList_map
  have hmedia : "media".toLower.toList = "media".toList.map Char.toLower := String.toList_map
  have hletters : "media".toList.map Char.toLower = ['m', 'e', 'd', 'i', 'a'] := by decide
  rw [eqIgnoreCase, beq_iff_eq, ← String.toList_inj, hlower, hmedia, hletters, String.toList_ofList]

theorem head?_trimEnd {cs : List Char} {c : Char} (h : (trimEnd cs).head? = some c) : cs.head? = some c := by
  obtain ⟨blanks, -, hcs, -⟩ := exists_trimEnd cs
  rw [hcs, List.head?_append, h, Option.some_or]

theorem mediaCondition?_eq {name rest : List Char} (hname : name.map Char.toLower = ['m', 'e', 'd', 'i', 'a'])
    (hends : ∀ c, rest.head? = some c → isWordPart c = false ∧ c ≠ '-') :
    mediaCondition? (name ++ rest) = some (String.ofList (trim rest)) := by
  have htake : (name ++ rest).takeWhile (fun c => isWordPart c || c == '-') = name := by
    rw [List.takeWhile_append_of_pos fun c hc => by simp [wordPart_of_isAlpha (letter_of_media hname hc)]]
    cases rest with
    | nil => simp
    | cons c rest => simp [hends c rfl]
  have hhead : (name ++ rest).head?.any isWordPart = true := by
    cases name with
    | nil => exact absurd hname (by decide)
    | cons c name => exact wordPart_of_isAlpha (letter_of_media hname List.mem_cons_self)
  simp only [mediaCondition?, htake, hhead, eqIgnoreCase_ofList.2 hname, Bool.and_self, if_true, List.drop_left]

theorem of_mediaCondition? {cs : List Char} {condition : String} (h : mediaCondition? cs = some condition) :
    ∃ name rest, cs = name ++ rest ∧ name.map Char.toLower = ['m', 'e', 'd', 'i', 'a'] ∧
      (∀ c, rest.head? = some c → isWordPart c = false ∧ c ≠ '-') ∧ condition = String.ofList (trim rest) := by
  unfold mediaCondition? at h
  simp only [Option.ite_none_right_eq_some, Bool.and_eq_true, eqIgnoreCase_ofList, Option.some.injEq] at h
  obtain ⟨⟨-, hname⟩, rfl⟩ := h
  have hcs := List.takeWhile_append_dropWhile (p := fun c => isWordPart c || c == '-') (l := cs)
  refine ⟨_, cs.dropWhile fun c => isWordPart c || c == '-', hcs.symm, hname, fun c hc => ?_, ?_⟩
  · have hnot := List.head?_dropWhile_not (fun c => isWordPart c || c == '-') cs
    rw [hc] at hnot
    simpa using hnot
  · have hdrop : cs.drop (cs.takeWhile fun c => isWordPart c || c == '-').length = _ :=
      (congrArg (List.drop _) hcs.symm).trans List.drop_left
    rw [hdrop]

/-! ## What a block is -/

variable {start : Nat} {conditions : List String} {selector blanks name : List Char} {condition : String}

/-- The three ways to read the text before a block, when what is skipped is gone. -/
theorem ofPrelude_def (start : Nat) (conditions : List String) (text : List Char) :
    Block.ofPrelude start conditions text =
      if trimEnd (dropBlank false text) = [] then .other
      else if (trimEnd (dropBlank false text)).head? = some '@' then
        match mediaCondition? (trimEnd (dropBlank false text)).tail with
        | some condition => .media condition
        | none => .other
      else .rule (String.ofList (trimEnd (dropBlank false text)))
        (start + (byteLength text - byteLength (dropBlank false text))) conditions := by
  unfold Block.ofPrelude
  simp only
  generalize trimEnd (dropBlank false text) = named
  cases named with
  | nil => rfl
  | cons c named =>
    by_cases hat : c = '@'
    · subst hat
      rw [if_neg (by simp), if_pos (by simp), List.tail_cons]
      rfl
    · rw [if_neg (by simp), if_neg (by simpa using hat)]
      split
      · contradiction
      · rename_i heq
        exact absurd (List.cons.inj heq).1 hat
      · rfl

theorem starts_media (name : List Char) : Starts ('@' :: name) := by
  refine ⟨fun c hc => ?_, ?_⟩
  · obtain rfl := Option.some.inj hc
    decide
  · rintro ⟨tail, htail⟩
    exact absurd (List.cons.inj htail).1 (by decide)

/-- **A selector list names a style rule.** -/
theorem ofPrelude_of_styleText (h : StyleText text lead selector blanks) :
    Block.ofPrelude start conditions text = .rule (String.ofList selector) (start + byteLength lead) conditions := by
  have hdrop : dropBlank false text = selector ++ blanks := by
    rw [h.whole, dropBlank_append h.skipped, dropBlank_of_starts (starts_append h.starts h.nonempty h.blank)]
  have htrim : trimEnd (dropBlank false text) = selector := by
    rw [hdrop, trimEnd_append h.blank, trimEnd_eq h.flush]
  have hlead : byteLength text - byteLength (dropBlank false text) = byteLength lead := by
    rw [hdrop, h.whole, byteLength_append]
    omega
  rw [ofPrelude_def, htrim, if_neg h.nonempty, if_neg h.at_sign, hlead]

/-- **The word `media` names a media rule.** -/
theorem ofPrelude_of_mediaText (h : MediaText text lead name rest) :
    Block.ofPrelude start conditions text = .media (String.ofList (trim rest)) := by
  have hdrop : dropBlank false text = ('@' :: name) ++ rest := by
    rw [h.whole, dropBlank_append h.skipped, dropBlank_of_starts (starts_media _), List.cons_append]
  have hflush : FlushEnd ('@' :: name) := by
    intro c hc
    rcases List.mem_cons.1 (List.mem_of_getLast? hc) with rfl | hmem
    · decide
    · exact not_blank_of_isAlpha (letter_of_media h.name hmem)
  have htrim : trimEnd (dropBlank false text) = '@' :: (name ++ trimEnd rest) := by
    rw [hdrop, trimEnd_append_of_flushEnd hflush, List.cons_append]
  rw [ofPrelude_def, htrim, if_neg (by simp), if_pos (by simp), List.tail_cons,
    mediaCondition?_eq h.name fun c hc => h.ends c (head?_trimEnd hc), trim_trimEnd]

/-- **A style rule is named by a selector list.** -/
theorem exists_styleText {selector : String} {offset : Nat} {outer : List String}
    (h : Block.ofPrelude start conditions text = .rule selector offset outer) :
    ∃ lead blanks, StyleText text lead selector.toList blanks := by
  rw [ofPrelude_def] at h
  split at h
  · exact absurd h nofun
  · rename_i hne
    split at h
    · split at h <;> exact absurd h nofun
    · rename_i hat
      obtain ⟨blanks, hblanks, hrest, hflush⟩ := exists_trimEnd (dropBlank false text)
      have hdrop : dropBlank false text ≠ [] := fun hnil => hne (by rw [hnil]; rfl)
      obtain ⟨lead, htext, hlead⟩ := exists_dropBlank false text hdrop
      obtain ⟨rfl, -, -⟩ := Block.rule.inj h
      rw [String.toList_ofList]
      exact ⟨lead, blanks, ⟨by rw [← hrest, ← htext], hlead, hne,
        starts_of_append (hrest ▸ starts_dropBlank false text),
        hat, hflush, hblanks⟩⟩

/-- **A media rule is named by the word `media`**, and its condition is trimmed. -/
theorem exists_mediaText (h : Block.ofPrelude start conditions text = .media condition) :
    ∃ lead name rest, MediaText text lead name rest ∧ condition = String.ofList (trim rest) := by
  rw [ofPrelude_def] at h
  split at h
  · exact absurd h nofun
  · rename_i hne
    split at h
    · rename_i hat
      split at h
      · rename_i condition' hcondition
        obtain rfl := Block.media.inj h
        obtain ⟨blanks, hblanks, hrest, -⟩ := exists_trimEnd (dropBlank false text)
        have hdrop : dropBlank false text ≠ [] := fun hnil => hne (by rw [hnil]; rfl)
        obtain ⟨lead, htext, hlead⟩ := exists_dropBlank false text hdrop
        obtain ⟨tail, htail⟩ := List.head?_eq_some_iff.1 hat
        rw [htail, List.tail_cons] at hcondition
        obtain ⟨name, rest, rfl, hname, hends, rfl⟩ := of_mediaCondition? hcondition
        refine ⟨lead, name, rest ++ blanks, ⟨?_, hlead, hname, fun c hc => ?_⟩, ?_⟩
        · rw [htext, hrest, htail]
          simp
        · cases rest with
          | nil =>
            rw [List.nil_append] at hc
            exact wordEnd_of_isBlank (hblanks c (List.mem_of_head? hc))
          | cons d rest => exact hends c hc
        · have hcut : trim (rest ++ blanks) = trim (trimEnd (rest ++ blanks)) := (trim_trimEnd _).symm
          rw [hcut, trimEnd_append hblanks, trim_trimEnd]
      · exact absurd h nofun
    · exact absurd h nofun

end LiveMarkup.Css
