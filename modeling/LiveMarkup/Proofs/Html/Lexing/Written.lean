/-
Names, values and comments that can be written.

The names that the lexer reads are in lower case and hold no character that ends a name; values and
comments hold no null character; and no `>` in a comment ends it. This file says how such names, values
and comments grow character by character.
-/
import LiveMarkup.Proofs.Html.Lexing.Tag

set_option autoImplicit false

namespace LiveMarkup.Html

open Text

/-! ## Names, values and comments that can be written -/

/-- Text in lower case. -/
def Lower (cs : List Char) : Prop := ∀ c ∈ cs, c.toLower = c

/-- The name of a tag as the lexer reads it. -/
structure LowerTag (name : String) : Prop where
  chars : TagName name.toList
  lower : Lower name.toList

/-- An attribute as the lexer reads it. -/
structure LowerAttribute (a : Attribute) : Prop where
  chars : AttributeName a.name.toList
  lower : Lower a.name.toList
  value : '\x00' ∉ a.value.toList

/-- What a comment holds so far, when a `>` that follows does not end it. -/
structure Unended (cs : List Char) : Prop where
  empty : cs ≠ []
  dash : cs ≠ ['-']
  dashes : ¬ ['-', '-'] <:+ cs
  bang : ¬ ['-', '-', '!'] <:+ cs

/-- The text of a comment: no `>` in it ends the comment. -/
structure CommentText (cs : List Char) : Prop where
  unended : ∀ before after, cs = before ++ '>' :: after → Unended before
  null : '\x00' ∉ cs

/-- A token whose names, values and text can be written. -/
def Token.Valid : Token → Prop
  | .startTag name _ attributes _ =>
    LowerTag name ∧ (∀ a ∈ attributes, LowerAttribute a) ∧ (attributes.map (·.name)).Nodup
  | .comment data _ => CommentText data.toList
  | _ => True

/-! ## Characters -/

/-- A character that is not an upper case letter keeps its code point in lower case. -/
theorem tagChar_toLower {c : Char} (h : TagChar c) : TagChar c.toLower := by
  have hlower := toNat_toLower c
  by_cases hupper : 65 ≤ c.toNat ∧ c.toNat ≤ 90
  · rw [if_pos hupper] at hlower
    apply tagChar_of_isAlpha
    rw [isAlpha_iff]
    omega
  · rw [if_neg hupper, Char.toNat_inj] at hlower
    rw [hlower]
    exact h

theorem attributeChar_toLower {c : Char} (h : AttributeChar c) : AttributeChar c.toLower := by
  refine ⟨tagChar_toLower h.toTagChar, ?_⟩
  intro heq
  have hlower := toNat_toLower c
  rw [heq] at hlower
  by_cases hupper : 65 ≤ c.toNat ∧ c.toNat ≤ 90
  · rw [if_pos hupper] at hlower
    have : ('=' : Char).toNat = 61 := rfl
    omega
  · rw [if_neg hupper, Char.toNat_inj] at hlower
    exact h.equals hlower.symm

theorem tagChar_replaceNull {c : Char} (hspace : isAsciiSpace c = false) (hslash : c ≠ '/') (hclose : c ≠ '>') :
    TagChar (replaceNull c) := by
  by_cases hc : c = '\x00'
  · subst hc
    exact ⟨rfl, by decide, by decide, by decide⟩
  · rw [replaceNull_of_ne hc]
    exact ⟨hspace, hslash, hclose, hc⟩

theorem attributeChar_replaceNull {c : Char} (hspace : isAsciiSpace c = false) (hslash : c ≠ '/')
    (hclose : c ≠ '>') (hequals : c ≠ '=') : AttributeChar (replaceNull c) := by
  refine ⟨tagChar_replaceNull hspace hslash hclose, ?_⟩
  by_cases hc : c = '\x00'
  · subst hc
    decide
  · rw [replaceNull_of_ne hc]
    exact hequals

theorem replaceNull_ne (c : Char) : replaceNull c ≠ '\x00' := by
  by_cases hc : c = '\x00'
  · subst hc
    decide
  · rw [replaceNull_of_ne hc]
    exact hc

theorem lower_append {xs ys : List Char} (hx : Lower xs) (hy : Lower ys) : Lower (xs ++ ys) := by
  intro c hc
  rcases List.mem_append.1 hc with hc | hc
  · exact hx c hc
  · exact hy c hc

/-! ## Pieces of tags -/

theorem tagName_append {xs ys : List Char} (hx : TagName xs) (hy : ∀ c ∈ ys, TagChar c) : TagName (xs ++ ys) := by
  cases hx with
  | @mk c cs hc hcs =>
    refine .mk hc ?_
    intro d hd
    rcases List.mem_append.1 hd with hd | hd
    · exact hcs d hd
    · exact hy d hd

theorem attributeName_append {xs ys : List Char} (hx : AttributeName xs) (hy : ∀ c ∈ ys, AttributeChar c) :
    AttributeName (xs ++ ys) := by
  cases hx with
  | @mk c cs hc hcs =>
    refine .mk hc ?_
    intro d hd
    rcases List.mem_append.1 hd with hd | hd
    · exact hcs d hd
    · exact hy d hd

/-- The first character of the name of a tag. -/
theorem lowerTag_push_empty {c : Char} (hc : c.isAlpha = true) : LowerTag ("".push (replaceNull c).toLower) := by
  have hnull : c ≠ '\x00' := (tagChar_of_isAlpha hc).null
  have halpha : c.toLower.isAlpha = true := by
    have hlower := toNat_toLower c
    rw [isAlpha_iff] at hc ⊢
    split at hlower
    · omega
    · omega
  rw [replaceNull_of_ne hnull, Lexer.push_empty]
  refine ⟨?_, ?_⟩
  · rw [String.toList_ofList]
    exact .mk halpha fun d hd => absurd hd List.not_mem_nil
  · rw [String.toList_ofList]
    intro d hd
    rw [List.mem_singleton.1 hd]
    exact toLower_toLower c

/-- A further character of the name of a tag. -/
theorem lowerTag_push {name : String} {c : Char} (hname : LowerTag name) (hc : TagChar c) (hlower : c.toLower = c) :
    LowerTag (name.push c) := by
  refine ⟨?_, ?_⟩
  · rw [String.toList_push]
    refine tagName_append hname.chars ?_
    intro d hd
    rw [List.mem_singleton.1 hd]
    exact hc
  · rw [String.toList_push]
    refine lower_append hname.lower ?_
    intro d hd
    rw [List.mem_singleton.1 hd]
    exact hlower

/-- A tag that is being read, after its name. What an end tag holds is dropped. -/
def TagDraft.Valid (tag : TagDraft) : Prop :=
  tag.closing = false → LowerTag tag.name ∧ ∀ a ∈ tag.attributes, LowerAttribute a

section TagDraft

variable {tag : TagDraft} {c : Char}

theorem valid_closing (h : tag.closing = true) : tag.Valid := by
  intro hstart
  rw [h] at hstart
  exact absurd hstart nofun

/-- An attribute begins with the first character of its name. -/
theorem valid_begin (h : tag.Valid) (hc : TagChar c) (hlower : c.toLower = c) :
    (tag.beginAttribute.pushAttributeName c).Valid := by
  intro hstart
  obtain ⟨hname, hattributes⟩ := h hstart
  refine ⟨hname, ?_⟩
  intro a ha
  rcases List.mem_cons.1 ha with rfl | ha
  · refine ⟨?_, ?_, ?_⟩
    · change AttributeName ("".push c).toList
      rw [Lexer.push_empty, String.toList_ofList]
      exact .mk hc fun d hd => absurd hd List.not_mem_nil
    · change Lower ("".push c).toList
      rw [Lexer.push_empty, String.toList_ofList]
      intro d hd
      rw [List.mem_singleton.1 hd]
      exact hlower
    · exact List.not_mem_nil
  · exact hattributes a ha

theorem valid_pushName (h : tag.Valid) (hc : AttributeChar c) (hlower : c.toLower = c) :
    (tag.pushAttributeName c).Valid := by
  obtain ⟨closing, start, name, attributes⟩ := tag
  cases attributes with
  | nil => exact h
  | cons a rest =>
    intro hstart
    obtain ⟨hname, hattributes⟩ := h hstart
    refine ⟨hname, ?_⟩
    intro b hb
    rcases List.mem_cons.1 hb with rfl | hb
    · have ha := hattributes a List.mem_cons_self
      refine ⟨?_, ?_, ha.value⟩
      · change AttributeName (a.name.push c).toList
        rw [String.toList_push]
        refine attributeName_append ha.chars ?_
        intro d hd
        rw [List.mem_singleton.1 hd]
        exact hc
      · change Lower (a.name.push c).toList
        rw [String.toList_push]
        refine lower_append ha.lower ?_
        intro d hd
        rw [List.mem_singleton.1 hd]
        exact hlower
    · exact hattributes b (List.mem_cons_of_mem _ hb)

theorem valid_appendValue {text : String} (h : tag.Valid) (htext : '\x00' ∉ text.toList) :
    (tag.appendValue text).Valid := by
  obtain ⟨closing, start, name, attributes⟩ := tag
  cases attributes with
  | nil => exact h
  | cons a rest =>
    intro hstart
    obtain ⟨hname, hattributes⟩ := h hstart
    refine ⟨hname, ?_⟩
    intro b hb
    rcases List.mem_cons.1 hb with rfl | hb
    · have ha := hattributes a List.mem_cons_self
      refine ⟨ha.chars, ha.lower, ?_⟩
      change '\x00' ∉ (a.value ++ text).toList
      rw [String.toList_append, List.mem_append]
      rintro (hmem | hmem)
      · exact ha.value hmem
      · exact htext hmem
    · exact hattributes b (List.mem_cons_of_mem _ hb)

end TagDraft

theorem mem_dropRepeated {seen : List String} {attributes : List Attribute} {a : Attribute}
    (h : a ∈ dropRepeated seen attributes) : a ∈ attributes ∧ a.name ∉ seen := by
  induction attributes generalizing seen with
  | nil => exact absurd h List.not_mem_nil
  | cons b rest ih =>
    rw [dropRepeated] at h
    by_cases hb : b.name ∈ seen
    · rw [if_pos hb] at h
      obtain ⟨hmem, hseen⟩ := ih h
      exact ⟨List.mem_cons_of_mem _ hmem, hseen⟩
    · rw [if_neg hb] at h
      rcases List.mem_cons.1 h with rfl | h
      · exact ⟨List.mem_cons_self, hb⟩
      · obtain ⟨hmem, hseen⟩ := ih h
        exact ⟨List.mem_cons_of_mem _ hmem, fun hs => hseen (List.mem_cons_of_mem _ hs)⟩

/-- The attributes that are kept have different names. -/
theorem nodup_dropRepeated (seen : List String) (attributes : List Attribute) :
    ((dropRepeated seen attributes).map (·.name)).Nodup := by
  induction attributes generalizing seen with
  | nil => exact List.nodup_nil
  | cons b rest ih =>
    rw [dropRepeated]
    by_cases hb : b.name ∈ seen
    · rw [if_pos hb]
      exact ih seen
    · rw [if_neg hb, List.map_cons, List.nodup_cons]
      refine ⟨?_, ih _⟩
      intro hmem
      obtain ⟨a, ha, hname⟩ := List.mem_map.1 hmem
      obtain ⟨-, hseen⟩ := mem_dropRepeated ha
      rw [hname] at hseen
      exact hseen List.mem_cons_self

/-! ## Comments -/

theorem commentText_nil : CommentText [] := by
  refine ⟨?_, List.not_mem_nil⟩
  intro before after h
  exact absurd h.symm (List.append_ne_nil_of_right_ne_nil _ (List.cons_ne_nil _ _))

/-- A character that is not a mark can be in every comment. -/
theorem commentText_push {cs : List Char} {c : Char} (h : CommentText cs) (hc : c = '>' → Unended cs)
    (hnull : c ≠ '\x00') : CommentText (cs ++ [c]) := by
  refine ⟨?_, ?_⟩
  · intro before after heq
    rcases List.eq_nil_or_concat after with rfl | ⟨init, last, rfl⟩
    · obtain ⟨rfl, hlast⟩ := List.append_inj' heq rfl
      exact hc (List.cons.inj hlast).1
    · rw [List.concat_eq_append, ← List.cons_append, ← List.append_assoc] at heq
      obtain ⟨hinit, -⟩ := List.append_inj' heq rfl
      exact h.unended before init hinit
  · rw [List.mem_append, List.mem_singleton]
    rintro (hmem | rfl)
    · exact h.null hmem
    · exact hnull rfl

theorem commentText_dash {cs : List Char} (h : CommentText cs) : CommentText (cs ++ ['-']) :=
  commentText_push h (fun hc => absurd hc (by decide)) (by decide)

theorem commentText_dashes {cs : List Char} (h : CommentText cs) : CommentText (cs ++ ['-', '-']) := by
  have hdash := commentText_dash (commentText_dash h)
  rw [List.append_assoc] at hdash
  exact hdash

theorem commentText_bang {cs : List Char} (h : CommentText cs) : CommentText (cs ++ ['-', '-', '!']) := by
  have hbang := commentText_push (c := '!') (commentText_dashes h) (fun hc => absurd hc (by decide)) (by decide)
  rw [List.append_assoc] at hbang
  exact hbang

theorem suffix_concat (xs : List Char) {ys : List Char} {x y : Char} (h : xs ++ [x] <:+ ys ++ [y]) : xs <:+ ys ∧ x = y := by
  obtain ⟨before, heq⟩ := h
  rw [← List.append_assoc] at heq
  obtain ⟨hinit, hlast⟩ := List.append_inj' heq rfl
  exact ⟨⟨before, hinit⟩, (List.cons.inj hlast).1⟩

/-- After a character that is no hyphen a `>` ends the comment only when the text ends like an end mark. -/
theorem unended_push {cs : List Char} {c : Char} (hc : c ≠ '-') (hbang : c = '!' → ¬ ['-', '-'] <:+ cs) :
    Unended (cs ++ [c]) := by
  refine ⟨?_, ?_, ?_, ?_⟩
  · exact List.append_ne_nil_of_right_ne_nil _ (List.cons_ne_nil _ _)
  · intro heq
    obtain ⟨-, hlast⟩ := List.append_inj' (heq.trans (List.nil_append _).symm) rfl
    exact hc (List.cons.inj hlast).1
  · intro hsuffix
    exact hc (suffix_concat ['-'] hsuffix).2.symm
  · intro hsuffix
    obtain ⟨hdashes, hlast⟩ := suffix_concat ['-', '-'] hsuffix
    exact hbang hlast.symm hdashes

/-- What may follow in a comment after text that the machine is done with. -/
structure Follows (cs rest : List Char) : Prop where
  close : rest.head? = some '>' → Unended cs
  bang : rest.head? = some '!' → ¬ ['-', '-'] <:+ cs
  dash : rest.head? = some '-' → cs ≠ [] ∧ ¬ ['-'] <:+ cs

/-- Anything may follow after a character that is no hyphen. -/
theorem follows_push {cs : List Char} {c : Char} (hc : c ≠ '-') (hbang : c = '!' → ¬ ['-', '-'] <:+ cs)
    (rest : List Char) : Follows (cs ++ [c]) rest := by
  have hlast : ¬ ['-'] <:+ cs ++ [c] := fun h => hc (suffix_concat [] h).2.symm
  refine ⟨fun _ => unended_push hc hbang, fun _ hsuffix => ?_, fun _ => ⟨?_, hlast⟩⟩
  · exact hc (suffix_concat ['-'] hsuffix).2.symm
  · exact List.append_ne_nil_of_right_ne_nil _ (List.cons_ne_nil _ _)

end LiveMarkup.Html
