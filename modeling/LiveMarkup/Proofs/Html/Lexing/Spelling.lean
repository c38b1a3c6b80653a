/-
Names as languages spell them.

The lexer reads names in lower case, and a language spells some of them with capitals. Spelling changes the
case of a name only (`lower_spellName`), so a name that was spelled is read as it was before
(`lowered_spellAttribute`).
-/
import LiveMarkup.Html.Foreign
import LiveMarkup.Identity.Scheme
import LiveMarkup.Proofs.Html.Lexing.Written

set_option autoImplicit false

namespace LiveMarkup.Html

open Text

/-! ## Names and case -/

theorem toList_toLower (text : String) : text.toLower.toList = text.toList.map Char.toLower := String.toList_map

theorem toLower_eq (text : String) : text.toLower = String.ofList (text.toList.map Char.toLower) := by
  apply String.ext
  rw [toList_toLower, String.toList_ofList]

theorem toLower_idem (text : String) : text.toLower.toLower = text.toLower := by
  apply String.ext
  rw [toList_toLower, toList_toLower, List.map_map]
  congr 1
  funext c
  exact toLower_toLower c

theorem toLower_of_lower {text : String} (h : Lower text.toList) : text.toLower = text := by
  apply String.ext
  rw [toList_toLower]
  exact (List.map_congr_left h).trans (List.map_id _)

theorem eqIgnoreCase_iff {s t : String} : eqIgnoreCase s t = true ↔ s.toLower = t.toLower := beq_iff_eq

/-- A character whose lower case is no letter is that character. -/
theorem eq_of_toLower {c d : Char} (h : c.toLower = d) (hd : d.toNat < 97 ∨ 122 < d.toNat) : c = d := by
  have hlower := toNat_toLower c
  rw [h] at hlower
  rw [← Char.toNat_inj]
  split at hlower
  · omega
  · exact hlower.symm

theorem tagChar_of_toLower {c : Char} (h : TagChar c.toLower) : TagChar c := by
  refine ⟨?_, ?_, ?_, ?_⟩
  · rw [Bool.eq_false_iff]
    intro hspace
    have hc := (isAsciiSpace_iff c).1 hspace
    have hlower := toNat_toLower c
    rw [if_neg (by omega), Char.toNat_inj] at hlower
    have := h.space
    rw [hlower, hspace] at this
    exact Bool.noConfusion this
  · rintro rfl
    exact h.slash rfl
  · rintro rfl
    exact h.close rfl
  · rintro rfl
    exact h.null rfl

theorem isAlpha_of_toLower {c : Char} (h : c.toLower.isAlpha = true) : c.isAlpha = true := by
  have hlower := toNat_toLower c
  rw [isAlpha_iff] at h ⊢
  split at hlower
  · omega
  · rw [hlower] at h
    exact h

theorem tagName_of_lower {cs : List Char} (h : TagName (cs.map Char.toLower)) : TagName cs := by
  cases cs with
  | nil => cases h
  | cons c cs =>
    cases h with
    | mk hc hcs =>
      refine .mk (isAlpha_of_toLower hc) ?_
      intro d hd
      exact tagChar_of_toLower (hcs _ (List.mem_map_of_mem hd))

theorem attributeName_of_lower {cs : List Char} (h : AttributeName (cs.map Char.toLower)) : AttributeName cs := by
  cases cs with
  | nil => cases h
  | cons c cs =>
    cases h with
    | mk hc hcs =>
      refine .mk (tagChar_of_toLower hc) ?_
      intro d hd
      have hd := hcs _ (List.mem_map_of_mem hd)
      refine ⟨tagChar_of_toLower hd.toTagChar, ?_⟩
      rintro rfl
      exact hd.equals rfl

/-- A word of lower case letters is the name of a tag. -/
theorem lowerTag_of_letters {name : String} (hne : name.toList ≠ [])
    (h : ∀ c ∈ name.toList, c.isAlpha = true ∧ c.toLower = c) : LowerTag name := by
  obtain ⟨c, cs, hname⟩ := List.exists_cons_of_ne_nil hne
  have hlower : Lower name.toList := fun d hd => (h d hd).2
  rw [hname] at h
  refine ⟨?_, hlower⟩
  rw [hname]
  exact .mk (h c List.mem_cons_self).1 fun d hd => tagChar_of_isAlpha (h d (List.mem_cons_of_mem c hd)).1

/-- Names that are equal up to case begin with an equals sign together. -/
theorem head?_ne_of_toLower {s t : String} (h : s.toLower = t.toLower) (ht : t.toList.head? ≠ some '=') :
    s.toList.head? ≠ some '=' := by
  intro hs
  have hlower : s.toList.head?.map Char.toLower = t.toList.head?.map Char.toLower := by
    rw [← List.head?_map, ← List.head?_map, ← toList_toLower, ← toList_toLower, h]
  rw [hs] at hlower
  obtain ⟨c, hc, heq⟩ := Option.map_eq_some_iff.1 hlower.symm
  rw [eq_of_toLower heq (.inl (by decide))] at hc
  exact ht hc

/-! ## Spelling -/

theorem lower_svgNames : ∀ x ∈ svgNames, x.2.toLower = x.1 := by decide +kernel

theorem lower_svgAttributeNames : ∀ x ∈ svgAttributeNames, x.2.toLower = x.1 := by decide +kernel

theorem lower_mathmlAttributeNames : ∀ x ∈ mathmlAttributeNames, x.2.toLower = x.1 := by decide +kernel

theorem mem_of_lookup {table : List (String × String)} {name spelled : String}
    (h : table.lookup name = some spelled) : (name, spelled) ∈ table := by
  induction table with
  | nil => exact absurd h.symm (Option.some_ne_none _)
  | cons x table ih =>
    rw [List.lookup_cons] at h
    split at h
    · rename_i heq
      obtain rfl := Option.some.inj h
      rw [eq_of_beq heq]
      exact List.mem_cons_self
    · exact List.mem_cons_of_mem _ (ih h)

/-- **A table changes the case of a name only.** -/
theorem lower_spelling {table : List (String × String)} (h : ∀ x ∈ table, x.2.toLower = x.1) (name : String) :
    (spelling table name).toLower = name.toLower := by
  unfold spelling
  cases hname : table.lookup name with
  | none => rfl
  | some spelled =>
    have hspelled : spelled.toLower = name := h _ (mem_of_lookup hname)
    rw [Option.getD_some, ← hspelled, toLower_idem]

theorem lower_spellName (space : Namespace) (name : String) : (spellName space name).toLower = name.toLower := by
  cases space with
  | svg => exact lower_spelling lower_svgNames name
  | html => rfl
  | mathml => rfl

/-- An attribute as a language spells it. -/
def spellAttribute (space : Namespace) (a : Attribute) : Attribute :=
  match space with
  | .svg => { a with name := spelling svgAttributeNames a.name }
  | .mathml => { a with name := spelling mathmlAttributeNames a.name }
  | .html => a

theorem spellAttributes_eq (space : Namespace) (attributes : List Attribute) :
    spellAttributes space attributes = attributes.map (spellAttribute space) := by
  cases space with
  | svg => rfl
  | mathml => rfl
  | html => exact (List.map_id attributes).symm

theorem lower_spellAttribute (space : Namespace) (a : Attribute) :
    (spellAttribute space a).name.toLower = a.name.toLower := by
  cases space with
  | svg => exact lower_spelling lower_svgAttributeNames a.name
  | mathml => exact lower_spelling lower_mathmlAttributeNames a.name
  | html => rfl

theorem value_spellAttribute (space : Namespace) (a : Attribute) : (spellAttribute space a).value = a.value := by
  cases space <;> rfl

/-- An attribute that the lexer read is the same when its spelling is written and read again. -/
theorem lowered_spellAttribute (space : Namespace) {a : Attribute} (h : LowerAttribute a) :
    Lexer.lowered (spellAttribute space a) = a := by
  rw [Lexer.lowered, lower_spellAttribute, value_spellAttribute, toLower_of_lower h.lower]

/-! ## Attributes that can be written -/

/-- An attribute that can be written after any other one. -/
structure Writable (a : Attribute) : Prop where
  name : AttributeName a.name.toList
  equals : a.name.toList.head? ≠ some '='
  value : '\x00' ∉ a.value.toList

theorem attributeChar_of_free {c : Char}
    (h : (!isControl c && !isBlank c && !("\"'>/=<".toList.contains c)) = true) : AttributeChar c := by
  rw [Bool.and_eq_true, Bool.and_eq_true, Bool.not_eq_true', Bool.not_eq_true', Bool.not_eq_true'] at h
  obtain ⟨⟨hcontrol, hblank⟩, hfree⟩ := h
  refine ⟨⟨?_, ?_, ?_, ?_⟩, ?_⟩
  · rw [Bool.eq_false_iff]
    intro hspace
    rcases (isAsciiSpace_iff c).1 hspace with hc | hc
    · rw [show c = ' ' from (Char.toNat_inj).1 hc] at hblank
      exact absurd hblank (by decide)
    · rw [isControl, Bool.or_eq_false_iff, decide_eq_false_iff_not] at hcontrol
      omega
  all_goals
    rintro rfl
    first
    | exact absurd hfree (by decide)
    | exact absurd hcontrol (by decide)

/-- **An attribute with a valid name and a value without null characters can be written.** -/
theorem writable_of_isAttributeName {a : Attribute} (hname : isAttributeName a.name = true)
    (hvalue : '\x00' ∉ a.value.toList) : Writable a := by
  rw [isAttributeName, Bool.and_eq_true, List.all_eq_true] at hname
  obtain ⟨hempty, hchars⟩ := hname
  cases hcs : a.name.toList with
  | nil =>
    rw [String.toList_eq_nil_iff.1 hcs] at hempty
    exact absurd hempty (by decide)
  | cons c cs =>
    rw [hcs] at hchars
    have hfirst := attributeChar_of_free (hchars c List.mem_cons_self)
    refine ⟨?_, ?_, hvalue⟩
    · rw [hcs]
      exact .mk hfirst.toTagChar fun d hd => attributeChar_of_free (hchars d (List.mem_cons_of_mem _ hd))
    · rw [hcs]
      exact fun heq => hfirst.equals (Option.some.inj heq)

end LiveMarkup.Html
