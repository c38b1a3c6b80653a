/-
The tokens that a walk gives away.

The walk meets the elements in document order, and what it gives to an element depends on the tokens that
stand in the markup and on those given away before. `Assigned` says which token each element gets: its own
when no element before it carries the same one, and else a new one, whose number is above those used before
and which nobody carries. Main facts: the walk gives tokens in this way (`assigned_claimAll`), they are
distinct (`nodup_claimAll`), and elements that carry distinct tokens keep them (`claimAll_of_written`).
-/
import LiveMarkup.Identity.Assign
import LiveMarkup.Proofs.Text.Chars
import Mathlib.Data.List.Nodup
import Mathlib.Data.List.Perm.Subperm

set_option autoImplicit false

namespace LiveMarkup.Identity

variable {s : Scheme}

/-! ## New tokens -/

/-- Different numbers make different tokens. -/
theorem mint_inj {m n : Nat} (h : s.mint m = s.mint n) : m = n :=
  Text.repr_inj ((String.append_right_inj s.stem).1 h)

/-- A new token has a number at least, so it is not empty. -/
theorem mint_ne_empty (n : Nat) : s.mint n ≠ "" := by
  intro h
  have hlast : toString n = "" := (String.append_eq_empty_iff.1 h).2
  exact Nat.repr_ne_empty hlast

/-- The search for a number goes up, and passes numbers only whose tokens are taken. -/
theorem nextNumber_passes (taken : List String) (tries n : Nat) :
    n < nextNumber s taken tries n ∧
      (∀ k, n < k → k < nextNumber s taken tries n → s.mint k ∈ taken) ∧
      (s.mint (nextNumber s taken tries n) ∈ taken → nextNumber s taken tries n = n + tries + 1) := by
  -- a try takes the next number, or finds its token taken
  induction tries generalizing n with
  | zero =>
    refine ⟨Nat.lt_succ_self n, ?_, fun _ => rfl⟩
    intro k hlo hhi
    rw [nextNumber] at hhi
    omega
  | succ tries ih =>
    rw [nextNumber]
    by_cases htaken : taken.contains (s.mint (n + 1)) = true
    · rw [if_pos htaken]
      obtain ⟨hlt, hpassed, hstop⟩ := ih (n + 1)
      refine ⟨by omega, ?_, ?_⟩
      · intro k hlo hhi
        by_cases hk : k = n + 1
        · rw [hk]
          exact List.contains_iff_mem.1 htaken
        · exact hpassed k (by omega) hhi
      · intro hmem
        have := hstop hmem
        omega
    · rw [if_neg htaken]
      refine ⟨Nat.lt_succ_self n, ?_, ?_⟩
      · intro k hlo hhi
        omega
      · intro hmem
        exact absurd (List.contains_iff_mem.2 hmem) htaken

/-- **A new token is not taken.** More numbers are looked at than tokens are taken, and different numbers
make different tokens. -/
theorem mint_nextNumber (taken : List String) (n : Nat) :
    s.mint (nextNumber s taken taken.length n) ∉ taken := by
  intro hmem
  obtain ⟨-, hpassed, hstop⟩ := nextNumber_passes (s := s) taken taken.length n
  have hnumber := hstop hmem
  -- all the tokens with the numbers up to the last one are taken, and they are too many
  let looked := (List.range (taken.length + 1)).map fun k => s.mint (n + 1 + k)
  have hnodup : looked.Nodup := by
    refine List.Nodup.map ?_ List.nodup_range
    intro i j hij
    have := mint_inj hij
    omega
  have hsubset : looked ⊆ taken := by
    intro token htoken
    obtain ⟨k, hk, rfl⟩ := List.mem_map.1 htoken
    have hlt := List.mem_range.1 hk
    by_cases hlast : k = taken.length
    · rw [hnumber] at hmem
      rw [hlast, show n + 1 + taken.length = n + taken.length + 1 by omega]
      exact hmem
    · exact hpassed _ (by omega) (by omega)
  have hlength := (hnodup.subperm hsubset).length_le
  rw [List.length_map, List.length_range] at hlength
  omega

/-! ## One element -/

/-- A token that an element carries is not empty. -/
theorem written?_ne_empty {e : Element} {value : String} (h : written? s e = some value) : value ≠ "" := by
  obtain ⟨-, hne⟩ := Option.filter_eq_some_iff.1 h
  rintro rfl
  exact absurd hne (by decide)

/-- What the next element gets: the token that it carries, when that is free, and else a new one. -/
theorem claim_cases (s : Scheme) (written : List String) (p : Progress) (e : Element) :
    (∃ value, written? s e = some value ∧ value ∉ p.claimed ∧
        claim s written p e = (value, { p with claimed := value :: p.claimed })) ∨
      (∀ value, written? s e = some value → value ∈ p.claimed) ∧
        ∃ n, p.counter < n ∧ s.mint n ∉ written ∧ s.mint n ∉ p.claimed ∧
          claim s written p e = (s.mint n, ⟨s.mint n :: p.claimed, n⟩) := by
  have hfilter : ∀ value, (written? s e).filter (fun value => !p.claimed.contains value) = some value ↔
      written? s e = some value ∧ value ∉ p.claimed := by
    intro value
    rw [Option.filter_eq_some_iff, Bool.not_eq_true', ← Bool.not_eq_true, List.contains_iff_mem]
  unfold claim
  cases hfree : (written? s e).filter fun value => !p.claimed.contains value with
  | some value =>
    obtain ⟨hvalue, hnot⟩ := (hfilter value).1 hfree
    exact .inl ⟨value, hvalue, hnot, rfl⟩
  | none =>
    refine .inr ⟨?_, _, (nextNumber_passes _ _ _).1, ?_, ?_, rfl⟩
    · intro value hvalue
      by_contra hnot
      exact absurd ((hfilter value).2 ⟨hvalue, hnot⟩) (by rw [hfree]; exact nofun)
    · exact fun h => mint_nextNumber _ _ (List.mem_append_left _ h)
    · exact fun h => mint_nextNumber _ _ (List.mem_append_right _ h)

/-- What an element gets depends on the token that it carries only. -/
theorem claim_like {e e' : Element} (h : written? s e' = written? s e) (written : List String) (p : Progress) :
    claim s written p e' = claim s written p e := by
  unfold claim
  rw [h]

/-! ## All elements -/

/-- The tokens of elements in document order. -/
def claimAll (s : Scheme) (written : List String) : Progress → List Element → List String × Progress
  | p, [] => ([], p)
  | p, e :: rest =>
    let here := claim s written p e
    let after := claimAll s written here.2 rest
    (here.1 :: after.1, after.2)

/-- What elements get depends on the tokens that they carry only. -/
theorem claimAll_congr {es es' : List Element} (h : es.map (written? s) = es'.map (written? s))
    (written : List String) (p : Progress) : claimAll s written p es = claimAll s written p es' := by
  induction es generalizing es' p with
  | nil => rw [List.map_eq_nil_iff.1 h.symm]
  | cons e rest ih =>
    obtain _ | ⟨e', rest'⟩ := es'
    · exact absurd h nofun
    · rw [List.map_cons, List.map_cons] at h
      obtain ⟨hhead, htail⟩ := List.cons.inj h
      rw [claimAll, claimAll, claim_like hhead.symm, ih htail]

theorem filterMap_written {es es' : List Element} (h : es.map (written? s) = es'.map (written? s)) :
    es.filterMap (written? s) = es'.filterMap (written? s) := by
  have hmap : ∀ xs : List Element, xs.filterMap (written? s) = (xs.map (written? s)).filterMap id :=
    fun xs => by rw [List.filterMap_map, Function.id_comp]
  rw [hmap, hmap, h]

theorem claimAll_append (s : Scheme) (written : List String) (p : Progress) (first second : List Element) :
    claimAll s written p (first ++ second) =
      ((claimAll s written p first).1 ++ (claimAll s written (claimAll s written p first).2 second).1,
        (claimAll s written (claimAll s written p first).2 second).2) := by
  induction first generalizing p with
  | nil => rfl
  | cons e rest ih => rw [List.cons_append, claimAll, claimAll, ih]; rfl

/-- Whether an element of a list carries a token. -/
def Carried (s : Scheme) (es : List Element) (token : String) : Prop := ∃ e ∈ es, written? s e = some token

/-- The tokens that elements get which come after `earlier` in the markup of `all`, where `last` is the
number of the last new token. -/
inductive Assigned (s : Scheme) (all : List Element) :
    (earlier : List Element) → (last : Nat) → List Element → List String → Prop
  | nil (earlier : List Element) (last : Nat) : Assigned s all earlier last [] []
  /-- An element keeps its own token, unless an element before it carries the same. -/
  | keep {earlier rest : List Element} {last : Nat} {e : Element} {token : String} {tokens : List String} :
      written? s e = some token → ¬ Carried s earlier token →
      Assigned s all (earlier ++ [e]) last rest tokens →
      Assigned s all earlier last (e :: rest) (token :: tokens)
  /-- Any other element gets a new token with the next number whose token is not carried in the markup. -/
  | new {earlier rest : List Element} {last n : Nat} {e : Element} {tokens : List String} :
      (∀ token, written? s e = some token → Carried s earlier token) → last < n →
      ¬ Carried s all (s.mint n) → Assigned s all (earlier ++ [e]) n rest tokens →
      Assigned s all earlier last (e :: rest) (s.mint n :: tokens)

/-- What is given away of the tokens of the markup are those that earlier elements carry. -/
def Claimed (s : Scheme) (all earlier : List Element) (p : Progress) : Prop :=
  ∀ token, Carried s all token → (token ∈ p.claimed ↔ Carried s earlier token)

theorem carried_append {xs ys : List Element} {token : String} :
    Carried s (xs ++ ys) token ↔ Carried s xs token ∨ Carried s ys token := by
  unfold Carried
  simp only [List.mem_append, or_and_right, exists_or]

theorem carried_singleton {e : Element} {token : String} :
    Carried s [e] token ↔ written? s e = some token := by
  unfold Carried
  simp only [List.mem_singleton, exists_eq_left]

theorem mem_written {all : List Element} {token : String} :
    token ∈ all.filterMap (written? s) ↔ Carried s all token := List.mem_filterMap

/-- **The walk gives every element its own token or a new one.** -/
theorem assigned_claimAll {all earlier : List Element} {p : Progress} {es : List Element}
    (hsub : ∀ e ∈ es, e ∈ all) (hp : Claimed s all earlier p) :
    Assigned s all earlier p.counter es (claimAll s (all.filterMap (written? s)) p es).1 := by
  -- by induction on the elements that are left; claimed are the tokens of those before
  induction es generalizing earlier p with
  | nil => exact .nil earlier p.counter
  | cons e rest ih =>
    have hrest : ∀ d ∈ rest, d ∈ all := fun d hd => hsub d (List.mem_cons_of_mem e hd)
    have hcarried : ∀ {token}, written? s e = some token → Carried s all token :=
      fun h => ⟨e, hsub e List.mem_cons_self, h⟩
    rcases claim_cases s (all.filterMap (written? s)) p e with
      ⟨token, htoken, hfree, heq⟩ | ⟨htaken, n, hlt, hwritten, -, heq⟩
    · have hnext : Claimed s all (earlier ++ [e]) { p with claimed := token :: p.claimed } := by
        intro other hother
        rw [List.mem_cons, hp other hother, carried_append, carried_singleton, htoken, Option.some_inj, or_comm,
          eq_comm]
      rw [claimAll, heq]
      refine .keep htoken ?_ (ih hrest hnext)
      exact fun h => hfree ((hp token (hcarried htoken)).2 h)
    · rw [mem_written] at hwritten
      have hnext : Claimed s all (earlier ++ [e]) ⟨s.mint n :: p.claimed, n⟩ := by
        intro other hother
        have hne : other ≠ s.mint n := fun h => hwritten (h ▸ hother)
        rw [List.mem_cons, or_iff_right hne, hp other hother, carried_append, carried_singleton]
        refine ⟨.inl, ?_⟩
        rintro (h | h)
        · exact h
        · exact (hp other hother).1 (htaken other h)
      rw [claimAll, heq]
      refine .new ?_ hlt hwritten (ih hrest hnext)
      intro token htoken
      exact (hp token (hcarried htoken)).1 (htaken token htoken)

/-- No token is given away twice. -/
theorem nodup_claimAll (s : Scheme) (written : List String) (p : Progress) (es : List Element) :
    (claimAll s written p es).1.Nodup ∧ ∀ token ∈ (claimAll s written p es).1, token ∉ p.claimed := by
  induction es generalizing p with
  | nil => exact ⟨List.nodup_nil, fun token h => absurd h List.not_mem_nil⟩
  | cons e rest ih =>
    have hclaim : (claim s written p e).1 ∉ p.claimed ∧
        (claim s written p e).2.claimed = (claim s written p e).1 :: p.claimed := by
      rcases claim_cases s written p e with ⟨token, -, hfree, heq⟩ | ⟨-, n, -, -, hfree, heq⟩ <;>
        · rw [heq]
          exact ⟨hfree, rfl⟩
    obtain ⟨hnodup, hfresh⟩ := ih (claim s written p e).2
    rw [hclaim.2] at hfresh
    rw [claimAll]
    refine ⟨List.nodup_cons.2 ⟨fun h => hfresh _ h List.mem_cons_self, hnodup⟩, ?_⟩
    intro token htoken
    rcases List.mem_cons.1 htoken with rfl | htoken
    · exact hclaim.1
    · exact fun h => hfresh token htoken (List.mem_cons_of_mem _ h)

theorem length_claimAll (s : Scheme) (written : List String) (p : Progress) (es : List Element) :
    (claimAll s written p es).1.length = es.length := by
  induction es generalizing p with
  | nil => rfl
  | cons e rest ih => rw [claimAll, List.length_cons, List.length_cons, ih]

/-- No token is empty. -/
theorem claimAll_ne_empty (s : Scheme) (written : List String) (p : Progress) (es : List Element) :
    "" ∉ (claimAll s written p es).1 := by
  induction es generalizing p with
  | nil => exact List.not_mem_nil
  | cons e rest ih =>
    rw [claimAll, List.mem_cons, not_or]
    refine ⟨?_, ih _⟩
    rcases claim_cases s written p e with ⟨token, htoken, -, heq⟩ | ⟨-, n, -, -, -, heq⟩
    · rw [heq]
      exact (written?_ne_empty htoken).symm
    · rw [heq]
      exact (mint_ne_empty n).symm

/-- **Elements that carry distinct tokens keep them.** -/
theorem claimAll_of_written {written : List String} {p : Progress} {es : List Element} {tokens : List String}
    (h : es.map (written? s) = tokens.map some) (hnodup : tokens.Nodup)
    (hfree : ∀ token ∈ tokens, token ∉ p.claimed) : (claimAll s written p es).1 = tokens := by
  induction es generalizing p tokens with
  | nil => exact (List.map_eq_nil_iff.1 h.symm).symm
  | cons e rest ih =>
    obtain _ | ⟨token, tokens⟩ := tokens
    · exact absurd h nofun
    · rw [List.map_cons, List.map_cons] at h
      obtain ⟨htoken, hrest⟩ := List.cons.inj h
      obtain ⟨hnot, hnodup⟩ := List.nodup_cons.1 hnodup
      rcases claim_cases s written p e with ⟨value, hvalue, -, heq⟩ | ⟨htaken, -⟩
      · obtain rfl : token = value := Option.some.inj (htoken.symm.trans hvalue)
        have hnext : ∀ other ∈ tokens, other ∉ token :: p.claimed := by
          intro other hother hmem
          rcases List.mem_cons.1 hmem with rfl | hmem
          · exact hnot hother
          · exact hfree other (List.mem_cons_of_mem _ hother) hmem
        rw [claimAll, heq, ih hrest hnodup hnext]
      · exact absurd (htaken token htoken) (hfree token List.mem_cons_self)

end LiveMarkup.Identity
