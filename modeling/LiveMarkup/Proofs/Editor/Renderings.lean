/-
Every shortcode is asked for once.

What was asked for is known afterwards, also when nobody answered. So markup whose shortcodes were rendered is rendered
again in the same way, whoever renders shortcodes then, and nothing is asked for again. Main result:
`expandShortcodes_again`.
-/
import LiveMarkup.Editor.Expansion
import Mathlib.Data.List.Nodup

set_option autoImplicit false

namespace LiveMarkup.Editor

open Source

/-- In a table whose keys differ every entry is found. -/
theorem lookup_map_of_mem {α κ β : Type} [DecidableEq κ] {key : α → κ} {value : α → β} {entries : List α} {a : α}
    (hnodup : (entries.map key).Nodup) (ha : a ∈ entries) :
    (entries.map fun a => (key a, value a)).lookup (key a) = some (value a) := by
  obtain ⟨before, after, rfl⟩ := List.append_of_mem ha
  rw [List.map_append, List.map_cons, List.nodup_middle, List.nodup_cons, List.mem_append, not_or] at hnodup
  -- no earlier entry has the same key
  refine List.lookup_eq_some_iff.2 ⟨_, _, List.map_append, fun x hx => ?_⟩
  obtain ⟨b, hb, rfl⟩ := List.mem_map.1 hx
  rw [bne_iff_ne]
  exact fun heq => hnodup.1.1 (heq ▸ List.mem_map_of_mem hb)

namespace Renderings

/-- The shortcodes that are asked for are those that are not known, each once. -/
theorem fragments_requests (r : Renderings) (fragments : List String) :
    (r.requests fragments).map (·.fragment) = fragments.eraseDups.filter fun f => (r.known.lookup f).isNone := by
  rw [requests, List.map_map]
  exact List.zipIdx_map_fst ..

theorem nodup_eraseDups (texts : List String) : texts.eraseDups.Nodup := by
  suffices ∀ n, ∀ texts : List String, texts.length ≤ n → texts.eraseDups.Nodup from this _ texts (Nat.le_refl _)
  intro n
  induction n with
  | zero =>
    intro texts h
    rw [List.length_eq_zero_iff.1 (Nat.le_zero.1 h)]
    exact .nil
  | succ n ih =>
    intro texts h
    cases texts with
    | nil => exact .nil
    | cons text texts =>
      have hle := List.length_filter_le (fun other => !other == text) texts
      rw [List.length_cons] at h
      rw [List.eraseDups_cons, List.nodup_cons, List.mem_eraseDups, List.mem_filter]
      exact ⟨by simp, ih _ (by omega)⟩

/-- What is asked for at once is asked for once. -/
theorem nodup_requests (r : Renderings) (fragments : List String) :
    ((r.requests fragments).map (·.fragment)).Nodup := by
  rw [fragments_requests]
  exact (nodup_eraseDups fragments).filter _

/-- What is asked for is not known. -/
theorem mem_requests_iff (r : Renderings) (fragments : List String) {f : String} :
    f ∈ (r.requests fragments).map (·.fragment) ↔ r.known.lookup f = none ∧ f ∈ fragments := by
  rw [fragments_requests, List.mem_filter, List.mem_eraseDups, Option.isNone_iff_eq_none, and_comm]

/-- What was known stays as it was. -/
theorem lookup_learn_of_some {r : Renderings} {f html : String} (h : r.known.lookup f = some html)
    (requests : List RenderRequest) (answers : List (String × String)) :
    (r.learn requests answers).known.lookup f = some html := by
  rw [learn, List.lookup_append, h]
  rfl

/-- **The answer to a request is kept**, and nothing if there was none. -/
theorem lookup_learn_of_mem {r : Renderings} {fragments : List String} {q : RenderRequest} (hq : q ∈ r.requests fragments)
    (answers : List (String × String)) :
    (r.learn (r.requests fragments) answers).known.lookup q.fragment = some ((answers.lookup q.id).getD "") := by
  have hnew := ((r.mem_requests_iff fragments).1 (List.mem_map_of_mem hq)).1
  rw [learn, List.lookup_append, hnew, Option.none_or]
  exact lookup_map_of_mem (r.nodup_requests fragments) hq

/-- What is asked for is known afterwards, as is what was known before. -/
theorem lookup_learn (r : Renderings) {requests : List RenderRequest} (answers : List (String × String)) {f : String}
    (h : (r.known.lookup f).isSome = true ∨ f ∈ requests.map (·.fragment)) :
    ((r.learn requests answers).known.lookup f).isSome = true := by
  rw [learn, List.lookup_append, Option.isSome_or, Bool.or_eq_true]
  refine h.imp id fun hasked => ?_
  obtain ⟨q, hq, rfl⟩ := List.mem_map.1 hasked
  exact List.lookup_isSome_iff.2 ⟨_, List.mem_map_of_mem hq, beq_self_eq_true q.fragment⟩

/-- **Nothing is asked for again.** -/
theorem requests_learn (r : Renderings) (fragments : List String) (answers : List (String × String)) :
    (r.learn (r.requests fragments) answers).requests fragments = [] := by
  -- what is asked for a second time was not known, so it was asked for the first time, and it is known now
  rw [← List.map_eq_nil_iff (f := (·.fragment)), List.eq_nil_iff_forall_not_mem]
  intro f hf
  obtain ⟨hunknown, hmem⟩ := (mem_requests_iff ..).1 hf
  have hknown : (r.known.lookup f).isSome = true ∨ f ∈ (r.requests fragments).map (·.fragment) := by
    cases hlookup : r.known.lookup f with
    | some html => exact .inl rfl
    | none => exact .inr ((r.mem_requests_iff fragments).2 ⟨hlookup, hmem⟩)
  have hlearned := r.lookup_learn answers hknown
  rw [hunknown] at hlearned
  cases hlearned

/-- All that was to be rendered is known afterwards, also when nothing had to be asked for. -/
theorem requests_of_asked (r : Renderings) (fragments : List String) (expander : Expander) :
    (if (r.requests fragments).isEmpty then r
      else r.learn (r.requests fragments) (expander (r.requests fragments))).requests fragments = [] := by
  split
  · exact List.isEmpty_iff.1 ‹_›
  · exact r.requests_learn fragments _

/-- So every shortcode that was to be rendered is known afterwards. -/
theorem known_of_asked (r : Renderings) {fragments : List String} (expander : Expander) {f : String} (h : f ∈ fragments) :
    ((if (r.requests fragments).isEmpty then r
      else r.learn (r.requests fragments) (expander (r.requests fragments))).known.lookup f).isSome = true := by
  have hnone := r.requests_of_asked fragments expander
  generalize (if (r.requests fragments).isEmpty then r
    else r.learn (r.requests fragments) (expander (r.requests fragments))) = known at hnone ⊢
  rw [Option.isSome_iff_ne_none]
  intro hunknown
  have hasked := (known.mem_requests_iff fragments).2 ⟨hunknown, h⟩
  rw [hnone] at hasked
  cases hasked

end Renderings

/-- **Markup is expanded in the same way again**, by whoever renders shortcodes then, and nothing is asked for. -/
theorem expandShortcodes_again (expander expander' : Expander) (r : Renderings) (source html : String) :
    expandShortcodes expander' (expandShortcodes expander r source html).renderings source html =
      { expandShortcodes expander r source html with requests := [] } := by
  unfold expandShortcodes
  -- either there is nothing to expand, or it is all known after the first time
  cases (shortcodes source).map (·.fragment) with
  | nil => rfl
  | cons fragment inSource =>
    cases Html.parse html with
    | error e => rfl
    | ok t =>
      dsimp only
      cases placements t (fragment :: inSource) with
      | nil => rfl
      | cons p found =>
        simp only [r.requests_of_asked]
        rfl

end LiveMarkup.Editor
