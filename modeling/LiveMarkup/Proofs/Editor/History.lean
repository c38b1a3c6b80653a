/-
What happened to a bridge.

A history is what happened to a bridge, in order, with those who worked for the editor each time. It is read in two
ways: as one step after another (`Bridge.follow`), which tells what the bridge is like in the end and all that was
done, and as a list of moments (`Bridge.moments`), which tells what happened when, and to which bridge. Both grow at
the end (`follow_append`, `moments_append`), so what holds of every history is shown by what the last event does. Much
of what a bridge knows is the last of its kind that happened (`lastOf?`).
-/
import LiveMarkup.Editor.Bridge
import Mathlib.Data.List.Basic
import Mathlib.Data.List.Induction

set_option autoImplicit false

namespace LiveMarkup.Editor

/-- What happened to a bridge, with those who worked for the editor at that time. -/
abbrev History := List (Helpers × Event)

/-- What one event after another does, when the helpers may change. -/
def Bridge.follow (b : Bridge) (history : History) : Step :=
  history.foldl (fun s e => s.andThen fun b => b.step e.1 e.2) b.quietly

/-- With the same helpers all the time this is a run. -/
theorem run_eq_follow (h : Helpers) (b : Bridge) (events : List Event) :
    b.run h events = b.follow (events.map fun e => (h, e)) := by
  rw [Bridge.run, Bridge.follow, List.foldl_map]

theorem follow_append (b : Bridge) (past : History) (h : Helpers) (e : Event) :
    b.follow (past ++ [(h, e)]) = (b.follow past).andThen fun b => b.step h e := by
  rw [Bridge.follow, List.foldl_append]
  rfl

theorem bridge_follow_append (b : Bridge) (past : History) (h : Helpers) (e : Event) :
    (b.follow (past ++ [(h, e)])).bridge = ((b.follow past).bridge.step h e).bridge := by
  rw [follow_append]
  rfl

theorem effects_follow_append (b : Bridge) (past : History) (h : Helpers) (e : Event) :
    (b.follow (past ++ [(h, e)])).effects = (b.follow past).effects ++ ((b.follow past).bridge.step h e).effects := by
  rw [follow_append]
  rfl

/-- What happens to a bridge for which no one works. -/
def alone (events : List Event) : History := events.map fun e => (⟨false, none⟩, e)

/-- The usual setup of the editor of a post. -/
def Setup.ofPost (postId : String) : Setup where
  editorOrigin := "https://editor.example"
  previewOrigin := "https://preview.example"
  postId := postId
  shadowMode := false
  highlight := true
  utilityCss := false
  compileDelay := 300
  identity := .default
  media := .default

/-! ## The last of a kind -/

section Last

variable {α β : Type} (f : α → Option β) (l : List α)

/-- What the last element of a list tells that tells anything. -/
def lastOf? : Option β := (l.filterMap f).getLast?

theorem lastOf?_append (later : List α) : lastOf? f (l ++ later) = (lastOf? f later).or (lastOf? f l) := by
  rw [lastOf?, List.filterMap_append, List.getLast?_append]
  rfl

theorem filterMap_concat (a : α) : (l ++ [a]).filterMap f = l.filterMap f ++ (f a).toList := by
  rw [List.filterMap_append, List.filterMap_cons]
  cases f a <;> rfl

theorem lastOf?_concat (a : α) : lastOf? f (l ++ [a]) = (f a).or (lastOf? f l) := by
  rw [lastOf?, filterMap_concat, List.getLast?_append]
  cases f a <;> rfl

/-- What is told last is told by some element, and nothing is told after it. -/
theorem split_of_lastOf? {b : β} (h : lastOf? f l = some b) :
    ∃ before a after, l = before ++ a :: after ∧ f a = some b ∧ lastOf? f after = none := by
  induction l using List.reverseRecOn with
  | nil => exact absurd h nofun
  | append_singleton l x ih =>
    rw [lastOf?_concat] at h
    cases hx : f x with
    | none =>
      rw [hx, Option.none_or] at h
      obtain ⟨before, a, after, rfl, ha, hafter⟩ := ih h
      refine ⟨before, a, after ++ [x], by rw [List.append_assoc, List.cons_append], ha, ?_⟩
      rw [lastOf?_concat, hx, hafter]
      rfl
    | some b' =>
      rw [hx, Option.some_or] at h
      exact ⟨l, x, [], rfl, hx.trans h, rfl⟩

theorem exists_of_lastOf? {b : β} (h : lastOf? f l = some b) : ∃ a ∈ l, f a = some b :=
  List.mem_filterMap.1 (List.mem_of_getLast? h)

end Last

/-! ## Moments -/

/-- An event when it happens. -/
structure Moment where
  helpers : Helpers
  event : Event
  /-- The bridge to which it happens. -/
  bridge : Bridge

/-- What is done at a moment. -/
def Moment.step (m : Moment) : Step := m.bridge.step m.helpers m.event

/-- The moments of a history. -/
def Bridge.moments (b : Bridge) : History → List Moment
  | [] => []
  | (h, e) :: rest => ⟨h, e, b⟩ :: (b.step h e).bridge.moments rest

/-- Where a bridge gets to does not depend on what was done before. -/
theorem bridge_foldl (s : Step) (history : History) :
    (history.foldl (fun s e => s.andThen fun b => b.step e.1 e.2) s).bridge = (s.bridge.follow history).bridge := by
  induction history using List.reverseRecOn with
  | nil => rfl
  | append_singleton past e ih =>
    rw [bridge_follow_append, List.foldl_append, ← ih]
    rfl

theorem bridge_follow_cons (b : Bridge) (h : Helpers) (e : Event) (later : History) :
    (b.follow ((h, e) :: later)).bridge = ((b.step h e).bridge.follow later).bridge :=
  bridge_foldl (b.quietly.andThen fun b => b.step h e) later

theorem moments_append (b : Bridge) (past : History) (h : Helpers) (e : Event) :
    b.moments (past ++ [(h, e)]) = b.moments past ++ [⟨h, e, (b.follow past).bridge⟩] := by
  induction past generalizing b with
  | nil => rfl
  | cons first past ih =>
    rw [bridge_follow_cons, List.cons_append, Bridge.moments, ih]
    rfl

end LiveMarkup.Editor
