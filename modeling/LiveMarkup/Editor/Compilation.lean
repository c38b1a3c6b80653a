/-
Compiled style sheets.

In utility mode the style sheet is made by a compiler from the source and the author's directives. A
compilation is asked for once the author pauses; only the answer to the latest request counts, and a
failure keeps the last style sheet that was good.

A debouncer turns a burst of requests into one, which is due when a certain time has passed since the
last of them. It has no clock: times are numbers of milliseconds that the caller supplies.
-/

set_option autoImplicit false

namespace LiveMarkup.Editor

/-! ## Waiting for a pause -/

/-- A debouncer. -/
structure Debouncer where
  /-- How long a pause has to be. -/
  interval : Nat
  /-- When the request that is waiting is due. -/
  deadline : Option Nat
deriving DecidableEq, Repr

namespace Debouncer

/-- A debouncer with nothing waiting. -/
def ofInterval (interval : Nat) : Debouncer := ⟨interval, none⟩

/-- A request at a time puts the deadline off. -/
def schedule (d : Debouncer) (now : Nat) : Debouncer := { d with deadline := some (now + d.interval) }

/-- Whether a request is waiting. -/
def isPending (d : Debouncer) : Bool := d.deadline.isSome

/-- The debouncer without the request that is waiting. -/
def cancel (d : Debouncer) : Debouncer := { d with deadline := none }

/-- Whether the request that is waiting is due at a time; it is due only once. -/
def fire (d : Debouncer) (now : Nat) : Bool × Debouncer :=
  match d.deadline with
  | some deadline => if deadline ≤ now then (true, d.cancel) else (false, d)
  | none => (false, d)

end Debouncer

/-! ## Compilations -/

/-- What a compiler is asked to do. -/
structure CompileRequest where
  /-- The number of the request. -/
  id : Nat
  /-- The markup that is looked through for class names. -/
  html : String
  /-- The author's directives. -/
  directives : String
deriving DecidableEq, Repr

/-- Why there is no style sheet. -/
inductive CompileError where
  /-- The compiler refused its input. -/
  | rejected (reason : String)
  /-- The compiler did not answer. -/
  | unavailable (reason : String)
deriving DecidableEq, Repr

/-- The text of the error. -/
def CompileError.message : CompileError → String
  | rejected reason => "stylesheet compile failed: " ++ reason
  | unavailable reason => "stylesheet compiler unavailable: " ++ reason

/-- Where compilation stands. -/
structure Compilation where
  /-- The request that waits for a pause. -/
  debouncer : Debouncer
  /-- The number of the last request. -/
  lastId : Nat
  /-- The request whose answer will be used. -/
  awaited : Option Nat
  /-- The last style sheet that was compiled. -/
  lastGood : String
  /-- What went wrong in the last compilation. -/
  status : Option String
deriving DecidableEq, Repr

namespace Compilation

/-- Nothing compiled yet; a pause is so many milliseconds long. -/
def ofDelay (delay : Nat) : Compilation := ⟨.ofInterval delay, 0, none, "", none⟩

/-- A compilation is wanted, after a pause from now on. -/
def schedule (c : Compilation) (now : Nat) : Compilation := { c with debouncer := c.debouncer.schedule now }

/-- No compilation is wanted any more, and no answer. -/
def cancel (c : Compilation) : Compilation := { c with debouncer := c.debouncer.cancel, awaited := none }

/-- The number of the request that is due now, if one is. -/
def poll (c : Compilation) (hasCompiler : Bool) (now : Nat) : Option Nat × Compilation :=
  let (due, debouncer) := c.debouncer.fire now
  let c := { c with debouncer }
  if due && hasCompiler then (some (c.lastId + 1), { c with lastId := c.lastId + 1, awaited := some (c.lastId + 1) })
  else (none, c)

/-- The answer to a request, unless another one is awaited. -/
def answer? (c : Compilation) (id : Nat) (result : Except CompileError String) : Option Compilation :=
  if c.awaited = some id then
    some (match result with
      | .ok css => { c with awaited := none, lastGood := css, status := none }
      | .error e => { c with awaited := none, status := some e.message })
  else none

end Compilation

end LiveMarkup.Editor
