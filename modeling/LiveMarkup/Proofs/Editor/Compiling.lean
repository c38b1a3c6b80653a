/-
Answers of the compiler are used at most once, and in order.

A compilation is wanted, then asked for once the author pauses, and its answer used when it comes; leaving utility mode
ends all of this. These are the dealings with the compiler, and each is one of few things that can happen to a
compilation (`deals_step`). What a compilation knows is read off the dealings so far: when the next request is due
(`Timed`), which answer is awaited (`Numbered`) and which style sheet was the last good one. Each is kept by whatever
happens. Main result: `compiled_in_order`.
-/
import LiveMarkup.Proofs.Editor.Backstage
import LiveMarkup.Proofs.Editor.History

set_option autoImplicit false

namespace LiveMarkup.Editor

/-! ## Dealings with the compiler -/

/-- The number of the request that an effect sends. -/
def Effect.requestId? : Effect → Option Nat
  | .compile r => some r.id
  | _ => none

/-- Whether an effect shows how a compilation went. -/
def Effect.isStatus : Effect → Bool
  | .showStatus _ => true
  | _ => false

/-- What is dealt with the compiler. -/
inductive Dealing where
  /-- A compilation is wanted, after a pause from a time on. -/
  | wanted (start : Nat)
  /-- Utility mode was left. -/
  | dropped
  /-- A request was sent at a time. -/
  | sent (id now : Nat)
  /-- The answer to a request was used. -/
  | used (id : Nat) (result : Except CompileError String)

namespace Dealing

def sentId? : Dealing → Option Nat
  | sent id _ => some id
  | _ => none

def usedId? : Dealing → Option Nat
  | used id _ => some id
  | _ => none

/-- The style sheet of an answer that was used. -/
def css? : Dealing → Option String
  | used _ result => result.toOption
  | _ => none

/-- Whether it matters for when the next request is due. -/
def isTiming : Dealing → Bool
  | wanted _ | dropped | sent .. => true
  | used .. => false

/-- Whether it matters for which answer is awaited. -/
def isAnswering : Dealing → Bool
  | sent .. | dropped | used .. => true
  | wanted _ => false

end Dealing

/-- What is dealt at a moment: a request was sent if the compiler is asked at a poll, and an answer was used if it is
shown how the compilation went. -/
def Moment.dealing? (m : Moment) : Option Dealing :=
  match m.event with
  | .source _ now | .css _ now => if m.bridge.setup.utilityCss then some (.wanted now) else none
  | .utilityCss on now => some (if on then .wanted now else .dropped)
  | .requestCompile now => some (.wanted now)
  | .poll now => (m.step.effects.findSome? (·.requestId?)).map (.sent · now)
  | .compiled id result => if m.step.effects.any (·.isStatus) then some (.used id result) else none
  | _ => none

/-- What was dealt with the compiler, in order. -/
def Bridge.dealings (b : Bridge) (past : History) : List Dealing := (b.moments past).filterMap (·.dealing?)

/-- The numbers of the requests that were sent, in order. -/
def sentIds (dealings : List Dealing) : List Nat := dealings.filterMap (·.sentId?)

/-- The numbers of the answers that were used, in order. -/
def usedIds (dealings : List Dealing) : List Nat := dealings.filterMap (·.usedId?)

/-- The last style sheet that was used, if any was. -/
def lastCss (dealings : List Dealing) : String := (lastOf? (·.css?) dealings).getD ""

/-- The last dealing of a kind. -/
def lastDealing? (kind : Dealing → Bool) (dealings : List Dealing) : Option Dealing :=
  lastOf? (Option.guard kind) dealings

theorem dealings_append (b : Bridge) (past : History) (h : Helpers) (e : Event) :
    b.dealings (past ++ [(h, e)]) =
      b.dealings past ++ (⟨h, e, (b.follow past).bridge⟩ : Moment).dealing?.toList := by
  rw [Bridge.dealings, moments_append, filterMap_concat]
  rfl

/-! ## What happens to a compilation -/

/-- What can happen to a compilation, and what is dealt. -/
inductive Deals (c : Compilation) : Option Dealing → Compilation → Prop
  | idle : Deals c none c
  /-- The pause is over, but there is no compiler. -/
  | spent : Deals c none { c with debouncer := c.debouncer.cancel }
  | want (now : Nat) : Deals c (some (.wanted now)) (c.schedule now)
  | drop : Deals c (some .dropped) c.cancel
  | send {deadline now : Nat} (hdeadline : c.debouncer.deadline = some deadline) (hdue : deadline ≤ now) :
      Deals c (some (.sent (c.lastId + 1) now))
        { c with debouncer := c.debouncer.cancel, lastId := c.lastId + 1, awaited := some (c.lastId + 1) }
  | use {id : Nat} (result : Except CompileError String) {c' : Compilation} (h : c.answer? id result = some c') :
      Deals c (some (.used id result)) c'

theorem deals_edited (s : Backstage) (now : Nat) :
    Deals s.compilation (if s.utilityCss then some (.wanted now) else none) (s.edited now).compilation := by
  unfold Backstage.edited
  split
  · exact .want now
  · exact .idle

/-- A request is sent when the pause is over, and there is a compiler. -/
theorem deals_poll (c : Compilation) (hasCompiler : Bool) (now : Nat) :
    Deals c ((c.poll hasCompiler now).1.map (.sent · now)) (c.poll hasCompiler now).2 := by
  unfold Compilation.poll Debouncer.fire
  cases hdeadline : c.debouncer.deadline with
  | none => exact .idle
  | some deadline =>
    dsimp only
    by_cases hdue : deadline ≤ now
    · rw [if_pos hdue]
      cases hasCompiler with
      | true => exact .send hdeadline hdue
      | false => exact .spent
    · rw [if_neg hdue]
      exact .idle

/-- What a poll asks of the compiler is what is sent. -/
theorem dealing?_poll (b : Bridge) (h : Helpers) (now : Nat) :
    (⟨h, .poll now, b⟩ : Moment).dealing? = (b.compilation.poll h.hasCompiler now).1.map (.sent · now) := by
  unfold Moment.dealing? Moment.step Bridge.step Bridge.poll
  dsimp only
  cases (b.compilation.poll h.hasCompiler now).1 <;> rfl

theorem isStatus_onCompiled (b : Bridge) (id : Nat) (result : Except CompileError String) :
    (b.onCompiled id result).effects.any (·.isStatus) = (b.compilation.answer? id result).isSome := by
  unfold Bridge.onCompiled
  cases b.compilation.answer? id result with
  | none => rfl
  | some c => cases result <;> rfl

/-- An answer is used if it is the one that is awaited. -/
theorem dealing?_compiled (b : Bridge) (h : Helpers) (id : Nat) (result : Except CompileError String) :
    (⟨h, .compiled id result, b⟩ : Moment).dealing? =
      (b.compilation.answer? id result).map fun _ => .used id result := by
  change (if (b.onCompiled id result).effects.any (·.isStatus) then some (Dealing.used id result) else none) = _
  rw [isStatus_onCompiled]
  cases b.compilation.answer? id result <;> rfl

/-- **Whatever happens to a bridge is one of the things that can happen to a compilation.** -/
theorem deals_step (b : Bridge) (h : Helpers) (e : Event) :
    Deals b.compilation (⟨h, e, b⟩ : Moment).dealing? (b.step h e).bridge.compilation := by
  have hstep : (b.step h e).bridge.compilation = (b.backstage.after h e).compilation :=
    congrArg Backstage.compilation (b.works_step h e).backstage
  rw [hstep]
  cases e with
  | source text now => exact deals_edited b.backstage now
  | css text now => exact deals_edited b.backstage now
  | utilityCss on now =>
    cases on with
    | true => exact .want now
    | false => exact .drop
  | requestCompile now => exact .want now
  | poll now =>
    rw [dealing?_poll]
    exact deals_poll b.compilation h.hasCompiler now
  | compiled id result =>
    rw [dealing?_compiled, Backstage.after, Bridge.backstage]
    cases hanswer : b.compilation.answer? id result with
    | none => exact .idle
    | some c => exact .use result hanswer
  | _ => exact .idle

/-! ## What a compilation knows -/

theorem sentIds_append (dealings : List Dealing) (d : Dealing) :
    sentIds (dealings ++ [d]) = sentIds dealings ++ d.sentId?.toList := filterMap_concat ..

theorem usedIds_append (dealings : List Dealing) (d : Dealing) :
    usedIds (dealings ++ [d]) = usedIds dealings ++ d.usedId?.toList := filterMap_concat ..

theorem lastCss_append (dealings : List Dealing) (d : Dealing) :
    lastCss (dealings ++ [d]) = d.css?.getD (lastCss dealings) := by
  unfold lastCss
  rw [lastOf?_concat, Option.getD_or]

theorem lastDealing?_append (kind : Dealing → Bool) (dealings : List Dealing) (d : Dealing) :
    lastDealing? kind (dealings ++ [d]) = if kind d then some d else lastDealing? kind dealings := by
  unfold lastDealing?
  rw [lastOf?_concat, Option.guard]
  split <;> rfl

/-- A request is due a pause after a compilation was wanted, if nothing was sent or dropped since. -/
structure Timed (delay : Nat) (dealings : List Dealing) (c : Compilation) : Prop where
  interval : c.debouncer.interval = delay
  deadline : ∀ deadline, c.debouncer.deadline = some deadline →
    ∃ start, lastDealing? (·.isTiming) dealings = some (.wanted start) ∧ deadline = start + delay

/-- Requests are numbered, the last one is awaited if nothing was dropped or used since, and no answer that was used
is awaited. -/
structure Numbered (dealings : List Dealing) (c : Compilation) : Prop where
  sent : sentIds dealings = (List.range c.lastId).map (· + 1)
  awaited : ∀ id, c.awaited = some id ↔ ∃ now, lastDealing? (·.isAnswering) dealings = some (.sent id now)
  newest : ∀ id, c.awaited = some id → id = c.lastId
  used : (usedIds dealings).Pairwise (· < ·)
  settled : ∀ id ∈ usedIds dealings, id ≤ c.lastId ∧ c.awaited ≠ some id

variable {delay : Nat} {dealings : List Dealing} {c c' : Compilation} {d? : Option Dealing}

theorem answer?_eq_some {id : Nat} {result : Except CompileError String} (h : c.answer? id result = some c') :
    c.awaited = some id ∧ c'.awaited = none ∧ c'.debouncer = c.debouncer ∧ c'.lastId = c.lastId ∧
      c'.lastGood = result.toOption.getD c.lastGood := by
  unfold Compilation.answer? at h
  split at h
  · rename_i hawaited
    rw [← Option.some.inj h]
    cases result with
    | ok css => exact ⟨hawaited, rfl, rfl, rfl, rfl⟩
    | error e => exact ⟨hawaited, rfl, rfl, rfl, rfl⟩
  · exact absurd h nofun

theorem timed_deals (hc : Timed delay dealings c) (h : Deals c d? c') : Timed delay (dealings ++ d?.toList) c' := by
  obtain ⟨hinterval, hdeadline⟩ := hc
  cases h with
  | idle =>
    rw [Option.toList_none, List.append_nil]
    exact ⟨hinterval, hdeadline⟩
  | spent =>
    rw [Option.toList_none, List.append_nil]
    exact ⟨hinterval, nofun⟩
  | want now =>
    refine ⟨hinterval, fun deadline h => ⟨now, ?_, ?_⟩⟩
    · exact lastDealing?_append ..
    · rw [← Option.some.inj h, hinterval]
  | drop => exact ⟨hinterval, nofun⟩
  | send => exact ⟨hinterval, nofun⟩
  | use result h =>
    obtain ⟨-, -, hdebouncer, -, -⟩ := answer?_eq_some h
    rw [Option.toList_some]
    refine ⟨(congrArg Debouncer.interval hdebouncer).trans hinterval, fun deadline hd => ?_⟩
    rw [hdebouncer] at hd
    obtain ⟨start, hstart, rfl⟩ := hdeadline deadline hd
    exact ⟨start, (lastDealing?_append ..).trans hstart, rfl⟩

theorem numbered_deals (hc : Numbered dealings c) (h : Deals c d? c') : Numbered (dealings ++ d?.toList) c' := by
  obtain ⟨hsent, hawaited, hnewest, hused, hsettled⟩ := hc
  cases h with
  | idle | spent =>
    rw [Option.toList_none, List.append_nil]
    exact ⟨hsent, hawaited, hnewest, hused, hsettled⟩
  | want now =>
    refine ⟨?_, ?_, hnewest, ?_, ?_⟩ <;>
      simp only [Option.toList_some, sentIds_append, usedIds_append, lastDealing?_append, Dealing.sentId?,
        Dealing.usedId?, Dealing.isAnswering, Option.toList_none, List.append_nil]
    · exact hsent
    · exact hawaited
    · exact hused
    · exact hsettled
  | drop =>
    refine ⟨?_, ?_, nofun, ?_, ?_⟩ <;>
      simp only [Option.toList_some, sentIds_append, usedIds_append, lastDealing?_append, Dealing.sentId?,
        Dealing.usedId?, Dealing.isAnswering, Option.toList_none, List.append_nil]
    · exact hsent
    · exact fun id => ⟨nofun, fun ⟨_, h⟩ => absurd h nofun⟩
    · exact hused
    · exact fun id hid => ⟨(hsettled id hid).1, nofun⟩
  | @send deadline now hdeadline hdue =>
    refine ⟨?_, fun id => ?_, fun id h => (Option.some.inj h).symm, ?_, ?_⟩ <;>
      simp only [Option.toList_some, sentIds_append, usedIds_append, lastDealing?_append, Dealing.sentId?,
        Dealing.usedId?, Dealing.isAnswering, Option.toList_none, List.append_nil]
    · rw [hsent, List.range_succ, List.map_append]
      rfl
    · constructor
      · intro h
        exact ⟨now, by rw [Option.some.inj h]; rfl⟩
      · rintro ⟨_, h⟩
        cases h
        rfl
    · exact hused
    · -- the number of the request is new
      intro id hid
      have hle := (hsettled id hid).1
      refine ⟨Nat.le_succ_of_le hle, fun h => ?_⟩
      have heq := Option.some.inj h
      omega
  | @use id result _ h =>
    obtain ⟨hid, hnone, -, hlast, -⟩ := answer?_eq_some h
    obtain rfl := hnewest id hid
    refine ⟨?_, ?_, ?_, ?_, ?_⟩ <;>
      simp only [Option.toList_some, sentIds_append, usedIds_append, lastDealing?_append, Dealing.sentId?,
        Dealing.usedId?, Dealing.isAnswering, Option.toList_none, List.append_nil, hnone, hlast]
    · exact hsent
    · exact fun id => ⟨nofun, fun ⟨_, h⟩ => absurd h nofun⟩
    · exact nofun
    · -- the answers that were used before have smaller numbers
      refine List.pairwise_append.2 ⟨hused, List.pairwise_singleton _ _, fun id hmem id' hmem' => ?_⟩
      obtain ⟨hle, hne⟩ := hsettled id hmem
      rw [List.mem_singleton.1 hmem']
      refine Nat.lt_of_le_of_ne hle fun heq => hne ?_
      rw [heq]
      exact hid
    · intro id hmem
      refine ⟨?_, nofun⟩
      rcases List.mem_append.1 hmem with hmem | hmem
      · exact (hsettled id hmem).1
      · exact Nat.le_of_eq (List.mem_singleton.1 hmem)

theorem lastGood_deals (hc : c.lastGood = lastCss dealings) (h : Deals c d? c') :
    c'.lastGood = lastCss (dealings ++ d?.toList) := by
  cases h with
  | idle | spent =>
    rw [Option.toList_none, List.append_nil]
    exact hc
  | want | drop | send =>
    rw [Option.toList_some, lastCss_append]
    exact hc
  | use result h =>
    obtain ⟨-, -, -, -, hgood⟩ := answer?_eq_some h
    rw [Option.toList_some, lastCss_append, hgood, hc]
    rfl

/-! ## Requests -/

/-- The numbers of the requests that effects send, in order. -/
def requestIds (effects : List Effect) : List Nat := effects.filterMap (·.requestId?)

theorem requestIds_work (effects : List Effect) : requestIds (effects.filter (·.isWork)) = requestIds effects := by
  induction effects with
  | nil => rfl
  | cons effect effects ih =>
    cases effect with
    | compile r => exact congrArg (r.id :: ·) ih
    | _ => exact ih

/-- What a step sends is what is dealt. -/
theorem requestIds_step (b : Bridge) (h : Helpers) (e : Event) :
    requestIds (b.step h e).effects = ((⟨h, e, b⟩ : Moment).dealing?.bind (·.sentId?)).toList := by
  rw [← requestIds_work, show (b.step h e).effects.filter (·.isWork) = _ from (b.works_step h e).work]
  cases e with
  | poll now =>
    rw [dealing?_poll, Bridge.workOf]
    cases (b.compilation.poll h.hasCompiler now).1 <;> rfl
  | compiled id result =>
    rw [dealing?_compiled, Bridge.workOf]
    cases b.compilation.answer? id result <;> rfl
  | source text now | css text now =>
    unfold Moment.dealing?
    dsimp only
    split <;> rfl
  | utilityCss on now => cases on <;> rfl
  | _ => rfl

/-- Requests are sent at polls only. -/
theorem eq_poll_of_sent {b : Bridge} {h : Helpers} {e : Event} {id now : Nat}
    (hsent : (⟨h, e, b⟩ : Moment).dealing? = some (.sent id now)) : e = .poll now := by
  cases e with
  | poll now' =>
    rw [dealing?_poll] at hsent
    obtain ⟨id', -, heq⟩ := Option.map_eq_some_iff.1 hsent
    rw [(Dealing.sent.inj heq).2]
  | compiled id' result =>
    rw [dealing?_compiled] at hsent
    obtain ⟨c, -, heq⟩ := Option.map_eq_some_iff.1 hsent
    exact absurd heq nofun
  | source text now' | css text now' =>
    unfold Moment.dealing? at hsent
    dsimp only at hsent
    split at hsent <;> exact absurd hsent nofun
  | utilityCss on now' => cases on <;> exact absurd hsent nofun
  | _ => exact absurd hsent nofun

/-! ## The order of answers -/

/-- After every history a compilation knows what was dealt. -/
theorem dealt_follow (setup : Setup) (past : History) :
    Timed setup.compileDelay ((Bridge.ofSetup setup).dealings past)
        ((Bridge.ofSetup setup).follow past).bridge.compilation ∧
      Numbered ((Bridge.ofSetup setup).dealings past) ((Bridge.ofSetup setup).follow past).bridge.compilation ∧
      ((Bridge.ofSetup setup).follow past).bridge.compilation.lastGood =
        lastCss ((Bridge.ofSetup setup).dealings past) ∧
      requestIds ((Bridge.ofSetup setup).follow past).effects = sentIds ((Bridge.ofSetup setup).dealings past) := by
  induction past using List.reverseRecOn with
  | nil => exact ⟨⟨rfl, nofun⟩, ⟨rfl, fun _ => ⟨nofun, fun ⟨_, h⟩ => absurd h nofun⟩, nofun, .nil, nofun⟩, rfl, rfl⟩
  | append_singleton past e ih =>
    obtain ⟨h, e⟩ := e
    obtain ⟨htimed, hnumbered, hgood, hsent⟩ := ih
    rw [bridge_follow_append, dealings_append, effects_follow_append]
    generalize ((Bridge.ofSetup setup).follow past).bridge = b at *
    have hdeals := deals_step b h e
    refine ⟨timed_deals htimed hdeals, numbered_deals hnumbered hdeals, lastGood_deals hgood hdeals, ?_⟩
    rw [requestIds, List.filterMap_append]
    change requestIds _ ++ requestIds _ = _
    rw [hsent, requestIds_step]
    cases (⟨h, e, b⟩ : Moment).dealing? with
    | none =>
      rw [Option.toList_none, List.append_nil]
      exact List.append_nil _
    | some d => exact (sentIds_append ..).symm

/-- What is dealt with the compiler is in order, after a history that leads to a bridge. -/
structure CompiledInOrder (setup : Setup) (past : History) (b : Bridge) : Prop where
  /-- The numbers of the requests increase. -/
  sent : (requestIds ((Bridge.ofSetup setup).follow past).effects).Pairwise (· < ·)
  /-- A request is sent at a poll only, and only if a compilation was wanted since the last one was sent or dropped,
  and a pause has passed since it was last wanted. -/
  due : ∀ h e id, id ∈ requestIds (b.step h e).effects → ∃ start now, e = .poll now ∧
    lastDealing? (·.isTiming) ((Bridge.ofSetup setup).dealings past) = some (.wanted start) ∧
    start + setup.compileDelay ≤ now
  /-- The numbers of the answers that are used increase, so each is used once. -/
  used : (usedIds ((Bridge.ofSetup setup).dealings past)).Pairwise (· < ·)
  /-- An answer is used just if it is to the request that was sent last, and nothing was dropped or used since. -/
  answers : ∀ h id result, (⟨h, .compiled id result, b⟩ : Moment).dealing? = some (.used id result) ↔
    ∃ now, lastDealing? (·.isAnswering) ((Bridge.ofSetup setup).dealings past) = some (.sent id now)
  /-- Such a request is the last of all. -/
  latest : ∀ id now, lastDealing? (·.isAnswering) ((Bridge.ofSetup setup).dealings past) = some (.sent id now) →
    (requestIds ((Bridge.ofSetup setup).follow past).effects).getLast? = some id
  /-- The last good style sheet is that of the last answer that was used and is one. -/
  lastGood : b.compilation.lastGood = lastCss ((Bridge.ofSetup setup).dealings past)

/-- **Answers of the compiler are used at most once, and in order**, whatever happens to a bridge, and when. -/
theorem compiled_in_order (setup : Setup) (past : History) :
    CompiledInOrder setup past ((Bridge.ofSetup setup).follow past).bridge := by
  obtain ⟨htimed, hnumbered, hgood, hsent⟩ := dealt_follow setup past
  have hids := hsent.trans hnumbered.sent
  generalize ((Bridge.ofSetup setup).follow past).bridge = b at *
  refine ⟨?_, ?_, hnumbered.used, ?_, ?_, hgood⟩
  · rw [hids, List.pairwise_map]
    exact List.pairwise_lt_range.imp fun h => Nat.succ_lt_succ h
  · intro h e id hid
    rw [requestIds_step, Option.mem_toList] at hid
    obtain ⟨d, hd, hid⟩ := Option.bind_eq_some_iff.1 hid
    cases d with
    | sent id' now =>
      have hdeals := deals_step b h e
      rw [hd] at hdeals
      generalize (b.step h e).bridge.compilation = c' at hdeals
      cases hdeals with
      | send hdeadline hdue =>
        obtain ⟨start, hstart, rfl⟩ := htimed.deadline _ hdeadline
        exact ⟨start, now, eq_poll_of_sent hd, hstart, hdue⟩
    | _ => exact absurd hid nofun
  · intro h id result
    rw [dealing?_compiled, ← hnumbered.awaited id]
    unfold Compilation.answer?
    by_cases hawaited : b.compilation.awaited = some id
    · rw [if_pos hawaited]
      exact ⟨fun _ => hawaited, fun _ => rfl⟩
    · rw [if_neg hawaited]
      exact ⟨nofun, fun h => absurd h hawaited⟩
  · intro id now hlast
    have hnewest := hnumbered.newest id ((hnumbered.awaited id).2 ⟨now, hlast⟩)
    have hid : id ∈ sentIds ((Bridge.ofSetup setup).dealings past) := by
      obtain ⟨d, hd, hsame⟩ := exists_of_lastOf? _ _ hlast
      rw [Option.guard_eq_some_iff.1 hsame |>.1] at hd
      exact List.mem_filterMap.2 ⟨.sent id now, hd, rfl⟩
    rw [hnumbered.sent] at hid
    rw [hids, hnewest]
    -- a request was sent, so the last number is that of a request
    cases hlastId : b.compilation.lastId with
    | zero =>
      rw [hlastId] at hid
      exact absurd hid List.not_mem_nil
    | succ n =>
      rw [List.range_succ, List.map_append]
      exact List.getLast?_concat

end LiveMarkup.Editor
