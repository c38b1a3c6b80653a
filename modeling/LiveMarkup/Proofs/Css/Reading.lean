/-
What reading a selector takes.

Every part of the parser takes some tokens and leaves the others (`Takes`). What it takes is balanced (`Balanced`):
commas stand in the argument of a function only, brackets are around what opens nothing, a colon stands before the name
of a pseudo-class, and what closes a function may be any closing token.
-/
import LiveMarkup.Css.Selector.Parse
import LiveMarkup.Proofs.Css.Plain

set_option autoImplicit false

namespace LiveMarkup.Css.Selector

open Text

/-! ## Tokens that are taken -/

variable {source : List Char} {nested : List Lexeme → Read SelectorList}
variable {ts us vs r : List Lexeme} {l : Lexeme} {t : Token} {commas : Bool}

theorem read_bind {α β : Type} {x : Read α} {f : α → Read β} {b : β} (h : x >>= f = .ok b) :
    ∃ a, x = .ok a ∧ f a = .ok b := by
  cases x with
  | error e => cases h
  | ok a => exact ⟨a, rfl, h⟩

/-- A token that may stand in a selector by itself. -/
inductive Loose : Token → Prop
  | space : Loose .space
  | delim {c : Char} : c ≠ '\\' → Loose (.delim c)
  | ident {name : String} : Loose (.ident name)
  | hash {name : String} {isId : Bool} : Loose (.hash name isId)

/-- A token that may stand in an attribute selector. -/
inductive Inner : Token → Prop
  | loose {t : Token} : Loose t → Inner t
  | string {text : String} : Inner (.string text)

theorem Loose.still (h : Loose t) : t.Still := by
  cases h <;> exact ⟨nofun, nofun, fun _ _ => rfl⟩

theorem Inner.still (h : Inner t) : t.Still := by
  cases h with
  | loose h => exact h.still
  | string => exact ⟨nofun, nofun, fun _ _ => rfl⟩

/-- The names of the pseudo-classes that are read, without arguments and with them. -/
def pseudoNames : List String :=
  "link" :: PseudoClass.all.map PseudoClass.name ++
    ["hover", "focus", "active", "visited", "focus-within", "focus-visible", "target", "not", "is", "matches", "any",
      "where", "nth-child", "nth-last-child", "nth-of-type", "nth-last-of-type"]

/-- Tokens that belong together. With `commas`, there may be commas among them. -/
inductive Balanced (source : List Char) : Bool → List Lexeme → Prop
  | nil {commas : Bool} : Balanced source commas []
  | loose {commas : Bool} {l : Lexeme} {ts : List Lexeme} : Loose l.token → Balanced source commas ts →
      Balanced source commas (l :: ts)
  | comma {l : Lexeme} {ts : List Lexeme} : l.token = .comma → Balanced source true ts → Balanced source true (l :: ts)
  /-- Positions of the form `An+B`. -/
  | positions {commas : Bool} {us ts : List Lexeme} {n : Nth} : Nth.parse? (textOf source us) = some n →
      (∀ x ∈ us, x.token ≠ .endOfInput) → Balanced source commas ts → Balanced source commas (us ++ ts)
  | bracketed {commas : Bool} {l r : Lexeme} {us ts : List Lexeme} : l.token = .openBracket →
      (∀ x ∈ us, Inner x.token) → r.token = .closeBracket → Balanced source commas ts →
      Balanced source commas (l :: (us ++ r :: ts))
  | pseudo {commas : Bool} {c l : Lexeme} {name : String} {ts : List Lexeme} : c.token = .colon →
      l.token = .ident name → name.toLower ∈ pseudoNames → Balanced source commas ts →
      Balanced source commas (c :: l :: ts)
  | function {commas : Bool} {c l r : Lexeme} {name : String} {us ts : List Lexeme} : c.token = .colon →
      l.token = .function name → name.toLower ∈ pseudoNames → Balanced source true us → r.token.closesBlock = true →
      Balanced source commas ts → Balanced source commas (c :: l :: (us ++ r :: ts))

theorem Balanced.append (h : Balanced source commas us) (h' : Balanced source commas vs) :
    Balanced source commas (us ++ vs) := by
  induction h with
  | nil => exact h'
  | loose hl _ ih => exact .loose hl (ih h')
  | comma hl _ ih => exact .comma hl (ih h')
  | positions hn hus _ ih =>
    rw [List.append_assoc]
    exact .positions hn hus (ih h')
  | bracketed hl hus hr _ ih =>
    rw [List.cons_append, List.append_assoc, List.cons_append]
    exact .bracketed hl hus hr (ih h')
  | pseudo hc hl hname _ ih => exact .pseudo hc hl hname (ih h')
  | function hc hl hname hus hr _ _ ih =>
    rw [List.cons_append, List.cons_append, List.append_assoc, List.cons_append]
    exact .function hc hl hname hus hr (ih h')

theorem balanced_of_loose (h : ∀ x ∈ us, Loose x.token) : Balanced source commas us := by
  induction us with
  | nil => exact .nil
  | cons l us ih => exact .loose (h l List.mem_cons_self) (ih fun x hx => h x (List.mem_cons_of_mem _ hx))

/-- No token among them says that the input ends. -/
theorem Balanced.not_end (h : Balanced source commas us) : ∀ l ∈ us, l.token ≠ .endOfInput := by
  induction h with
  | nil => simp
  | loose hl _ ih => exact List.forall_mem_cons.2 ⟨hl.still.not_end, ih⟩
  | comma hl _ ih => exact List.forall_mem_cons.2 ⟨by rw [hl]; exact nofun, ih⟩
  | positions _ hus _ ih => exact List.forall_mem_append.2 ⟨hus, ih⟩
  | bracketed hl hus hr _ ih =>
    refine List.forall_mem_cons.2 ⟨by rw [hl]; exact nofun,
      List.forall_mem_append.2 ⟨fun x hx => (hus x hx).still.not_end, ?_⟩⟩
    exact List.forall_mem_cons.2 ⟨by rw [hr]; exact nofun, ih⟩
  | pseudo hc hl _ _ ih =>
    exact List.forall_mem_cons.2 ⟨by rw [hc]; exact nofun, List.forall_mem_cons.2 ⟨by rw [hl]; exact nofun, ih⟩⟩
  | function hc hl _ _ hr _ ihArguments ih =>
    refine List.forall_mem_cons.2 ⟨by rw [hc]; exact nofun,
      List.forall_mem_cons.2 ⟨by rw [hl]; exact nofun, List.forall_mem_append.2 ⟨ihArguments, ?_⟩⟩⟩
    exact List.forall_mem_cons.2 ⟨fun hend => (by rw [hend] at hr; cases hr), ih⟩

theorem Balanced.withCommas (h : Balanced source commas us) : Balanced source true us := by
  induction h with
  | nil => exact .nil
  | loose hl _ ih => exact .loose hl ih
  | comma hl _ ih => exact .comma hl ih
  | positions hn hus _ ih => exact .positions hn hus ih
  | bracketed hl hus hr _ ih => exact .bracketed hl hus hr ih
  | pseudo hc hl hname _ ih => exact .pseudo hc hl hname ih
  | function hc hl hname hus hr _ _ ih => exact .function hc hl hname hus hr ih

/-- Tokens of a kind are taken and the others left. -/
def Takes (P : List Lexeme → Prop) (ts r : List Lexeme) : Prop := ∃ us, ts = us ++ r ∧ P us

/-- Tokens of one kind. -/
def Each (P : Token → Prop) (us : List Lexeme) : Prop := ∀ x ∈ us, P x.token

theorem Takes.mono {P Q : List Lexeme → Prop} (h : Takes P ts r) (hPQ : ∀ us, P us → Q us) : Takes Q ts r := by
  obtain ⟨us, hts, hus⟩ := h
  exact ⟨us, hts, hPQ us hus⟩

theorem Takes.length_le {P : List Lexeme → Prop} (h : Takes P ts r) : r.length ≤ ts.length := by
  obtain ⟨us, rfl, -⟩ := h
  rw [List.length_append]
  omega

theorem takes_nil (ts : List Lexeme) : Takes (Balanced source commas) ts ts := ⟨[], rfl, .nil⟩

theorem Takes.trans (h : Takes (Balanced source commas) ts us) (h' : Takes (Balanced source commas) us vs) :
    Takes (Balanced source commas) ts vs := by
  obtain ⟨xs, rfl, hxs⟩ := h
  obtain ⟨ys, rfl, hys⟩ := h'
  exact ⟨xs ++ ys, by rw [List.append_assoc], hxs.append hys⟩

theorem Takes.each_trans {P : Token → Prop} (h : Takes (Each P) ts us) (h' : Takes (Each P) us vs) :
    Takes (Each P) ts vs := by
  obtain ⟨xs, rfl, hxs⟩ := h
  obtain ⟨ys, rfl, hys⟩ := h'
  exact ⟨xs ++ ys, by rw [List.append_assoc], fun x hx => (List.mem_append.1 hx).elim (hxs x) (hys x)⟩

theorem Takes.balanced (h : Takes (Each Loose) ts us) : Takes (Balanced source commas) ts us :=
  h.mono fun _ => balanced_of_loose

theorem Takes.inner (h : Takes (Each Loose) ts us) : Takes (Each Inner) ts us :=
  h.mono fun _ hus x hx => .loose (hus x hx)

theorem eq_cons_of_peek (h : peek ts = t) (ht : t ≠ .endOfInput) : ∃ l, ts = l :: ts.tail ∧ l.token = t := by
  cases ts with
  | nil => exact absurd h.symm ht
  | cons l ts => exact ⟨l, rfl, h⟩

theorem takes_tail {P : Token → Prop} (h : peek ts = t) (ht : P t) : Takes (Each P) ts ts.tail := by
  cases ts with
  | nil => exact ⟨[], rfl, by simp [Each]⟩
  | cons l ts =>
    obtain rfl : l.token = t := h
    exact ⟨[l], rfl, by simpa [Each] using ht⟩

theorem takes_skipSpace (ts : List Lexeme) : Takes (Each Loose) ts (skipSpace ts) := by
  induction ts with
  | nil => exact ⟨[], rfl, by simp [Each]⟩
  | cons l ts ih =>
    rw [skipSpace]
    split
    · rename_i hl
      exact .each_trans (takes_tail (show peek (l :: ts) = .space from hl) .space) ih
    · exact ⟨[], rfl, by simp [Each]⟩

/-! ## Attribute selectors -/

/-- The equals sign behind the first sign of a comparison. -/
def takeEquals (ts : List Lexeme) (c : Comparison) : Read (Comparison × List Lexeme) :=
  match peek ts.tail with
  | .delim '=' => .ok (c, ts.tail.tail)
  | _ => .error (unexpected ts.tail)

theorem takes_comparison {c : Comparison} (h : takeComparison ts = .ok (c, r)) : Takes (Each Loose) ts r := by
  have htwo {d : Char} {c' : Comparison} (hd : peek ts = .delim d) (hne : d ≠ '\\')
      (h : takeEquals ts c' = .ok (c, r)) : Takes (Each Loose) ts r := by
    unfold takeEquals at h
    split at h
    · rename_i hsign
      cases h
      exact (takes_tail hd (.delim hne)).each_trans (takes_tail hsign (.delim (by decide)))
    · cases h
  unfold takeComparison at h
  dsimp only at h
  split at h
  · rename_i hsign
    cases h
    exact takes_tail hsign (.delim (by decide))
  · exact htwo ‹_› (by decide) h
  · exact htwo ‹_› (by decide) h
  · exact htwo ‹_› (by decide) h
  · exact htwo ‹_› (by decide) h
  · exact htwo ‹_› (by decide) h
  · cases h

theorem takes_flag {b : Bool} (h : takeFlag ts = .ok (b, r)) : Takes (Each Loose) ts r := by
  unfold takeFlag at h
  split at h
  · rename_i hflag
    have hskip := (takes_tail hflag .ident).each_trans (takes_skipSpace ts.tail)
    split at h
    · cases h
      exact hskip
    · split at h
      · cases h
        exact hskip
      · cases h
  · cases h
    exact ⟨[], rfl, by simp [Each]⟩

/-- **An attribute selector ends at a bracket**, and nothing in it opens or closes anything. -/
theorem takes_attribute {a : AttributeSelector} (h : takeAttribute ts = .ok (a, r)) :
    ∃ us l, ts = us ++ l :: r ∧ Each Inner us ∧ l.token = .closeBracket := by
  have hclose {vs : List Lexeme} (hvs : Takes (Each Inner) ts vs) (hpeek : peek vs = .closeBracket) :
      ∃ us l, ts = us ++ l :: vs.tail ∧ Each Inner us ∧ l.token = .closeBracket := by
    obtain ⟨us, hts, hus⟩ := hvs
    obtain ⟨l, hl, htoken⟩ := eq_cons_of_peek hpeek nofun
    exact ⟨us, l, by rw [← hl, ← hts], hus, htoken⟩
  unfold takeAttribute at h
  dsimp only at h
  split at h
  · rename_i hname
    have hafter := (((takes_skipSpace ts).each_trans (takes_tail hname .ident)).each_trans
      (takes_skipSpace (skipSpace ts).tail)).inner
    split at h
    · rename_i hpeek
      cases h
      exact hclose hafter hpeek
    · obtain ⟨⟨c, us⟩, hc, h⟩ := read_bind h
      have hvalue := (hafter.each_trans (takes_comparison hc).inner).each_trans (takes_skipSpace us).inner
      have hend {t : Token} (hpeek : peek (skipSpace us) = t) (ht : Inner t) {b : Bool} {vs : List Lexeme}
          (hflag : takeFlag (skipSpace (skipSpace us).tail) = .ok (b, vs)) (hpeek' : peek vs = .closeBracket) :=
        hclose (((hvalue.each_trans (takes_tail hpeek ht)).each_trans (takes_skipSpace _).inner).each_trans
          (takes_flag hflag).inner) hpeek'
      dsimp only at h
      split at h
      · rename_i hpeek
        obtain ⟨⟨b, vs⟩, hflag, h⟩ := read_bind h
        dsimp only at h
        split at h
        · rename_i hpeek'
          cases h
          exact hend hpeek (.loose .ident) hflag hpeek'
        · cases h
      · rename_i hpeek
        obtain ⟨⟨b, vs⟩, hflag, h⟩ := read_bind h
        dsimp only at h
        split at h
        · rename_i hpeek'
          cases h
          exact hend hpeek .string hflag hpeek'
        · cases h
      · cases h
  · cases h

/-! ## Pseudo-classes -/

/-- A closing token ends the argument of a function. -/
theorem takes_arguments {depth : Nat} {us : List Lexeme} (h : takeArguments depth ts = .ok (us, r)) :
    ∃ l, ts = us ++ l :: r ∧ l.token.closesBlock = true := by
  induction ts generalizing depth us with
  | nil => cases h
  | cons l ts ih =>
    rw [takeArguments] at h
    split at h
    · cases h
    · split at h
      · rename_i hclose
        cases h
        exact ⟨l, rfl, (Bool.and_eq_true _ _ ▸ hclose).1⟩
      · obtain ⟨⟨vs, r'⟩, hvs, h⟩ := read_bind h
        cases h
        obtain ⟨l', hts, hl'⟩ := ih hvs
        exact ⟨l', congrArg (l :: ·) hts, hl'⟩

theorem nthOf_eq {n : Nth} (h : nthOf source us = .ok n) : Nth.parse? (textOf source us) = some n := by
  unfold nthOf at h
  dsimp only at h
  split at h
  · rename_i hn
    cases h
    exact hn
  · cases h

/-- Whether a token is the word `of`. -/
def isOf : Token → Bool
  | .ident word => eqIgnoreCase word "of"
  | _ => false

theorem cutAtOf_cons (l : Lexeme) (us : List Lexeme) :
    cutAtOf (l :: us) =
      if isOf l.token then some ([], us) else (cutAtOf us).map fun r => (l :: r.1, r.2) := rfl

theorem loose_of_isOf (h : isOf t = true) : Loose t := by
  unfold isOf at h
  split at h
  · exact .ident
  · cases h

theorem cutAtOf_eq {before after : List Lexeme} (h : cutAtOf us = some (before, after)) :
    ∃ l, us = before ++ l :: after ∧ isOf l.token = true := by
  induction us generalizing before with
  | nil => cases h
  | cons l us ih =>
    rw [cutAtOf_cons] at h
    split at h
    · rename_i hof
      cases h
      exact ⟨l, rfl, hof⟩
    · obtain ⟨⟨before', after'⟩, hcut, heq⟩ := Option.map_eq_some_iff.1 h
      cases heq
      obtain ⟨l', hus, hof⟩ := ih hcut
      exact ⟨l', congrArg (l :: ·) hus, hof⟩

/-- What is read as a list is balanced. -/
def ReadsBalanced (source : List Char) (nested : List Lexeme → Read SelectorList) : Prop :=
  ∀ us list, nested us = .ok list → (∀ l ∈ us, l.token ≠ .endOfInput) → Balanced source true us

/-- The positions of a child, among all its siblings or among those of a list. -/
def takePositions (source : List Char) (nested : List Lexeme → Read SelectorList) (us : List Lexeme)
    (fromEnd : Bool) : Read Simple :=
  match cutAtOf us with
  | some (before, after) => do
    let n ← nthOf source before
    return .nthChildOf fromEnd n (← nested after)
  | none => return .nthChild fromEnd (← nthOf source us)

/-- **The argument of a function is balanced.** -/
theorem balanced_pseudoFunction (hnested : ReadsBalanced source nested) {name : String} {s : Simple}
    (h : pseudoFunction source nested name us = .ok s) (hus : ∀ l ∈ us, l.token ≠ .endOfInput) :
    Balanced source true us := by
  have hpositions {n : Nth} {vs : List Lexeme} (hn : nthOf source vs = .ok n) (hvs : ∀ l ∈ vs, l.token ≠ .endOfInput) :
      Balanced source true vs := by
    have : Balanced source true (vs ++ []) := .positions (nthOf_eq hn) hvs .nil
    rwa [List.append_nil] at this
  have hlist {f : SelectorList → Simple} (h : (nested us >>= fun list => pure (f list)) = .ok s) :
      Balanced source true us := by
    obtain ⟨list, hread, -⟩ := read_bind h
    exact hnested us list hread hus
  have hchild {fromEnd : Bool} (h : takePositions source nested us fromEnd = .ok s) : Balanced source true us := by
    unfold takePositions at h
    split at h
    · rename_i before after hcut
      obtain ⟨n, hn, h⟩ := read_bind h
      obtain ⟨list, hread, -⟩ := read_bind h
      obtain ⟨l, rfl, hof⟩ := cutAtOf_eq hcut
      refine (hpositions hn fun x hx => hus x (List.mem_append_left _ hx)).append (.loose (loose_of_isOf hof)
        (hnested after list hread fun x hx => hus x ?_))
      exact List.mem_append_right _ (List.mem_cons_of_mem _ hx)
    · obtain ⟨n, hn, -⟩ := read_bind h
      exact hpositions hn hus
  have hnth {f : Nth → Simple} (h : (nthOf source us >>= fun n => pure (f n)) = .ok s) : Balanced source true us := by
    obtain ⟨n, hn, -⟩ := read_bind h
    exact hpositions hn hus
  unfold pseudoFunction at h
  dsimp only at h
  split at h
  · exact hlist h
  · exact hlist h
  · exact hlist h
  · exact hlist h
  · exact hlist h
  · exact hchild h
  · exact hchild h
  · exact hnth h
  · exact hnth h
  all_goals cases h

theorem not_endOfInput_of_takeArguments {depth : Nat} (h : takeArguments depth ts = .ok (us, r)) :
    ∀ l ∈ us, l.token ≠ .endOfInput := by
  induction ts generalizing depth us with
  | nil => cases h
  | cons l ts ih =>
    rw [takeArguments] at h
    split at h
    · cases h
    · rename_i hend
      split at h
      · cases h
        simp
      · obtain ⟨⟨vs, r'⟩, hvs, h⟩ := read_bind h
        cases h
        refine List.forall_mem_cons.2 ⟨fun heq => hend ?_, ih hvs⟩
        rw [heq]
        rfl

theorem mem_pseudoNames_of_named {name : String} {s : Simple} (h : pseudoNamed name = .ok s) : name ∈ pseudoNames := by
  have hclass {p : PseudoClass} (hp : PseudoClass.ofName? name = some p) : name ∈ pseudoNames := by
    unfold PseudoClass.ofName? at hp
    split at hp
    · rename_i hlink
      rw [hlink]
      exact List.mem_cons_self
    · have hname := List.find?_some hp
      rw [← of_decide_eq_true hname]
      exact List.mem_append_left _ (List.mem_cons_of_mem _ (List.mem_map_of_mem (List.mem_of_find?_eq_some hp)))
  unfold pseudoNamed at h
  split at h
  · exact hclass ‹_›
  all_goals first
    | decide
    | cases h

theorem mem_pseudoNames_of_function {name : String} {s : Simple} (h : pseudoFunction source nested name us = .ok s) :
    name ∈ pseudoNames := by
  unfold pseudoFunction at h
  dsimp only at h
  split at h
  all_goals first
    | decide
    | cases h

/-- **A colon stands before a pseudo-class that is read.** -/
theorem takes_pseudo (hnested : ReadsBalanced source nested) (hcolon : peek ts = .colon) {s : Simple}
    (h : takePseudo source nested ts.tail = .ok (s, r)) : Takes (Balanced source commas) ts r := by
  obtain ⟨c, hc, hctoken⟩ := eq_cons_of_peek hcolon nofun
  unfold takePseudo at h
  split at h
  · split at h <;> cases h
  · rename_i hname
    obtain ⟨p, hp, h⟩ := read_bind h
    cases h
    obtain ⟨l, hl, hltoken⟩ := eq_cons_of_peek hname nofun
    refine ⟨[c, l], ?_, .pseudo hctoken hltoken (mem_pseudoNames_of_named hp) .nil⟩
    rw [hc, hl]
    rfl
  · rename_i hname
    obtain ⟨⟨us, rest⟩, hus, h⟩ := read_bind h
    obtain ⟨s', hs, h⟩ := read_bind h
    cases h
    obtain ⟨l, hts, hclose⟩ := takes_arguments hus
    obtain ⟨f, hf, hfunction⟩ := eq_cons_of_peek hname nofun
    refine ⟨c :: f :: (us ++ [l]), ?_, .function hctoken hfunction (mem_pseudoNames_of_function hs) ?_ hclose .nil⟩
    · rw [hc, hf, hts]
      simp
    · exact balanced_pseudoFunction hnested hs (not_endOfInput_of_takeArguments hus)
  · cases h

/-! ## Compounds, complex selectors and lists -/

theorem takes_simple (hnested : ReadsBalanced source nested) {s : Simple}
    (h : takeSimple source nested ts = .ok (some (s, r))) : Takes (Balanced source commas) ts r := by
  unfold takeSimple at h
  split at h
  · rename_i hid
    cases h
    exact (takes_tail hid .hash).balanced
  · rename_i hdot
    split at h
    · rename_i hname
      cases h
      exact ((takes_tail hdot (.delim (by decide))).each_trans (takes_tail hname .ident)).balanced
    · cases h
  · rename_i hopen
    obtain ⟨⟨a, rest⟩, ha, h⟩ := read_bind h
    cases h
    obtain ⟨us, l, hts, hus, hclose⟩ := takes_attribute ha
    obtain ⟨o, ho, hbracket⟩ := eq_cons_of_peek hopen nofun
    refine ⟨o :: (us ++ [l]), ?_, .bracketed hbracket hus hclose .nil⟩
    rw [ho, hts]
    simp
  · rename_i hcolon
    obtain ⟨⟨s', rest⟩, hs, h⟩ := read_bind h
    cases h
    exact takes_pseudo hnested hcolon hs
  · cases h

theorem takes_simples (hnested : ReadsBalanced source nested) {limit : Nat} {ss : List Simple}
    (h : takeSimples source nested limit ts = .ok (ss, r)) : Takes (Balanced source commas) ts r := by
  induction limit generalizing ts ss with
  | zero =>
    cases h
    exact takes_nil _
  | succ limit ih =>
    rw [takeSimples] at h
    obtain ⟨found, hfound, h⟩ := read_bind h
    split at h
    · cases h
      exact takes_nil _
    · obtain ⟨⟨ss', rest⟩, hss, h⟩ := read_bind h
      cases h
      exact (takes_simple hnested hfound).trans (ih hss)

theorem takes_type (ts : List Lexeme) : Takes (Each Loose) ts (takeType ts).2 := by
  unfold takeType
  split
  · exact takes_tail ‹_› .ident
  · exact takes_tail ‹_› (.delim (by decide))
  · exact ⟨[], rfl, by simp [Each]⟩

theorem takes_compound (hnested : ReadsBalanced source nested) {ss : List Simple}
    (h : takeCompound source nested ts = .ok (ss, r)) : Takes (Balanced source commas) ts r := by
  have htype := takes_type ts
  unfold takeCompound at h
  generalize takeType ts = found at h htype
  obtain ⟨types, rest⟩ := found
  dsimp only at h htype
  split at h
  · cases h
  · obtain ⟨⟨ss', rest'⟩, hss, h⟩ := read_bind h
    cases h
    exact htype.balanced.trans (takes_simples hnested hss)

theorem takes_subject (hnested : ReadsBalanced source nested) {ss : List Simple}
    (h : takeSubject source nested ts = .ok (ss, r)) : Takes (Balanced source commas) ts r := by
  unfold takeSubject at h
  obtain ⟨found, hfound, h⟩ := read_bind h
  split at h
  · cases h
  · cases h
    exact takes_compound hnested hfound

theorem takes_combinator {c : Combinator} (h : takeCombinator ts = .ok (some (c, r))) : Takes (Each Loose) ts r := by
  have hskip := takes_skipSpace ts
  have hsign {d : Char} (hd : peek (skipSpace ts) = .delim d) (hne : d ≠ '\\') :
      Takes (Each Loose) ts (skipSpace (skipSpace ts).tail) :=
    (hskip.each_trans (takes_tail hd (.delim hne))).each_trans (takes_skipSpace _)
  unfold takeCombinator at h
  dsimp only at h
  split at h
  · cases h
    exact hsign ‹_› (by decide)
  · cases h
    exact hsign ‹_› (by decide)
  · cases h
    exact hsign ‹_› (by decide)
  · split at h
    · cases h
    · split at h
      · cases h
        exact hskip
      · cases h

theorem takes_joined (hnested : ReadsBalanced source nested) {limit : Nat} {left c : Complex}
    (h : takeJoined source nested limit left ts = .ok (c, r)) : Takes (Balanced source commas) ts r := by
  induction limit generalizing ts left with
  | zero =>
    cases h
    exact takes_nil _
  | succ limit ih =>
    rw [takeJoined] at h
    obtain ⟨found, hfound, h⟩ := read_bind h
    split at h
    · cases h
      exact (takes_skipSpace ts).balanced
    · obtain ⟨⟨ss, rest⟩, hss, h⟩ := read_bind h
      exact ((takes_combinator hfound).balanced.trans (takes_subject hnested hss)).trans (ih h)

/-- **A complex selector takes balanced tokens without commas.** -/
theorem takes_complex (hnested : ReadsBalanced source nested) {c : Complex}
    (h : takeComplex source nested ts = .ok (c, r)) : Takes (Balanced source false) ts r := by
  unfold takeComplex at h
  obtain ⟨found, hfound, h⟩ := read_bind h
  split at h
  · cases h
  · exact ((takes_skipSpace ts).balanced.trans (takes_compound hnested hfound)).trans (takes_joined hnested h)

theorem takes_more (hnested : ReadsBalanced source nested) {limit : Nat} {cs : SelectorList}
    (h : takeMore source nested limit ts = .ok (cs, r)) : Takes (Balanced source true) ts r := by
  induction limit generalizing ts cs with
  | zero =>
    cases h
    exact takes_nil _
  | succ limit ih =>
    rw [takeMore] at h
    split at h
    · rename_i hcomma
      obtain ⟨⟨c, rest⟩, hc, h⟩ := read_bind h
      obtain ⟨⟨cs', rest'⟩, hcs, h⟩ := read_bind h
      cases h
      obtain ⟨l, hl, htoken⟩ := eq_cons_of_peek hcomma nofun
      obtain ⟨us, hts, hus⟩ := (((takes_complex hnested hc).mono fun _ hus => hus.withCommas).trans (ih hcs))
      exact ⟨l :: us, by rw [hl, hts]; rfl, .comma htoken hus⟩
    · cases h
      exact takes_nil _

theorem readsBalanced_takeAll (hnested : ReadsBalanced source nested) :
    ReadsBalanced source (takeAll source nested) := by
  intro us list h hend
  unfold takeAll at h
  obtain ⟨⟨c, rest⟩, hc, h⟩ := read_bind h
  obtain ⟨⟨cs, rest'⟩, hcs, h⟩ := read_bind h
  dsimp only at h
  split at h
  · rename_i hpeek
    obtain ⟨vs, hus, hvs⟩ := ((takes_complex hnested hc).mono fun _ hus => hus.withCommas).trans (takes_more hnested hcs)
    have hnil : rest' = [] := by
      cases rest' with
      | nil => rfl
      | cons l rest' =>
        refine absurd hpeek (hend l ?_)
        rw [hus]
        simp
    rw [hus, hnil, List.append_nil]
    exact hvs
  · cases h

/-- **What is read as a list is balanced**, however deep lists are in it. -/
theorem readsBalanced_takeNested (source : List Char) (depth : Nat) :
    ReadsBalanced source (takeNested source depth) := by
  induction depth with
  | zero =>
    intro us list h
    cases h
  | succ depth ih => exact readsBalanced_takeAll ih

end LiveMarkup.Css.Selector
