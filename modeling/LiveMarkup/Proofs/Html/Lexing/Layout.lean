/-
Where the tokens of a text stand.

The tokens of markup follow one another in the text without overlap (`laid_tokens`). Between two of them
the lexer is in text: every tag begins at a `<` that is read in text and ends at a `>` after which the
lexer is in text again (`occurs_of_tokens`). So a text can be cut before or after any of its tags.
-/
import LiveMarkup.Proofs.Html.Lexing.Run

set_option autoImplicit false

namespace LiveMarkup.Html

open Text

/-! ## How far a run has come -/

theorem Moves.refl (l : Lexer) : Moves l l := ⟨[], rfl, rfl⟩

theorem Moves.trans {l m n : Lexer} (h : Moves l m) (k : Moves m n) : Moves l n := by
  obtain ⟨xs, hr, ho⟩ := h
  obtain ⟨ys, kr, ko⟩ := k
  refine ⟨xs ++ ys, ?_, ?_⟩
  · rw [hr, kr, List.append_assoc]
  · rw [ko, ho, byteLength_append, Nat.add_assoc]

theorem Moves.length_le {l m : Lexer} (h : Moves l m) : m.rest.length ≤ l.rest.length := by
  obtain ⟨eaten, hr, -⟩ := h
  rw [hr, List.length_append]
  omega

/-- Whether a token is a tag. -/
def Token.isTag : Token → Bool
  | .startTag _ _ _ _ | .endTag _ _ => true
  | _ => false

namespace Lexer

/-- A step that goes on moves on in the text. -/
theorem moves_step {l m : Lexer} (h : l.step.next = some m) : Moves l m := by
  have ha := step_anatomy l
  generalize l.step = s at h ha
  cases ha with
  | finish => exact absurd h nofun
  | cut => exact absurd h nofun
  | draft start n errors hs hl hm => exact Option.some.inj h ▸ hm
  | text cs n errors hs hm => exact Option.some.inj h ▸ hm
  | startTag start name sc attributes rest errors hs hr =>
    obtain rfl := Option.some.inj h
    exact ⟨['>'], hr, rfl⟩
  | other start token rest errors hs hr =>
    obtain rfl := Option.some.inj h
    exact ⟨['>'], hr, rfl⟩

theorem Reads.moves {l m : Lexer} {ts : List Token} (h : Reads l ts m) : Moves l m := by
  induction h with
  | refl l => exact .refl l
  | step hs _ ih => exact (moves_step hs).trans ih

/-- The tokens end with the end of the text, at its length. -/
theorem tokens_end (l : Lexer) :
    ∃ ts, l.tokens = ts ++ [.endOfFile (l.offset + byteLength l.rest)] ∧ ∀ n, .endOfFile n ∉ ts := by
  -- by induction on the run: only the last step reports the end
  induction l using tokens.induct with
  | case1 l h =>
    rw [tokens_of_none h]
    have ha := step_anatomy l
    generalize l.step = s at h ha
    cases ha with
    | finish cs errors hr =>
      rw [hr]
      exact ⟨_, rfl, by simp⟩
    | cut start token errors hr hs ht haside =>
      rw [hr]
      refine ⟨[token], rfl, ?_⟩
      rintro n hn
      rw [← List.mem_singleton.1 hn] at haside
      exact absurd haside nofun
    | draft => exact absurd h nofun
    | text => exact absurd h nofun
    | startTag => exact absurd h nofun
    | other => exact absurd h nofun
  | case2 l m h ih =>
    obtain ⟨ts, ht, hn⟩ := ih
    obtain ⟨eaten, hr, ho⟩ := moves_step h
    have hend : m.offset + byteLength m.rest = l.offset + byteLength l.rest := by
      rw [hr, ho, byteLength_append, Nat.add_assoc]
    refine ⟨l.step.tokens ++ ts, by rw [tokens_of_some h, ht, hend, List.append_assoc], ?_⟩
    intro n hmem
    rcases List.mem_append.1 hmem with hmem | hmem
    · have ha := step_anatomy l
      generalize l.step = s at h ha hmem
      cases ha with
      | finish => exact absurd h nofun
      | cut => exact absurd h nofun
      | draft => exact absurd hmem nofun
      | text cs => simp at hmem
      | startTag => simp at hmem
      | other start token rest errors hs hr ht hkind =>
        rw [← List.mem_singleton.1 hmem] at hkind
        rcases hkind with hkind | ⟨name, span, hkind⟩
        · exact absurd hkind nofun
        · exact absurd hkind nofun
    · exact hn n hmem

/-- A token of a run is reported by one of its steps. -/
theorem reads_of_mem {l : Lexer} {t : Token} (h : t ∈ l.tokens) : ∃ ts m, Reads l ts m ∧ t ∈ m.step.tokens := by
  induction l using tokens.induct with
  | case1 l hnext =>
    rw [tokens_of_none hnext] at h
    exact ⟨[], l, .refl l, h⟩
  | case2 l m hnext ih =>
    rw [tokens_of_some hnext] at h
    rcases List.mem_append.1 h with h | h
    · exact ⟨[], l, .refl l, h⟩
    · obtain ⟨ts, n, hreads, hreport⟩ := ih h
      exact ⟨_, n, .step hnext hreads, hreport⟩

/-! ## Tokens in order -/

/-- The tokens stand in order in the text, from an offset on. -/
def Laid : Nat → List Token → Prop
  | _, [] => True
  | lo, token :: rest =>
    match token.span? with
    | none => Laid lo rest
    | some span => lo ≤ span.start ∧ span.start ≤ span.stop ∧
        (token.isEndOfFile = false → span.start < span.stop) ∧ Laid span.stop rest

/-- The first offset at which a token can begin that is not reported yet. -/
def reach (l : Lexer) : Nat := l.state.start?.getD l.offset

/-- What is being read began before. -/
def Behind (l : Lexer) : Prop := ∀ start, l.state.start? = some start → start < l.offset

theorem laid_mono {lo lo' : Nat} {ts : List Token} (h : lo' ≤ lo) (hl : Laid lo ts) : Laid lo' ts := by
  induction ts with
  | nil => trivial
  | cons token rest ih =>
    unfold Laid at hl ⊢
    split
    · rename_i hs
      rw [hs] at hl
      exact ih hl
    · rename_i hs
      rw [hs] at hl
      exact ⟨Nat.le_trans h hl.1, hl.2⟩

theorem laid_characters {lo : Nat} (cs : List Char) {ts : List Token} :
    Laid lo (cs.map .character ++ ts) ↔ Laid lo ts := by
  induction cs with
  | nil => rfl
  | cons c cs ih => exact ih

theorem behind_step {l m : Lexer} (hl : Behind l) (h : l.step.next = some m) : Behind m := by
  have hmoves := moves_step h
  have ha := step_anatomy l
  generalize l.step = s at h ha
  -- a draft lies behind as soon as something of it was read
  cases ha with
  | finish => cases h
  | cut => cases h
  | draft start n errors hs hstart hm =>
    obtain rfl := Option.some.inj h
    obtain ⟨eaten, hr, ho⟩ := hmoves
    intro start' hstart'
    obtain rfl := Option.some.inj (hs.symm.trans hstart')
    rcases hstart with hstart | ⟨rfl, -, -, hne⟩
    · have := hl _ hstart
      omega
    · have heaten : eaten ≠ [] := by
        rintro rfl
        exact hne hr
      obtain ⟨c, cs, rfl⟩ := List.exists_cons_of_ne_nil heaten
      have := c.utf8Size_pos
      rw [byteLength] at ho
      omega
  | text cs n errors hs hm =>
    obtain rfl := Option.some.inj h
    intro start hstart
    rw [hs] at hstart
    cases hstart
  | startTag =>
    obtain rfl := Option.some.inj h
    exact fun start hstart => by cases hstart
  | other =>
    obtain rfl := Option.some.inj h
    exact fun start hstart => by cases hstart

theorem reach_le_offset {l : Lexer} (hl : Behind l) : l.reach ≤ l.offset := by
  unfold reach
  cases hs : l.state.start? with
  | none => exact Nat.le_refl _
  | some start => exact Nat.le_of_lt (hl _ hs)

/-- **The tokens of markup stand in the text in order and do not overlap.** -/
theorem laid_tokens {l : Lexer} (hl : Behind l) : Laid l.reach l.tokens := by
  -- the run is cut after its first step, whose tokens end where the rest of the run begins
  induction l using tokens.induct with
  | case1 l h =>
    rw [tokens_of_none h]
    have ha := step_anatomy l
    generalize l.step = s at h ha
    have hreach := reach_le_offset hl
    cases ha with
    | finish cs errors hr => exact (laid_characters cs).2 ⟨hreach, Nat.le_refl _, nofun, trivial⟩
    | cut start token errors hr hs ht =>
      have hlt := hl _ hs
      have hreach : l.reach = start := by rw [reach, hs]; rfl
      simp only [Laid, ht, hreach]
      exact ⟨Nat.le_refl _, Nat.le_of_lt hlt, fun _ => hlt, Nat.le_refl _, Nat.le_refl _, nofun, trivial⟩
    | draft => exact absurd h nofun
    | text => exact absurd h nofun
    | startTag => exact absurd h nofun
    | other => exact absurd h nofun
  | case2 l m h ih =>
    have ih := ih (behind_step hl h)
    have hmoves := moves_step h
    rw [tokens_of_some h]
    have ha := step_anatomy l
    generalize l.step = s at h ha
    have hoffset : l.offset ≤ m.offset := by
      obtain ⟨eaten, -, ho⟩ := hmoves
      omega
    cases ha with
    | finish => exact absurd h nofun
    | cut => exact absurd h nofun
    | draft start n errors hs hstart hm =>
      obtain rfl := Option.some.inj h
      have hm : n.reach = start := by rw [reach, hs]; rfl
      -- a draft goes on from where it began, or begins here
      have hl : l.reach = start := by
        rcases hstart with hstart | ⟨hstart, -, htext, -⟩
        · rw [reach, hstart]; rfl
        · rw [reach, htext]; exact hstart
      rw [hl, ← hm]
      exact ih
    | text cs n errors hs hm =>
      obtain rfl := Option.some.inj h
      have hn : n.reach = n.offset := by rw [reach, hs]; rfl
      rw [laid_characters]
      refine laid_mono ?_ ih
      rw [hn]
      exact Nat.le_trans (reach_le_offset hl) hoffset
    | startTag start name sc attributes rest errors hs hr =>
      obtain rfl := Option.some.inj h
      have hlt := hl _ hs
      have hreach : l.reach = start := by rw [reach, hs]; rfl
      rw [hreach]
      exact ⟨Nat.le_refl _, by change start ≤ l.offset + 1; omega,
        fun _ => by change start < l.offset + 1; omega, ih⟩
    | other start token rest errors hs hr ht =>
      obtain rfl := Option.some.inj h
      have hlt := hl _ hs
      have hreach : l.reach = start := by rw [reach, hs]; rfl
      simp only [List.singleton_append, Laid, ht, hreach]
      exact ⟨Nat.le_refl _, by omega, fun _ => by omega, ih⟩

/-! ## Where a tag begins and ends -/

/-- A tag occurs in the text of a lexer after some tokens: `m` is at its `<`, `k` at its `>`, and `n`
reads the text after it. -/
structure Occurs (l : Lexer) (before : List Token) (token : Token) (m k n : Lexer) : Prop where
  reads : Reads l before m
  begins : m.state = .text m.state.content ∧ m.rest.head? = some '<'
  inside : Reads m [] k
  ends : k.rest = '>' :: n.rest
  reports : k.step.tokens = [token]
  next : k.step.next = some n
  span : token.span? = some ⟨m.offset, n.offset⟩
  state : n.state = .text n.state.content
  content : ∀ name selfClosing attributes span, token = .startTag name selfClosing attributes span →
    n.lastStart = some name ∧ n.state.content = if selfClosing then .markup else Content.ofElement name
  closing : ∀ name span, token = .endTag name span → n.state.content = .markup

theorem split_characters {cs : List Char} {ts before after : List Token} {token : Token}
    (h : cs.map .character ++ ts = before ++ token :: after) (ht : token.span? ≠ none) :
    ∃ rest, before = cs.map .character ++ rest ∧ ts = rest ++ token :: after := by
  induction cs generalizing before with
  | nil => exact ⟨before, rfl, h⟩
  | cons c cs ih =>
    cases before with
    | nil =>
      obtain ⟨rfl, -⟩ := List.cons.inj h
      exact absurd rfl ht
    | cons b before =>
      obtain ⟨rfl, htail⟩ := List.cons.inj h
      obtain ⟨rest, rfl, hts⟩ := ih htail
      exact ⟨rest, rfl, hts⟩

/-- **A tag begins and ends in text.** Every tag among the tokens of a text occurs in the text, and the
tokens after it are those of the text after it. -/
theorem occurs_of_tokens {o : Lexer} (ho : o.state.start? = none) {before after : List Token} {token : Token}
    (h : o.tokens = before ++ token :: after) (ht : token.isTag = true) :
    ∃ m k n, Occurs o before token m k n ∧ after = n.tokens := by
  have hspan : token.span? ≠ none := by
    intro hs
    cases token <;> first | exact absurd ht Bool.false_ne_true | exact absurd hs (Option.some_ne_none _)
  have hend : ∀ n, token ≠ .endOfFile n := by
    rintro n rfl
    exact absurd ht nofun
  -- in the middle of the run, `m` is where the tag began that is being read
  suffices ∀ (l : Lexer) (done : List Token), Reads o done l →
      (∀ start, l.state.start? = some start → ∃ m : Lexer, Reads o done m ∧ Reads m [] l ∧ m.offset = start ∧
        m.state = .text m.state.content ∧ m.rest.head? = some '<') →
      ∀ before, l.tokens = before ++ token :: after →
        ∃ m k n, Occurs o (done ++ before) token m k n ∧ after = n.tokens from
    this o [] (.refl o) (fun start hs => absurd (ho.symm.trans hs) nofun) before h
  intro l
  induction l using tokens.induct with
  | case1 l h =>
    intro done _ _ before hts
    rw [tokens_of_none h] at hts
    have ha := step_anatomy l
    generalize l.step = s at h ha hts
    cases ha with
    | finish cs errors hr =>
      obtain ⟨rest, -, hrest⟩ := split_characters hts hspan
      cases rest with
      | nil => exact absurd (List.cons.inj hrest).1.symm (hend _)
      | cons t rest => exact absurd (congrArg List.length (List.cons.inj hrest).2) (by simp)
    | cut start t errors hr hs _ haside =>
      have hmem : token ∈ before ++ token :: after := by simp
      rw [← hts] at hmem
      rcases List.mem_cons.1 hmem with rfl | hmem
      · cases token <;> first | exact absurd ht Bool.false_ne_true | exact absurd haside Bool.false_ne_true
      · exact absurd (List.mem_singleton.1 hmem) (hend _)
    | draft => exact absurd h nofun
    | text => exact absurd h nofun
    | startTag => exact absurd h nofun
    | other => exact absurd h nofun
  | case2 l next h ih =>
    intro done hdone hentry before hts
    have hstep := hdone.trans (.one h rfl)
    rw [tokens_of_some h] at hts
    have ha := step_anatomy l
    generalize hl : l.step = s at h ha hts hstep
    cases ha with
    | finish => exact absurd h nofun
    | cut => exact absurd h nofun
    | draft start m errors hs hstart hm =>
      obtain rfl := Option.some.inj h
      rw [List.append_nil] at hstep
      refine ih done hstep ?_ before hts
      intro start' hs'
      obtain rfl := Option.some.inj (hs.symm.trans hs')
      have hone : Reads l [] m := .one (by rw [hl]) (by rw [hl])
      rcases hstart with hstart | ⟨hoff, hhead, htext, -⟩
      · obtain ⟨m', h1, h2, h3⟩ := hentry _ hstart
        exact ⟨m', h1, h2.trans hone, h3⟩
      · exact ⟨l, hdone, hone, hoff, htext, hhead⟩
    | text cs m errors hs hm =>
      obtain rfl := Option.some.inj h
      obtain ⟨rest, rfl, hrest⟩ := split_characters hts hspan
      obtain ⟨m', k, n, hocc, hafter⟩ := ih _ hstep (fun _ hs' => absurd (hs.symm.trans hs') nofun) rest hrest
      rw [List.append_assoc] at hocc
      exact ⟨m', k, n, hocc, hafter⟩
    | startTag start name sc attributes rest errors hs hr =>
      obtain rfl := Option.some.inj h
      obtain ⟨m, hm, hml, hoff, htext, hhead⟩ := hentry _ hs
      cases before with
      | nil =>
        obtain ⟨rfl, rfl⟩ := List.cons.inj hts
        rw [List.append_nil]
        refine ⟨m, l, _, ⟨hm, ⟨htext, hhead⟩, hml, hr, by rw [hl], by rw [hl], by rw [hoff]; rfl, rfl, ?_, nofun⟩,
          rfl⟩
        intro name' sc' attributes' span' heq
        obtain ⟨rfl, rfl, -⟩ := Token.startTag.inj heq
        exact ⟨rfl, rfl⟩
      | cons t before =>
        obtain ⟨rfl, htail⟩ := List.cons.inj hts
        obtain ⟨m', k, n, hocc, hafter⟩ := ih _ hstep (fun _ hs' => absurd hs' nofun) before htail
        rw [List.append_assoc] at hocc
        exact ⟨m', k, n, hocc, hafter⟩
    | other start t rest errors hs hr hsp hkind =>
      obtain rfl := Option.some.inj h
      obtain ⟨m, hm, hml, hoff, htext, hhead⟩ := hentry _ hs
      cases before with
      | nil =>
        obtain ⟨rfl, rfl⟩ := List.cons.inj hts
        rw [List.append_nil]
        refine ⟨m, l, _, ⟨hm, ⟨htext, hhead⟩, hml, hr, by rw [hl], by rw [hl], by rw [hoff]; exact hsp, rfl, ?_,
          fun _ _ _ => rfl⟩, rfl⟩
        rintro name' sc' attributes' span' rfl
        rcases hkind with hkind | ⟨_, _, hkind⟩
        · exact absurd hkind nofun
        · exact absurd hkind nofun
      | cons t' before =>
        obtain ⟨rfl, htail⟩ := List.cons.inj hts
        obtain ⟨m', k, n, hocc, hafter⟩ := ih _ hstep (fun _ hs' => absurd hs' nofun) before htail
        rw [List.append_assoc] at hocc
        exact ⟨m', k, n, hocc, hafter⟩

end Lexer

end LiveMarkup.Html
