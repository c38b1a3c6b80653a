/-
The forms of a range.

What a feature is compared with stands before its name or behind it, or the name itself says that it is a bound. A value
is a single token or a ratio of two numbers (`exists_spelled`), so the parser, which cuts the tokens at the name, reads
the same comparison from all forms of it. `evaluate_range` states this for texts: each form is a query, and what it asks
for depends on the value alone.
-/
import LiveMarkup.Media.Parse
import LiveMarkup.Proofs.Css.Words

set_option autoImplicit false

namespace LiveMarkup.Media

open Css Text

variable {f : Feature} {v : Value} {ts us r : List Lexeme} {t : Token}

/-! ## Values -/

/-- Whether a value of a range is made of such tokens. -/
def isAmount : Token → Bool
  | .number _ | .dimension _ _ | .delim '/' => true
  | _ => false

/-- The value that a text stands for, when it is one of a feature and nothing else but white space stands beside it. -/
def valueOf? (f : Feature) (text : String) : Option Value :=
  match takeValue f ((lex text).filter (·.token != .space)) with
  | .ok (v, [_]) => some v
  | _ => none

theorem exists_cons_of_map_token {tokens : List Token} (h : ts.map Lexeme.token = t :: tokens) :
    ∃ l r, ts = l :: r ∧ l.token = t ∧ r.map Lexeme.token = tokens := by
  obtain ⟨l, r, rfl, hl, hr⟩ := List.map_eq_cons_iff.1 h
  exact ⟨l, r, rfl, hl, hr⟩

/-- The value of a single token. -/
def amount? (f : Feature) : Token → Option Value
  | .dimension n unit =>
    match f with
    | .width | .height => length? n.value unit.toLower
    | .resolution => resolution? n.value unit.toLower
    | _ => none
  | .number n =>
    match f with
    | .width | .height => if isZero n.value then some (.px 0) else none
    | .aspectRatio => some (.ratio n.value)
    | _ => none
  | _ => none

theorem value?_number {l : Lexeme} {n : Number} (hl : l.token = .number n) (hslash : peek r ≠ .delim '/') :
    value? .aspectRatio (l :: r) = some (.ratio n.value, r) := by
  unfold value?
  rw [List.map_cons, hl]
  cases r with
  | nil => rfl
  | cons m r =>
    rw [peek] at hslash
    split <;> simp_all

/-- **A value of one token is told by it**, unless a slash follows, with which a ratio may go on. -/
theorem value?_cons (hf : f.isRange = true) (l : Lexeme) (hslash : peek r ≠ .delim '/') :
    value? f (l :: r) = (amount? f l.token).map (·, r) := by
  obtain ⟨t, span⟩ := l
  cases t <;> cases f <;> cases hf
  case number.aspectRatio n => exact value?_number rfl hslash
  all_goals simp [value?, amount?, Feature.keywords]

/-- A value is one token or a ratio of two numbers. -/
theorem exists_of_value? (hf : f.isRange = true) (h : value? f ts = some (v, r)) :
    (∃ l, ts = l :: r ∧ amount? f l.token = some v) ∨
      ∃ l m k width height, ts = l :: m :: k :: r ∧ f = .aspectRatio ∧ l.token = .number width ∧
        m.token = .delim '/' ∧ k.token = .number height ∧ isZero height.value = false ∧
        v = .ratio (width.value / height.value) := by
  have hone {t : Token} {tokens : List Token} (hts : ts.map Lexeme.token = t :: tokens)
      {amount : Option Value} (h : amount.map (·, ts.drop 1) = some (v, r)) (hamount : amount? f t = amount) :
      ∃ l, ts = l :: r ∧ amount? f l.token = some v := by
    obtain ⟨l, ts, rfl, hl, -⟩ := exists_cons_of_map_token hts
    obtain ⟨v', hv, heq⟩ := Option.map_eq_some_iff.1 h
    obtain ⟨rfl, rfl⟩ := Prod.mk.inj heq
    exact ⟨l, rfl, by rw [hl, hamount, hv]⟩
  have hzero (n : Number) : (if isZero n.value = true then some (Value.px 0, ts.drop 1) else none) =
      (if isZero n.value = true then some (Value.px 0) else none).map (·, ts.drop 1) := by
    split <;> rfl
  unfold value? at h
  split at h
  · exact .inl (hone ‹_› h rfl)
  · exact .inl (hone ‹_› h rfl)
  · exact .inl (hone ‹_› ((hzero _).symm.trans h) rfl)
  · exact .inl (hone ‹_› ((hzero _).symm.trans h) rfl)
  · exact .inl (hone ‹_› h rfl)
  · rename_i width height tokens hts
    obtain ⟨l, ts, rfl, hl, hts⟩ := exists_cons_of_map_token hts
    obtain ⟨m, ts, rfl, hm, hts⟩ := exists_cons_of_map_token hts
    obtain ⟨k, ts, rfl, hk, -⟩ := exists_cons_of_map_token hts
    split at h
    · cases h
    · rename_i hheight
      obtain ⟨rfl, rfl⟩ := Prod.mk.inj (Option.some.inj h)
      exact .inr ⟨l, m, k, width, height, rfl, rfl, hl, hm, hk, Bool.not_eq_true _ ▸ hheight, rfl⟩
  · exact .inl (hone ‹_› (show (some _).map (·, ts.drop 1) = _ from h) rfl)
  · -- no feature of a range takes keywords
    rename_i g _ _ name tokens hts
    have hnone : g.keywords = [] := by cases g <;> first | rfl | cases hf
    rw [hnone] at h
    cases h
  · cases h

/-- Tokens that are read as a value of a feature wherever they stand, unless a slash follows. -/
structure Spelled (f : Feature) (v : Value) (tokens : List Token) : Prop where
  amounts : ∀ t ∈ tokens, isAmount t = true
  ne_nil : tokens ≠ []
  value : ∀ us r, us.map Lexeme.token = tokens → peek r ≠ .delim '/' → value? f (us ++ r) = some (v, r)

theorem isAmount_of_amount? (h : amount? f t = some v) : isAmount t = true := by
  unfold amount? at h
  split at h
  · rfl
  · rfl
  · cases h

/-- **What is read as a value is read so wherever it stands.** -/
theorem exists_spelled (hf : f.isRange = true) (h : value? f ts = some (v, r)) :
    ∃ us, ts = us ++ r ∧ Spelled f v (us.map Lexeme.token) := by
  rcases exists_of_value? hf h with ⟨l, rfl, hv⟩ | ⟨l, m, k, width, height, rfl, rfl, hl, hm, hk, hheight, rfl⟩
  · refine ⟨[l], rfl, by simpa using isAmount_of_amount? hv, by simp, fun us r' hus hslash => ?_⟩
    obtain ⟨l', us, rfl, hl', hus⟩ := exists_cons_of_map_token hus
    obtain rfl := List.map_eq_nil_iff.1 hus
    rw [List.singleton_append, value?_cons hf l' hslash, hl', hv]
    rfl
  · refine ⟨[l, m, k], rfl, by simp [hl, hm, hk, isAmount], by simp, fun us r' hus _ => ?_⟩
    obtain ⟨l', us, rfl, hl', hus⟩ := exists_cons_of_map_token hus
    obtain ⟨m', us, rfl, hm', hus⟩ := exists_cons_of_map_token hus
    obtain ⟨k', us, rfl, hk', hus⟩ := exists_cons_of_map_token hus
    obtain rfl := List.map_eq_nil_iff.1 hus
    simp [value?, hl', hm', hk', hl, hm, hk, hheight]

/-- **The words of a value stay when an ending follows it.** -/
theorem exists_words_of_value {text : String} (hf : f.isRange = true) (hfree : ¬ ['/', '*'] <:+: text.toList)
    (h : valueOf? f text = some v) :
    ∃ tokens, Spelled f v tokens ∧
      ∀ x, Ending x → x.head? ≠ some '*' → words (text.toList ++ x) = tokens ++ words x := by
  obtain ⟨ps, hps⟩ := exists_paves text.toList
  unfold valueOf? at h
  split at h
  · rename_i v' l hread
    obtain rfl := Option.some.inj h
    unfold takeValue at hread
    split at hread
    · rename_i hvalue
      obtain rfl := Except.ok.inj hread
      obtain ⟨us, hus, hspelled⟩ := exists_spelled hf hvalue
      have hwords : us.map Lexeme.token ++ [l.token] = (tokensOf ps).filter (· != .space) ++ [.endOfInput] := by
        rw [← words_of_paves hps, words, List.filter_map]
        exact (List.map_append.symm.trans (congrArg (List.map Lexeme.token) hus.symm))
      obtain ⟨htokens, -⟩ := List.append_inj' hwords rfl
      refine ⟨_, hspelled, fun x hx hstar => ?_⟩
      rw [htokens]
      refine words_append hps (firm_of_tokens hps hfree fun t ht => ?_) hx hstar
      by_cases hspace : t = .space
      · rw [hspace]
        exact ⟨Token.noConfusion, fun _ => Token.noConfusion⟩
      · have hamount := hspelled.amounts t (htokens ▸ List.mem_filter.2 ⟨ht, bne_space hspace⟩)
        constructor
        · rintro rfl
          cases hamount
        · rintro text rfl
          cases hamount
    · cases hread
  · cases h

theorem ok_bind {α β : Type} (a : α) (g : α → Read β) : (.ok a : Read α) >>= g = g a := rfl

/-! ## Relations -/

/-- The tokens of the sign of a relation. -/
def signOf (relation : Relation) : List Token := relation.sign.toList.map .delim

theorem words_sign (relation : Relation) (x : List Char) :
    words (' ' :: (relation.sign.toList ++ ' ' :: x)) = signOf relation ++ words x := by
  have hless (cs : List Char) : words ('<' :: cs) = .delim '<' :: words cs := words_of_next (by decide) rfl rfl
  have hequal (cs : List Char) : words ('=' :: cs) = .delim '=' :: words cs := words_of_next (by decide) rfl rfl
  have hgreater (cs : List Char) : words ('>' :: cs) = .delim '>' :: words cs := words_of_next (by decide) rfl rfl
  rw [words_space]
  cases relation <;> simp [Relation.sign, signOf, hless, hequal, hgreater, words_space]

/-- A relation is told by its sign, unless an equals sign follows, with which it may go on. -/
theorem takeRelation_of_sign {relation : Relation} (hus : us.map Lexeme.token = signOf relation)
    (hequal : peek ts ≠ .delim '=') : takeRelation (us ++ ts) = some (relation, ts) := by
  have htail : ∀ tokens, ts.map Lexeme.token ≠ .delim '=' :: tokens := fun tokens hts => by
    obtain ⟨l, ts, rfl, hl, -⟩ := exists_cons_of_map_token hts
    exact hequal hl
  unfold takeRelation
  rw [List.map_append, hus]
  have hlength := congrArg List.length hus
  rw [List.length_map] at hlength
  have hdrop : (us ++ ts).drop (signOf relation).length = ts := List.drop_left' hlength
  cases relation
  case lessOrEqual => exact congrArg (fun r => some (_, r)) hdrop
  case greaterOrEqual => exact congrArg (fun r => some (_, r)) hdrop
  case equal => exact congrArg (fun r => some (_, r)) hdrop
  case less =>
    change (us ++ ts).drop 1 = ts at hdrop
    simp [signOf, Relation.sign, hdrop]
  case greater =>
    change (us ++ ts).drop 1 = ts at hdrop
    simp [signOf, Relation.sign, hdrop]

theorem Spelled.takeValue {tokens : List Token} (h : Spelled f v tokens) (hus : us.map Lexeme.token = tokens)
    (hslash : peek r ≠ .delim '/') : takeValue f (us ++ r) = .ok (v, r) := by
  rw [Media.takeValue, h.value us r hus hslash]

theorem peek_append_of_map_token {tokens : List Token} (hus : us.map Lexeme.token = tokens) (hne : tokens ≠ [])
    (h : t ∉ tokens) : peek (us ++ r) ≠ t := by
  cases us with
  | nil => exact absurd hus.symm hne
  | cons l us =>
    rintro rfl
    exact h (hus ▸ List.mem_cons_self)

theorem comparisonBefore_eq {tokens : List Token} {relation : Relation} {ws : List Lexeme} (h : Spelled f v tokens)
    (hus : us.map Lexeme.token = tokens) (hws : ws.map Lexeme.token = signOf relation) :
    comparisonBefore f (us ++ ws) = .ok (relation.flip, v) := by
  have hslash : peek (ws ++ []) ≠ .delim '/' := by
    refine peek_append_of_map_token hws ?_ ?_ <;> cases relation <;> simp [signOf, Relation.sign]
  have hrelation : takeRelation (ws ++ []) = some (relation, []) := takeRelation_of_sign hws nofun
  rw [List.append_nil] at hslash hrelation
  rw [comparisonBefore, h.takeValue hus hslash, ok_bind]
  dsimp only
  rw [hrelation]
  rfl

theorem comparisonAfter_eq {tokens : List Token} {relation : Relation} {ws : List Lexeme} (h : Spelled f v tokens)
    (hus : us.map Lexeme.token = tokens) (hws : ws.map Lexeme.token = signOf relation) :
    comparisonAfter f (ws ++ us) = .ok (relation, v) := by
  have hequal : peek (us ++ []) ≠ .delim '=' := peek_append_of_map_token hus h.ne_nil fun hmem => by
    cases h.amounts _ hmem
  have hvalue := h.takeValue hus (r := []) nofun
  rw [List.append_nil] at hequal hvalue
  rw [comparisonAfter, takeRelation_of_sign hws hequal]
  dsimp only
  rw [hvalue, ok_bind]
  rfl

/-! ## Tests -/

/-- The names of features are in lower case. -/
theorem map_toLower_name (f : Feature) : f.name.toList.map Char.toLower = f.name.toList := by
  cases f <;> decide

theorem ofName?_name (f : Feature) : Feature.ofName? f.name = some f := by
  have hlower : f.name.toLower = f.name := String.toList_inj.1 (String.toList_map.trans (map_toLower_name f))
  rw [Feature.ofName?, hlower]
  cases f <;> rfl

/-- A word of another length is another word. -/
theorem isWord_of_length {word name : String} (h : name.toList.length ≠ word.toList.length) :
    isWord word (.ident name) = false := by
  refine beq_false_of_ne fun heq => h ?_
  have hlength := congrArg (fun s => s.toList.length) heq
  simpa [String.toLower] using hlength

theorem cutAtFeature_append {before : List Lexeme} {l : Lexeme} (hbefore : ∀ x ∈ before, ∀ name, x.token ≠ .ident name)
    (hl : l.token = .ident f.name) : cutAtFeature (before ++ l :: r) = some (before, f, l :: r) := by
  induction before with
  | nil =>
    rw [List.nil_append, cutAtFeature, hl]
    dsimp only
    rw [ofName?_name]
  | cons x before ih =>
    have hx := hbefore x List.mem_cons_self
    rw [List.cons_append, cutAtFeature, ih fun y hy => hbefore y (List.mem_cons_of_mem _ hy)]
    split
    · rename_i heq
      split at heq
      · exact absurd ‹_› (hx _)
      · cases heq
    · rfl

/-- What stands on one side of the name of a feature: nothing, or a comparison. -/
inductive Side (read : List Lexeme → Read (Relation × Value)) : List Lexeme → List (Relation × Value) → Prop
  | nil : Side read [] []
  | cons {ts : List Lexeme} {c : Relation × Value} : ts ≠ [] → read ts = .ok c → Side read ts [c]

/-- A range holds the comparisons on both sides of the name. -/
theorem rangeTest_eq {before after : List Lexeme} {l : Lexeme} {left right : List (Relation × Value)}
    (hf : f.isRange = true) (hbefore : ∀ x ∈ before, ∀ name, x.token ≠ .ident name) (hl : l.token = .ident f.name)
    (hleft : Side (comparisonBefore f) before left) (hright : Side (comparisonAfter f) after right)
    (hne : left ++ right ≠ []) : rangeTest (before ++ l :: after) = .ok ⟨f, left ++ right⟩ := by
  rw [rangeTest, cutAtFeature_append hbefore hl]
  dsimp only
  rw [hf]
  cases hleft with
  | nil =>
    cases hright with
    | nil => exact absurd rfl hne
    | cons hafter hright =>
      simp [hafter, hright]
      rfl
  | cons hbefore hleft =>
    cases hright with
    | nil =>
      simp [hbefore, hleft]
      rfl
    | cons hafter hright =>
      simp [hbefore, hafter, hleft, hright]
      rfl

/-- Whether a token may stand beside the name of a feature: a part of a value or of the sign of a relation. -/
def isMeasure : Token → Bool
  | .number _ | .dimension _ _ | .delim _ => true
  | _ => false

/-- Whether a token may stand in a feature: it opens no block, closes none and does not end the input. -/
def isFlat : Token → Bool
  | .ident _ | .colon => true
  | t => isMeasure t

variable {tokens tokens' before after : List Token} {v' : Value} {relation relation' : Relation}
variable {left right : List (Relation × Value)}

theorem isMeasure_of_isAmount (h : isAmount t = true) : isMeasure t = true := by
  unfold isAmount at h
  split at h <;> first | rfl | cases h

theorem isFlat_of_isMeasure (h : isMeasure t = true) : isFlat t = true := by
  unfold isMeasure at h
  split at h <;> first | rfl | cases h

theorem isMeasure_of_mem_signOf (h : t ∈ signOf relation) : isMeasure t = true := by
  obtain ⟨c, -, rfl⟩ := List.mem_map.1 h
  rfl

/-- What is neither a name alone nor a name with a colon is read as a range. -/
theorem testOf_eq_rangeTest (hbefore : ∀ t ∈ before, isMeasure t = true) (hafter : ∀ t ∈ after, isMeasure t = true)
    (hne : before ≠ [] ∨ after ≠ []) (hts : ts.map Lexeme.token = before ++ .ident f.name :: after) :
    testOf ts = rangeTest ts := by
  unfold testOf
  rw [hts]
  cases before with
  | cons t before =>
    have ht := hbefore t List.mem_cons_self
    cases t <;> cases ht <;> rfl
  | nil =>
    cases after with
    | nil => simp at hne
    | cons t after =>
      have ht := hafter t List.mem_cons_self
      cases t <;> cases ht <;> rfl

/-- Tokens between parentheses ask for a test. -/
structure Asks (tokens : List Token) (test : Test) : Prop where
  reads : ∀ ts, ts.map Lexeme.token = tokens → testOf ts = .ok test
  flat : ∀ t ∈ tokens, isFlat t = true
  /-- What comes first is not the word for a negation. -/
  first : ∃ t rest, tokens = t :: rest ∧ isWord "not" t = false

/-- The name of a bound: of the least value or of the greatest one. -/
theorem asks_bound (hf : f.isRange = true) (h : Spelled f v tokens) {name : String}
    (hname : boundOf name.toLower.toList = (relation, f.name.toList)) (hnot : isWord "not" (.ident name) = false) :
    Asks (.ident name :: .colon :: tokens) ⟨f, [(relation, v)]⟩ where
  reads ts hts := by
    obtain ⟨l, ts, rfl, hl, hts⟩ := exists_cons_of_map_token hts
    obtain ⟨m, ts, rfl, hm, hts⟩ := exists_cons_of_map_token hts
    have hvalue := h.takeValue hts (r := []) nofun
    rw [List.append_nil] at hvalue
    unfold testOf
    rw [List.map_cons, List.map_cons, hl, hm]
    simp only [plainTest, hname, featureNamed, String.ofList_toList, ofName?_name, List.drop_succ_cons, List.drop_zero]
    rw [ok_bind, if_neg (by rw [hf]; exact fun h => absurd h.2 Bool.false_ne_true), hvalue, ok_bind]
    rfl
  flat t ht := by
    rcases List.mem_cons.1 ht with rfl | ht
    · rfl
    rcases List.mem_cons.1 ht with rfl | ht
    · rfl
    · exact isFlat_of_isMeasure (isMeasure_of_isAmount (h.amounts t ht))
  first := ⟨_, _, rfl, hnot⟩

theorem Side.ne_nil {read : List Lexeme → Read (Relation × Value)} (h : Side read ts left) (hts : ts ≠ []) :
    left ≠ [] := by
  cases h with
  | nil => exact absurd rfl hts
  | cons => exact List.cons_ne_nil _ _

/-- A comparison before the name, one behind it, or both. -/
theorem asks_range (hf : f.isRange = true)
    (hbefore : ∀ t ∈ before, isMeasure t = true) (hafter : ∀ t ∈ after, isMeasure t = true)
    (hleft : ∀ ts, ts.map Lexeme.token = before → Side (comparisonBefore f) ts left)
    (hright : ∀ ts, ts.map Lexeme.token = after → Side (comparisonAfter f) ts right) (hne : before ≠ [] ∨ after ≠ []) :
    Asks (before ++ .ident f.name :: after) ⟨f, left ++ right⟩ where
  reads ts hts := by
    rw [testOf_eq_rangeTest hbefore hafter hne hts]
    obtain ⟨us, r, rfl, hus, hr⟩ := List.map_eq_append_iff.1 hts
    obtain ⟨l, ws, rfl, hl, hws⟩ := exists_cons_of_map_token hr
    refine rangeTest_eq hf (fun x hx name hname => ?_) hl (hleft us hus) (hright ws hws) fun hnil => ?_
    · have := hbefore x.token (hus ▸ List.mem_map_of_mem hx)
      rw [hname] at this
      cases this
    · obtain ⟨hl, hr⟩ := List.append_eq_nil_iff.1 hnil
      rcases hne with hne | hne
      · exact (hleft us hus).ne_nil (fun h => hne (by rw [← hus, h]; rfl)) hl
      · exact (hright ws hws).ne_nil (fun h => hne (by rw [← hws, h]; rfl)) hr
  flat t ht := by
    rcases List.mem_append.1 ht with ht | ht
    · exact isFlat_of_isMeasure (hbefore t ht)
    rcases List.mem_cons.1 ht with rfl | ht
    · rfl
    · exact isFlat_of_isMeasure (hafter t ht)
  first := by
    cases before with
    | nil => exact ⟨_, _, rfl, isWord_of_length (by cases f <;> decide)⟩
    | cons t before =>
      have ht := hbefore t List.mem_cons_self
      exact ⟨t, _, rfl, by cases t <;> cases ht <;> rfl⟩

theorem side_before (h : Spelled f v tokens) (relation : Relation) (hts : ts.map Lexeme.token = tokens ++ signOf relation) :
    Side (comparisonBefore f) ts [(relation.flip, v)] := by
  obtain ⟨us, ws, rfl, hus, hws⟩ := List.map_eq_append_iff.1 hts
  refine .cons (fun hnil => h.ne_nil ?_) (comparisonBefore_eq h hus hws)
  rw [← hus, (List.append_eq_nil_iff.1 hnil).1]
  rfl

theorem side_after (h : Spelled f v tokens) (relation : Relation) (hts : ts.map Lexeme.token = signOf relation ++ tokens) :
    Side (comparisonAfter f) ts [(relation, v)] := by
  obtain ⟨ws, us, rfl, hws, hus⟩ := List.map_eq_append_iff.1 hts
  refine .cons (fun hnil => h.ne_nil ?_) (comparisonAfter_eq h hus hws)
  rw [← hus, (List.append_eq_nil_iff.1 hnil).2]
  rfl

theorem side_nil {read : List Lexeme → Read (Relation × Value)} (hts : ts.map Lexeme.token = []) : Side read ts [] := by
  obtain rfl := List.map_eq_nil_iff.1 hts
  exact .nil

/-! ## Queries -/

theorem takeFeature_append {l : Lexeme} (hus : ∀ x ∈ us, isFlat x.token = true) (hl : l.token = .closeParen) :
    takeFeature (us ++ l :: r) = .ok (us, r) := by
  induction us with
  | nil =>
    rw [List.nil_append, takeFeature, hl]
    rfl
  | cons x us ih =>
    have hx := hus x List.mem_cons_self
    have hpass : (x.token == .closeParen) = false ∧ (x.token == .endOfInput || x.token.opensBlock) = false := by
      generalize x.token = t at hx
      cases t <;> cases hx <;> exact ⟨rfl, rfl⟩
    rw [List.cons_append, takeFeature, hpass.1, hpass.2, ih fun y hy => hus y (List.mem_cons_of_mem _ hy)]
    rfl

/-- **A test in parentheses is read as a condition.** -/
theorem takeParens_of_asks {test : Test} {o l : Lexeme} (h : Asks tokens test) (hus : us.map Lexeme.token = tokens)
    (ho : o.token = .openParen) (hl : l.token = .closeParen) (depth : Nat) :
    takeParens (depth + 1) (o :: (us ++ l :: r)) = .ok (.test test, r) := by
  have hfeature := takeFeature_append (r := r) (fun x hx => h.flat _ (hus ▸ List.mem_map_of_mem hx)) hl
  obtain ⟨t, rest, rfl, hnot⟩ := h.first
  obtain ⟨x, us, rfl, hx, -⟩ := exists_cons_of_map_token hus
  have hflat := h.flat t List.mem_cons_self
  have hopen : (peek (o :: (x :: us ++ l :: r)) != .openParen) = false := by
    rw [peek, ho]
    rfl
  have hfirst : (peek (x :: us ++ l :: r) == .openParen || isWord "not" (peek (x :: us ++ l :: r))) = false := by
    rw [List.cons_append, peek, hx, hnot, Bool.or_false]
    cases t <;> cases hflat <;> rfl
  rw [takeParens]
  simp only [hopen, List.tail_cons, hfirst, Bool.false_eq_true, if_false, hfeature, ok_bind, h.reads _ hus]
  rfl

/-- The query that asks for a condition. -/
def asking (c : Condition) : Query := ⟨false, none, some c⟩

/-- A condition in parentheses that goes up to the end of a text is the only query in it. -/
theorem takeQueries_of_condition {o l : Lexeme} {c : Condition} (ho : o.token = .openParen) (hl : l.token = .endOfInput)
    (h : takeCondition (takeParens (o :: ts).length) true (o :: ts) = .ok (c, [l])) :
    takeQueries (o :: ts).length (o :: ts) = .ok [asking c] := by
  have hstart : startsWithType (o :: ts) = false := by
    rw [startsWithType, peek, ho]
  have hquery : takeQuery (o :: ts) = .ok (asking c, [l]) := by
    rw [takeQuery]
    simp only [hstart, Bool.not_false, if_true, h, ok_bind]
    rfl
  rw [List.length_cons, takeQueries, hquery, ok_bind]
  dsimp only
  rw [peek, hl]
  rfl

variable {test test' : Test}

theorem takeCondition_of_asks (h : Asks tokens test)
    (hts : ts.map Lexeme.token = .openParen :: (tokens ++ [.closeParen, .endOfInput])) (depth : Nat) :
    ∃ l, takeCondition (takeParens (depth + 1)) true ts = .ok (.test test, [l]) ∧ l.token = .endOfInput := by
  obtain ⟨o, ts, rfl, ho, hts⟩ := exists_cons_of_map_token hts
  obtain ⟨us, r, rfl, hus, hr⟩ := List.map_eq_append_iff.1 hts
  obtain ⟨p, r, rfl, hp, hr⟩ := exists_cons_of_map_token hr
  obtain ⟨l, r, rfl, hl, hr⟩ := exists_cons_of_map_token hr
  obtain rfl := List.map_eq_nil_iff.1 hr
  have hparens := takeParens_of_asks (r := [l]) h hus ho hp depth
  refine ⟨l, ?_, hl⟩
  rw [takeCondition]
  simp only [peek, ho, hparens, ok_bind, hl]
  rfl

theorem takeCondition_of_asks_and (h : Asks tokens test) (h' : Asks tokens' test')
    (hts : ts.map Lexeme.token =
      .openParen :: (tokens ++ .closeParen :: .ident "and" :: .openParen :: (tokens' ++ [.closeParen, .endOfInput])))
    (depth : Nat) :
    ∃ l, takeCondition (takeParens (depth + 1)) true ts = .ok (.and [.test test, .test test'], [l]) ∧
      l.token = .endOfInput := by
  obtain ⟨o, ts, rfl, ho, hts⟩ := exists_cons_of_map_token hts
  obtain ⟨us, r, rfl, hus, hr⟩ := List.map_eq_append_iff.1 hts
  obtain ⟨p, r, rfl, hp, hr⟩ := exists_cons_of_map_token hr
  obtain ⟨w, r, rfl, hw, hr⟩ := exists_cons_of_map_token hr
  obtain ⟨o', r, rfl, ho', hr⟩ := exists_cons_of_map_token hr
  obtain ⟨us', r, rfl, hus', hr⟩ := List.map_eq_append_iff.1 hr
  obtain ⟨p', r, rfl, hp', hr⟩ := exists_cons_of_map_token hr
  obtain ⟨l, r, rfl, hl, hr⟩ := exists_cons_of_map_token hr
  obtain rfl := List.map_eq_nil_iff.1 hr
  have hfirst := takeParens_of_asks (r := w :: o' :: (us' ++ [p', l])) h hus ho hp depth
  have hsecond := takeParens_of_asks (r := [l]) h' hus' ho' hp' depth
  have hand : isWord "and" (.ident "and") = true := beq_self_eq_true _
  have hmore (limit : Nat) : takeOperands (takeParens (depth + 1)) "and" (limit + 2)
      (w :: o' :: (us' ++ [p', l])) = .ok ([.test test'], [l]) := by
    rw [takeOperands, peek, hw, hand]
    simp only [if_true, List.tail_cons, hsecond, ok_bind, takeOperands, peek, hl]
    rfl
  refine ⟨l, ?_, hl⟩
  rw [takeCondition]
  simp only [peek, ho, hfirst, ok_bind, hw, hand, List.length_cons, Bool.not_true, Bool.false_and, Bool.false_eq_true,
    if_false, if_true, hmore, hl]
  rfl

/-! ## Texts -/

theorem parse_of_words {text : String} {c : Condition} {tokens : List Token}
    (hwords : words text.toList = .openParen :: tokens)
    (h : ∀ ts depth, ts.map Lexeme.token = .openParen :: tokens →
      ∃ l, takeCondition (takeParens (depth + 1)) true ts = .ok (c, [l]) ∧ l.token = .endOfInput) :
    parse text = .ok [asking c] := by
  have hts : ((lex text).filter (·.token != .space)).map Lexeme.token = .openParen :: tokens := by
    rw [← hwords, words, List.filter_map]
    rfl
  rw [parse]
  generalize (lex text).filter (·.token != .space) = ts at hts
  obtain ⟨o, ts, rfl, ho, -⟩ := exists_cons_of_map_token hts
  obtain ⟨l, hread, hl⟩ := h (o :: ts) ts.length hts
  have hopen : (peek (o :: ts) == .endOfInput) = false := by
    rw [peek, ho]
    rfl
  simp only [hopen, Bool.false_eq_true, if_false]
  exact takeQueries_of_condition ho hl hread

theorem isPlainName_name (f : Feature) : isPlainName f.name.toList = true := by
  cases f <;> rfl

theorem isPlainName_bound (f : Feature) {bound : String} (h : bound = "min-" ∨ bound = "max-") :
    isPlainName (bound ++ f.name).toList = true := by
  rcases h with rfl | rfl <;> cases f <;> rfl

/-- A text gives some words wherever it stands, if an ending follows. -/
def Gives (text : String) (tokens : List Token) : Prop :=
  ∀ x, Ending x → x.head? ≠ some '*' → words (text.toList ++ x) = tokens ++ words x

theorem gives_name {name : String} (h : isPlainName name.toList = true) : Gives name [.ident name] := fun x hx _ => by
  have hstop (c : Char) (hc : x.head? = some c) : isEnder c = true := by
    obtain ⟨y, rfl⟩ := List.head?_eq_some_iff.1 hc
    exact hx.isEnder
  rw [words_name h hstop, String.ofList_toList]
  rfl

theorem words_open (x : List Char) : words ('(' :: x) = .openParen :: words x := words_of_next (by decide) rfl rfl

theorem words_close (x : List Char) : words (')' :: x) = .closeParen :: words x := words_of_next (by decide) rfl rfl

theorem ending_close (x : List Char) : Ending (')' :: x) := .stop (by decide) (by decide)

theorem ending_sign (relation : Relation) (x : List Char) : Ending (' ' :: (relation.sign.toList ++ x)) := by
  refine .space (by decide) ?_
  cases relation <;> exact .stop (by decide) (by decide)

/-- A sign between two texts. -/
def signed (relation : Relation) : String := " " ++ relation.sign ++ " "

theorem Gives.comparison {first second : String} (h : Gives first before) (h' : Gives second after)
    (relation : Relation) : Gives (first ++ signed relation ++ second) (before ++ (signOf relation ++ after)) :=
  fun x hx hstar => by
    have htext : (first ++ signed relation ++ second).toList ++ x =
        first.toList ++ ' ' :: (relation.sign.toList ++ ' ' :: (second.toList ++ x)) := by
      simp [signed]
    rw [htext, h _ (ending_sign _ _) nofun, words_sign, h' x hx hstar]
    simp

theorem words_parens {text : String} (h : Gives text tokens) (x : List Char) :
    words (("(" ++ text ++ ")").toList ++ x) = .openParen :: (tokens ++ .closeParen :: words x) := by
  have htext : ("(" ++ text ++ ")").toList ++ x = '(' :: (text.toList ++ ')' :: x) := by simp
  rw [htext, words_open, h _ (ending_close x) nofun, words_close]

theorem words_nil : words [] = [.endOfInput] := words_of_paves .nil

/-- **A test in parentheses is a query.** -/
theorem parse_of_gives {text : String} (h : Gives text tokens) (hasks : Asks tokens test) :
    parse ("(" ++ text ++ ")") = .ok [asking (.test test)] := by
  have hwords := words_parens h []
  rw [List.append_nil, words_nil] at hwords
  exact parse_of_words hwords fun ts depth hts => takeCondition_of_asks hasks hts depth

/-- **Two tests in parentheses with an `and` between them are a query.** -/
theorem parse_of_gives_and {text text' : String} (h : Gives text tokens) (hasks : Asks tokens test)
    (h' : Gives text' tokens') (hasks' : Asks tokens' test') :
    parse ("(" ++ text ++ ") and (" ++ text' ++ ")") = .ok [asking (.and [.test test, .test test'])] := by
  have hand : words (" and ".toList ++ ("(" ++ text' ++ ")").toList) =
      .ident "and" :: words ("(" ++ text' ++ ")").toList := by
    have hsplit : " and ".toList ++ ("(" ++ text' ++ ")").toList =
        ' ' :: ("and".toList ++ ' ' :: ("(" ++ text' ++ ")").toList) := by simp
    rw [hsplit, words_space, words_name rfl (by rintro _ ⟨⟩; decide), words_space, String.ofList_toList]
  have hwords : words ("(" ++ text ++ ") and (" ++ text' ++ ")").toList = .openParen ::
      (tokens ++ .closeParen :: .ident "and" :: .openParen :: (tokens' ++ [.closeParen, .endOfInput])) := by
    have htext : ("(" ++ text ++ ") and (" ++ text' ++ ")").toList =
        ("(" ++ text ++ ")").toList ++ (" and ".toList ++ ("(" ++ text' ++ ")").toList) := by simp
    have hsecond := words_parens h' []
    rw [List.append_nil, words_nil] at hsecond
    rw [htext, words_parens h, hand, hsecond]
  exact parse_of_words hwords fun ts depth hts => takeCondition_of_asks_and hasks hasks' hts depth

theorem isMeasure_of_spelled (h : Spelled f v tokens) (relation : Relation) :
    ∀ t ∈ tokens ++ signOf relation, isMeasure t = true :=
  List.forall_mem_append.2
    ⟨fun t ht => isMeasure_of_isAmount (h.amounts t ht), fun _ ht => isMeasure_of_mem_signOf ht⟩

theorem isMeasure_of_spelled' (h : Spelled f v tokens) (relation : Relation) :
    ∀ t ∈ signOf relation ++ tokens, isMeasure t = true :=
  List.forall_mem_append.2
    ⟨fun _ ht => isMeasure_of_mem_signOf ht, fun t ht => isMeasure_of_isAmount (h.amounts t ht)⟩

/-- The feature compared with a value. -/
theorem parse_name_value {value : String} (hf : f.isRange = true) (h : Spelled f v tokens) (hgives : Gives value tokens)
    (relation : Relation) :
    parse ("(" ++ (f.name ++ signed relation ++ value) ++ ")") = .ok [asking (.test ⟨f, [(relation, v)]⟩)] := by
  have hasks : Asks ([] ++ .ident f.name :: (signOf relation ++ tokens)) ⟨f, [] ++ [(relation, v)]⟩ :=
    asks_range hf (by simp) (isMeasure_of_spelled' h relation) (fun _ => side_nil) (fun _ => side_after h relation)
      (.inr (by simp [h.ne_nil]))
  exact parse_of_gives ((gives_name (isPlainName_name f)).comparison hgives relation) hasks

/-- A value compared with the feature. -/
theorem parse_value_name {value : String} (hf : f.isRange = true) (h : Spelled f v tokens) (hgives : Gives value tokens)
    (relation : Relation) :
    parse ("(" ++ (value ++ signed relation ++ f.name) ++ ")") = .ok [asking (.test ⟨f, [(relation.flip, v)]⟩)] := by
  have hasks : Asks (tokens ++ signOf relation ++ [.ident f.name]) ⟨f, [(relation.flip, v)] ++ []⟩ :=
    asks_range hf (isMeasure_of_spelled h relation) (by simp) (fun _ => side_before h relation) (fun _ => side_nil)
      (.inl (by simp [h.ne_nil]))
  rw [List.append_assoc] at hasks
  exact parse_of_gives (hgives.comparison (gives_name (isPlainName_name f)) relation) hasks

/-- The feature compared with two values. -/
theorem parse_between {value value' : String} (hf : f.isRange = true) (h : Spelled f v tokens)
    (h' : Spelled f v' tokens') (hgives : Gives value tokens) (hgives' : Gives value' tokens')
    (relation relation' : Relation) :
    parse ("(" ++ (value ++ signed relation ++ (f.name ++ signed relation' ++ value')) ++ ")") =
      .ok [asking (.test ⟨f, [(relation.flip, v), (relation', v')]⟩)] := by
  refine parse_of_gives (hgives.comparison ((gives_name (isPlainName_name f)).comparison hgives' relation') relation) ?_
  rw [← List.append_assoc]
  exact asks_range hf (isMeasure_of_spelled h relation) (isMeasure_of_spelled' h' relation')
    (fun _ => side_before h relation) (fun _ => side_after h' relation') (.inl (by simp [h.ne_nil]))

/-- A bound by its name. -/
theorem gives_bound {value name : String} (hname : isPlainName name.toList = true) (hgives : Gives value tokens) :
    Gives (name ++ ": " ++ value) (.ident name :: .colon :: tokens) := fun x hx hstar => by
  have htext : (name ++ ": " ++ value).toList ++ x = name.toList ++ ':' :: ' ' :: (value.toList ++ x) := by simp
  have hcolon (x : List Char) : words (':' :: x) = .colon :: words x := words_of_next (by decide) rfl rfl
  have hending : Ending (':' :: ' ' :: (value.toList ++ x)) := .stop (by decide) (by decide)
  rw [htext, gives_name hname _ hending (by simp), hcolon, words_space, hgives x hx hstar]
  rfl

theorem boundOf_name (f : Feature) :
    boundOf ("min-" ++ f.name).toLower.toList = (.greaterOrEqual, f.name.toList) ∧
      boundOf ("max-" ++ f.name).toLower.toList = (.lessOrEqual, f.name.toList) := by
  constructor <;> simp [String.toLower, boundOf, map_toLower_name]

theorem not_isWord_bound (f : Feature) {bound : String} (h : bound = "min-" ∨ bound = "max-") :
    isWord "not" (.ident (bound ++ f.name)) = false := by
  refine isWord_of_length ?_
  rw [String.toList_append, List.length_append]
  rcases h with rfl | rfl <;> cases f <;> decide

/-! ## Answers -/

theorem evaluate_of_parse {text : String} {queries : List Query} (h : parse text = .ok queries) (e : Environment) :
    evaluate text e = .ok (selectsAny queries e) := by
  rw [evaluate, h]
  rfl

theorem selectsAny_asking (c : Condition) (e : Environment) : selectsAny [asking c] e = c.holds e := by
  simp [selectsAny, asking, Query.selects]

theorem passes_eq (f : Feature) (cs : List (Relation × Value)) (hne : cs ≠ []) (e : Environment) :
    e.passes ⟨f, cs⟩ = cs.all fun c => e.compares f c.1 c.2 := by
  simp [Environment.passes, hne]

/-- **The forms of a range agree.** Let `a` and `b` be texts without comments that stand for values of an ordered feature.
Then the range between them is read, and so are the bounds that it stands for; both ask whether the feature has at least
the first value and at most the second one. The three forms of a least value agree, those of a greatest value do, and so
do the two forms of a value that is to be exceeded. -/
theorem evaluate_range {a b : String} {va vb : Value} (hf : f.isRange = true)
    (hfreeA : ¬ ['/', '*'] <:+: a.toList) (hfreeB : ¬ ['/', '*'] <:+: b.toList)
    (ha : valueOf? f a = some va) (hb : valueOf? f b = some vb) (e : Environment) :
    (∀ text ∈ ["(" ++ a ++ " <= " ++ f.name ++ " <= " ++ b ++ ")",
        "(min-" ++ f.name ++ ": " ++ a ++ ") and (max-" ++ f.name ++ ": " ++ b ++ ")"],
      evaluate text e = .ok (e.compares f .greaterOrEqual va && e.compares f .lessOrEqual vb)) ∧
    (∀ text ∈ ["(" ++ f.name ++ " >= " ++ a ++ ")", "(" ++ a ++ " <= " ++ f.name ++ ")",
        "(min-" ++ f.name ++ ": " ++ a ++ ")"],
      evaluate text e = .ok (e.compares f .greaterOrEqual va)) ∧
    (∀ text ∈ ["(" ++ f.name ++ " <= " ++ a ++ ")", "(" ++ a ++ " >= " ++ f.name ++ ")",
        "(max-" ++ f.name ++ ": " ++ a ++ ")"],
      evaluate text e = .ok (e.compares f .lessOrEqual va)) ∧
    (∀ text ∈ ["(" ++ f.name ++ " > " ++ a ++ ")", "(" ++ a ++ " < " ++ f.name ++ ")"],
      evaluate text e = .ok (e.compares f .greater va)) := by
  obtain ⟨tokens, hspelled, hgives⟩ := exists_words_of_value hf hfreeA ha
  obtain ⟨tokens', hspelled', hgives'⟩ := exists_words_of_value hf hfreeB hb
  -- the signs and the names of the bounds, as the texts above are made of them
  have hle : " <= " = signed .lessOrEqual := rfl
  have hge : " >= " = signed .greaterOrEqual := rfl
  have hlt : " < " = signed .less := rfl
  have hgt : " > " = signed .greater := rfl
  have hopenMin : "(min-" = "(" ++ "min-" := rfl
  have hopenMax : "(max-" = "(" ++ "max-" := rfl
  have handMax : ") and (max-" = ") and (" ++ "max-" := rfl
  rw [hle, hge, hlt, hgt, hopenMin, hopenMax, handMax]
  -- what a single test asks for
  have htest {text : String} {relation : Relation} (h : parse text = .ok [asking (.test ⟨f, [(relation, va)]⟩)]) :
      evaluate text e = .ok (e.compares f relation va) := by
    rw [evaluate_of_parse h, selectsAny_asking, Condition.holds, passes_eq _ _ (List.cons_ne_nil _ _)]
    simp
  have hname (relation : Relation) :
      evaluate ("(" ++ f.name ++ signed relation ++ a ++ ")") e = .ok (e.compares f relation va) := by
    refine htest (Eq.trans ?_ (parse_name_value hf hspelled hgives relation))
    simp only [String.append_assoc]
  have hvalue (relation : Relation) :
      evaluate ("(" ++ a ++ signed relation ++ f.name ++ ")") e = .ok (e.compares f relation.flip va) := by
    refine htest (Eq.trans ?_ (parse_value_name hf hspelled hgives relation))
    simp only [String.append_assoc]
  have hbound {bound : String} {relation : Relation} (hbound : bound = "min-" ∨ bound = "max-")
      (hrelation : boundOf (bound ++ f.name).toLower.toList = (relation, f.name.toList)) :
      evaluate ("(" ++ bound ++ f.name ++ ": " ++ a ++ ")") e = .ok (e.compares f relation va) := by
    refine htest (Eq.trans ?_ (parse_of_gives (gives_bound (isPlainName_bound f hbound) hgives)
      (asks_bound hf hspelled hrelation (not_isWord_bound f hbound))))
    simp only [String.append_assoc]
  have hall {text : String} {c : Condition} (h : parse text = .ok [asking c])
      (hc : c.holds e = (e.compares f .greaterOrEqual va && e.compares f .lessOrEqual vb)) :
      evaluate text e = .ok (e.compares f .greaterOrEqual va && e.compares f .lessOrEqual vb) := by
    rw [evaluate_of_parse h, selectsAny_asking, hc]
  have hbetween := parse_between hf hspelled hspelled' hgives hgives' .lessOrEqual .lessOrEqual
  have hand := parse_of_gives_and (gives_bound (isPlainName_bound f (.inl rfl)) hgives)
    (asks_bound hf hspelled (boundOf_name f).1 (not_isWord_bound f (.inl rfl)))
    (gives_bound (isPlainName_bound f (.inr rfl)) hgives')
    (asks_bound hf hspelled' (boundOf_name f).2 (not_isWord_bound f (.inr rfl)))
  refine ⟨?_, ?_, ?_, ?_⟩
  · refine List.forall_mem_cons.2 ⟨hall (Eq.trans ?_ hbetween) ?_,
      List.forall_mem_singleton.2 (hall (Eq.trans ?_ hand) ?_)⟩
    · simp only [String.append_assoc]
    · simp [Condition.holds, passes_eq, Relation.flip]
    · simp only [String.append_assoc]
    · simp [Condition.holds, holdAll, passes_eq]
  · exact List.forall_mem_cons.2 ⟨hname _, List.forall_mem_cons.2 ⟨hvalue _,
      List.forall_mem_singleton.2 (hbound (.inl rfl) (boundOf_name f).1)⟩⟩
  · exact List.forall_mem_cons.2 ⟨hname _, List.forall_mem_cons.2 ⟨hvalue _,
      List.forall_mem_singleton.2 (hbound (.inr rfl) (boundOf_name f).2)⟩⟩
  · exact List.forall_mem_cons.2 ⟨hname _, List.forall_mem_singleton.2 (hvalue _)⟩

/-- The widths between one in pixels and one whose unit is written with an escape, which takes the space behind it. -/
theorem evaluate_range_of_width :
    ∃ va vb, valueOf? .width " 400px" = some va ∧ valueOf? .width "80e\\6d " = some vb ∧
      evaluate "( 400px <= width <= 80e\\6d )" .default =
        evaluate "(min-width:  400px) and (max-width: 80e\\6d )" .default ∧
      evaluate "( 400px <= width)" .default = .ok (Environment.default.compares .width .greaterOrEqual va) := by
  obtain ⟨va, ha⟩ := Option.isSome_iff_exists.1 (show (valueOf? .width " 400px").isSome = true by decide +kernel)
  obtain ⟨vb, hb⟩ := Option.isSome_iff_exists.1 (show (valueOf? .width "80e\\6d ").isSome = true by decide +kernel)
  obtain ⟨hrange, hleast, -⟩ := evaluate_range (f := .width) rfl (a := " 400px") (b := "80e\\6d ") (by decide +kernel)
    (by decide +kernel) ha hb .default
  have hbetween : "(" ++ " 400px" ++ " <= " ++ Feature.width.name ++ " <= " ++ "80e\\6d " ++ ")" =
      "( 400px <= width <= 80e\\6d )" := rfl
  have hbounds : "(min-" ++ Feature.width.name ++ ": " ++ " 400px" ++ ") and (max-" ++ Feature.width.name ++ ": " ++
      "80e\\6d " ++ ")" = "(min-width:  400px) and (max-width: 80e\\6d )" := rfl
  have hvalue : "(" ++ " 400px" ++ " <= " ++ Feature.width.name ++ ")" = "( 400px <= width)" := rfl
  rw [hbetween, hbounds, List.forall_mem_cons, List.forall_mem_singleton] at hrange
  rw [hvalue, List.forall_mem_cons, List.forall_mem_cons] at hleast
  exact ⟨va, vb, ha, hb, hrange.1.trans hrange.2.symm, hleast.2.1⟩

end LiveMarkup.Media
