/-
Reading a text token by token.

The tokens of a text stand in it in order, so a property that every token keeps as reading goes on holds
of the forest in the end (`invariant_readAll`). A property of elements that their tags give them is shown
in this way: every element comes from a tag of the text or was left out there (`made_of_text`).
-/
import LiveMarkup.Proofs.Html.Views

set_option autoImplicit false

namespace LiveMarkup.Html

open Plan

/-! ## Reading on -/

/-- The offset up to which a text was read when a token is read. -/
def endAt (pos : Nat) (token : Token) : Nat := token.span?.elim pos (·.stop)

theorem laid_append {pos : Nat} {first second : List Token} :
    Lexer.Laid pos (first ++ second) ↔
      Lexer.Laid pos first ∧ Lexer.Laid (first.foldl endAt pos) second := by
  induction first generalizing pos with
  | nil => exact (iff_of_eq (true_and _)).symm
  | cons token first ih =>
    rw [List.cons_append, List.foldl_cons, Lexer.Laid, Lexer.Laid, endAt]
    cases token.span? with
    | none => exact ih
    | some span => simp only [ih, Option.elim_some, and_assoc]

/-- A token that opens an element: a start tag, or the end tag of a line break, which is read as one. -/
inductive Opens : Token → StartTag → Prop
  | startTag (name : String) (selfClosing : Bool) (attributes : List Attribute) (span : Span) :
      Opens (.startTag name selfClosing attributes span) ⟨name, selfClosing, attributes, span⟩
  | lineBreak (span : Span) : Opens (.endTag "br" span) ⟨"br", false, [], span⟩

theorem span?_of_opens {token : Token} {tag : StartTag} (h : Opens token tag) :
    token.span? = some tag.span ∧ token.isTag = true := by
  cases h <;> exact ⟨rfl, rfl⟩

/-- An offset at which a tag starts or the text ends. Elements that are closed without an end tag end at such
an offset. -/
def Anchor (tokens : List Token) (offset : Nat) : Prop :=
  ∃ token ∈ tokens, (token.isTag || token.isEndOfFile) = true ∧ ∃ span, token.span? = some span ∧ span.start = offset

/-- A property of drafts that is kept when tokens are read; the number is the offset up to which the text
was read. An end tag closes an element that it names. -/
structure Invariant (limit : Nat) (tokens : List Token) (I : Nat → Draft → Prop) : Prop where
  mono : ∀ {pos pos' d}, pos ≤ pos' → I pos d → I pos' d
  character : ∀ {pos d} (c : Char), I pos d → I pos (d.mapCurrent (·.pushChar c))
  comment : ∀ {pos d} (data : String), I pos d → I pos (d.add (.comment data .nil))
  soft : ∀ {offset d d' a}, Anchor tokens offset → a.Soft → I offset d →
    d.perform limit offset a = .ok d' → I offset d'
  own : ∀ {token tag e stays d d'}, token ∈ tokens → Opens token tag → Own tag e →
    tag.span.start < tag.span.stop → I tag.span.start d →
    d.perform limit tag.span.start (.insert e stays) = .ok d' → I tag.span.stop d'
  closeBy : ∀ {name span d d'}, .endTag name span ∈ tokens → span.start < span.stop →
    (∃ k ∈ d.keys.head?, Ended name k) → I span.start d →
    d.perform limit span.start (.closeBy span) = .ok d' → I span.stop d'

section Invariant

variable {limit : Nat} {tokens : List Token} {I : Nat → Draft → Prop}

theorem foldlM_append_ok {first second : List Action} {offset : Nat} {d d' : Draft}
    (h : (first ++ second).foldlM (Draft.perform limit offset) d = .ok d') :
    ∃ m, first.foldlM (Draft.perform limit offset) d = .ok m ∧
      second.foldlM (Draft.perform limit offset) m = .ok d' := by
  rw [List.foldlM_append] at h
  cases hm : first.foldlM (Draft.perform limit offset) d with
  | error e =>
    rw [hm] at h
    exact absurd h nofun
  | ok m =>
    rw [hm] at h
    exact ⟨m, rfl, h⟩

theorem foldlM_cons_ok {a : Action} {actions : List Action} {offset : Nat} {d d' : Draft}
    (h : (a :: actions).foldlM (Draft.perform limit offset) d = .ok d') :
    ∃ m, d.perform limit offset a = .ok m ∧ actions.foldlM (Draft.perform limit offset) m = .ok d' := by
  rw [List.foldlM_cons] at h
  cases hm : d.perform limit offset a with
  | error e =>
    rw [hm] at h
    exact absurd h nofun
  | ok m =>
    rw [hm] at h
    exact ⟨m, rfl, h⟩

theorem keys_mapCurrent (d : Draft) (g : Forest → Forest) : (d.mapCurrent g).keys = d.keys := by
  unfold Draft.mapCurrent Draft.keys
  split
  · rfl
  · rename_i hopened
    rw [hopened]
    rfl

theorem keys_close (d : Draft) (record : Location → Location) : (d.close record).keys = d.keys.tail := by
  unfold Draft.close
  split
  · rename_i hopened
    rw [Draft.keys, hopened]
    rfl
  · rename_i hopened
    rw [Draft.add, keys_mapCurrent, Draft.keys, Draft.keys, hopened]
    rfl

/-- The elements that are open after an action are those that its plan expects. -/
theorem keys_perform {offset : Nat} {a : Action} {d d' : Draft} (h : d.perform limit offset a = .ok d') :
    d'.keys = a.keysAfter d.keys := by
  cases a with
  | note deviation => rw [← Except.ok.inj h, Action.keysAfter]
  | close => rw [← Except.ok.inj h, keys_close, Action.keysAfter]
  | closeBy endTag => rw [← Except.ok.inj h, keys_close, Action.keysAfter]
  | insert e stays =>
    rw [Draft.perform] at h
    rw [Action.keysAfter]
    split at h
    · cases h
    · split at h
      · rename_i hstays
        rw [← Except.ok.inj h, if_pos hstays]
        rfl
      · rename_i hstays
        rw [← Except.ok.inj h, if_neg hstays, Draft.add, keys_mapCurrent]

theorem keys_foldlM {offset : Nat} {actions : List Action} {d d' : Draft}
    (h : actions.foldlM (Draft.perform limit offset) d = .ok d') :
    d'.keys = actions.foldl Action.keysAfter d.keys := by
  induction actions generalizing d with
  | nil => rw [← Except.ok.inj h, List.foldl_nil]
  | cons a actions ih =>
    obtain ⟨m, hm, h⟩ := foldlM_cons_ok h
    rw [List.foldl_cons, ← keys_perform hm]
    exact ih h

theorem invariant_soft (hI : Invariant limit tokens I) {soft : List Action} (hsoft : ∀ a ∈ soft, a.Soft)
    {offset : Nat} (hanchor : Anchor tokens offset) {d d' : Draft} (hd : I offset d)
    (h : soft.foldlM (Draft.perform limit offset) d = .ok d') : I offset d' := by
  induction soft generalizing d with
  | nil =>
    obtain rfl := Except.ok.inj h
    exact hd
  | cons a soft ih =>
    obtain ⟨m, hm, h⟩ := foldlM_cons_ok h
    exact ih (fun b hb => hsoft b (List.mem_cons_of_mem _ hb))
      (hI.soft hanchor (hsoft a List.mem_cons_self) hd hm) h

theorem foldlM_one {a : Action} {offset : Nat} {d d' : Draft}
    (h : [a].foldlM (Draft.perform limit offset) d = .ok d') : d.perform limit offset a = .ok d' := by
  obtain ⟨m, hm, h⟩ := foldlM_cons_ok h
  rw [hm]
  exact h

theorem invariant_closeAll (hI : Invariant limit tokens I) {n : Nat} (hanchor : Anchor tokens n) {d : Draft}
    (hd : I n d) : I n (d.closeAll n) := by
  unfold Draft.closeAll
  generalize d.opened = frames
  induction frames generalizing d with
  | nil => exact hd
  | cons f frames ih => exact ih (hI.soft hanchor .close hd rfl)

/-- **A property that every token keeps holds in the end.** -/
theorem invariant_readAll (hI : Invariant limit tokens I) {ts : List Token} (hts : ∀ t ∈ ts, t ∈ tokens)
    {pos offset : Nat} {d d' : Draft} (hlaid : Lexer.Laid pos ts) (hd : I pos d)
    (h : d.readAll limit offset ts = .ok d') : I (ts.foldl endAt pos) d' := by
  induction ts generalizing pos offset d with
  | nil =>
    obtain rfl := Except.ok.inj h
    exact hd
  | cons token ts ih =>
    rw [Draft.readAll] at h
    cases hm : d.read limit (offsetAt offset token) token with
    | error e =>
      rw [hm] at h
      cases h
    | ok m =>
      rw [hm] at h
      have htoken := hts token List.mem_cons_self
      -- every kind of token keeps the property up to its own end
      suffices I (endAt pos token) m ∧ Lexer.Laid (endAt pos token) ts from
        ih (fun t ht => hts t (List.mem_cons_of_mem _ ht)) this.2 this.1 h
      cases token with
      | character c =>
        obtain rfl := Except.ok.inj hm
        exact ⟨hI.character c hd, hlaid⟩
      | comment data span =>
        obtain ⟨hlo, hle, -, hlaid⟩ := hlaid
        obtain rfl := Except.ok.inj hm
        exact ⟨hI.mono (Nat.le_trans hlo hle) (hI.comment data hd), hlaid⟩
      | doctype name span =>
        obtain ⟨hlo, hle, -, hlaid⟩ := hlaid
        obtain rfl := Except.ok.inj hm
        exact ⟨hI.mono (Nat.le_trans hlo hle) hd, hlaid⟩
      | startTag name selfClosing attributes span =>
        obtain ⟨hlo, hle, hlt, hlaid⟩ := hlaid
        refine ⟨?_, hlaid⟩
        obtain ⟨soft, last, hactions, hsoft, hlast⟩ :=
          actions_startTag d.keys ⟨name, selfClosing, attributes, span⟩
        rw [Draft.read, hactions] at hm
        obtain ⟨x, hread, hm⟩ := foldlM_append_ok hm
        have hx := invariant_soft hI hsoft ⟨_, htoken, rfl, span, rfl, rfl⟩ (hI.mono hlo hd) hread
        rcases hlast with ⟨-, rfl⟩ | ⟨-, e, stays, he, rfl⟩
        · obtain rfl := Except.ok.inj hm
          exact hI.mono hle hx
        · exact hI.own htoken (.startTag ..) he (hlt rfl) hx (foldlM_one hm)
      | endTag name span =>
        obtain ⟨hlo, hle, hlt, hlaid⟩ := hlaid
        refine ⟨?_, hlaid⟩
        obtain ⟨soft, last, hactions, hsoft, hlast⟩ := actions_endTag d.keys name span
        rw [Draft.read, hactions] at hm
        obtain ⟨x, hread, hm⟩ := foldlM_append_ok hm
        have hx := invariant_soft hI hsoft ⟨_, htoken, rfl, span, rfl, rfl⟩ (hI.mono hlo hd) hread
        rcases hlast with rfl | ⟨k, hk, hends, rfl⟩ | ⟨rfl, e, stays, he, rfl⟩
        · obtain rfl := Except.ok.inj hm
          exact hI.mono hle hx
        · rw [← keys_foldlM hread] at hk
          exact hI.closeBy htoken (hlt rfl) ⟨k, hk, hends⟩ hx (foldlM_one hm)
        · exact hI.own htoken (.lineBreak span) he (hlt rfl) hx (foldlM_one hm)
      | endOfFile n =>
        obtain ⟨hlo, -, -, hlaid⟩ := hlaid
        obtain rfl := Except.ok.inj hm
        exact ⟨invariant_closeAll hI ⟨_, htoken, rfl, _, rfl, rfl⟩ (hI.mono hlo hd), hlaid⟩

end Invariant

/-! ## Where elements come from -/

theorem readAll_of_grow {limit : Nat} {tokens : List Token} {f : Forest} (h : grow limit tokens = .ok f) :
    ∃ d, Draft.start.readAll limit 0 tokens = .ok d ∧ d.done = f := by
  unfold grow at h
  cases hd : Draft.start.readAll limit 0 tokens with
  | error e =>
    rw [hd] at h
    exact absurd h nofun
  | ok d =>
    rw [hd] at h
    exact ⟨d, rfl, Except.ok.inj h⟩

/-- All elements of a draft have a property. -/
structure Draft.Each (P : Element → Prop) (d : Draft) : Prop where
  done : ∀ e ∈ d.done.elements, P e
  opened : ∀ f ∈ d.opened, P f.element
  inside : ∀ f ∈ d.opened, ∀ e ∈ f.inside.elements, P e

section Each

variable {P : Element → Prop} {d : Draft}

theorem each_mapCurrent {g : Forest → Forest} (hd : d.Each P)
    (hg : ∀ f : Forest, (∀ e ∈ f.elements, P e) → ∀ e ∈ (g f).elements, P e) : (d.mapCurrent g).Each P := by
  obtain ⟨done, opened⟩ := d
  obtain ⟨hdone, hopened, hinside⟩ := hd
  cases opened with
  | nil => exact ⟨hg _ hdone, hopened, hinside⟩
  | cons f rest =>
    refine ⟨hdone, ?_, ?_⟩
    · intro x hx
      rcases List.mem_cons.1 hx with rfl | hx
      · exact hopened f List.mem_cons_self
      · exact hopened x (List.mem_cons_of_mem _ hx)
    · intro x hx
      rcases List.mem_cons.1 hx with rfl | hx
      · exact hg _ (hinside f List.mem_cons_self)
      · exact hinside x (List.mem_cons_of_mem _ hx)

theorem each_add {new : Forest} (hd : d.Each P) (hn : ∀ e ∈ new.elements, P e) : (d.add new).Each P := by
  refine each_mapCurrent hd ?_
  intro f hf e he
  rw [Forest.elements_append] at he
  rcases List.mem_append.1 he with he | he
  · exact hf e he
  · exact hn e he

theorem each_close {record : Location → Location} (hd : d.Each P)
    (hrecord : ∀ e, keyOf e ∈ d.keys.head? → P e → P (relocate record e)) : (d.close record).Each P := by
  obtain ⟨done, opened⟩ := d
  obtain ⟨hdone, hopened, hinside⟩ := hd
  cases opened with
  | nil => exact ⟨hdone, hopened, hinside⟩
  | cons f rest =>
    refine each_add ⟨hdone, ?_, ?_⟩ ?_
    · exact fun x hx => hopened x (List.mem_cons_of_mem _ hx)
    · exact fun x hx => hinside x (List.mem_cons_of_mem _ hx)
    · intro e he
      rw [Forest.elements_element] at he
      rcases List.mem_cons.1 he with rfl | he
      · exact hrecord _ rfl (hopened f List.mem_cons_self)
      · rw [show Forest.nil.elements = [] from rfl, List.append_nil] at he
        exact hinside f List.mem_cons_self e he

theorem each_insert {limit offset : Nat} {e : Element} {stays : Bool} {d' : Draft} (hd : d.Each P) (he : P e)
    (h : d.perform limit offset (.insert e stays) = .ok d') : d'.Each P := by
  rw [Draft.perform] at h
  split at h
  · cases h
  · split at h
    · obtain rfl := Except.ok.inj h
      refine ⟨hd.done, ?_, ?_⟩
      · intro f hf
        rcases List.mem_cons.1 hf with rfl | hf
        · exact he
        · exact hd.opened f hf
      · intro f hf
        rcases List.mem_cons.1 hf with rfl | hf
        · exact fun x hx => absurd hx List.not_mem_nil
        · exact hd.inside f hf
    · obtain rfl := Except.ok.inj h
      refine each_add hd ?_
      intro x hx
      rw [List.mem_singleton.1 hx]
      exact he

/-- A property of all elements is kept when it is one of what tags add, and kept when elements are closed. -/
theorem invariant_each {limit : Nat} {tokens : List Token} (implied : ∀ name ∈ leftOutNames, P (.ofName name))
    (own : ∀ token ∈ tokens, ∀ tag e, Opens token tag → Own tag e → P e)
    (closedAt : ∀ offset, Anchor tokens offset → ∀ e, P e → P (relocate (·.closedAt offset) e))
    (closedBy : ∀ name span, .endTag name span ∈ tokens → ∀ e, Ended name (keyOf e) → P e →
      P (relocate (·.closedBy span) e)) :
    Invariant limit tokens fun _ d => d.Each P := by
  refine ⟨fun _ hd => hd, fun c hd => ?_, fun data hd => ?_, fun hanchor ha hd h => ?_, ?_, ?_⟩
  · exact each_mapCurrent hd fun f hf e he => hf e (Forest.elements_pushChar f c ▸ he)
  · exact each_add hd fun e he => absurd he List.not_mem_nil
  · cases ha with
    | note => exact Except.ok.inj h ▸ hd
    | close => exact Except.ok.inj h ▸ each_close hd fun e _ => closedAt _ hanchor e
    | implied name hname => exact each_insert hd (implied name hname) h
  · exact fun htoken hopens he _ hd h => each_insert hd (own _ htoken _ _ hopens he) h
  · intro name span d d' htoken _ hends hd h
    refine Except.ok.inj h ▸ each_close hd fun e he => closedBy _ _ htoken e ?_
    obtain ⟨k, hk, hends⟩ := hends
    rwa [Option.mem_unique hk he] at hends

theorem each_start : Draft.start.Each P := by
  refine ⟨?_, ?_, ?_⟩
  · exact fun e he => absurd he List.not_mem_nil
  · exact fun e he => absurd he List.not_mem_nil
  · exact fun e he => absurd he List.not_mem_nil

/-- **Every element comes from a tag, or the text leaves it out.** So a property of what tags add that is
kept when elements are closed is one of all elements. -/
theorem each_grow {limit : Nat} {tokens : List Token} {f : Forest} (hlaid : Lexer.Laid 0 tokens)
    (hf : grow limit tokens = .ok f) (implied : ∀ name ∈ leftOutNames, P (.ofName name))
    (own : ∀ token ∈ tokens, ∀ tag e, Opens token tag → Own tag e → P e)
    (closedAt : ∀ offset, Anchor tokens offset → ∀ e, P e → P (relocate (·.closedAt offset) e))
    (closedBy : ∀ name span, .endTag name span ∈ tokens → ∀ e, Ended name (keyOf e) → P e →
      P (relocate (·.closedBy span) e)) :
    ∀ e ∈ f.elements, P e := by
  obtain ⟨d, hd, rfl⟩ := readAll_of_grow hf
  have hI : Invariant limit tokens fun _ d => d.Each P := invariant_each implied own closedAt closedBy
  exact (invariant_readAll hI (fun t ht => ht) hlaid each_start hd).done

end Each

/-! ## The elements of a text -/

theorem laid_tokenize (text : String) : Lexer.Laid 0 (tokenize text) := by
  rw [tokenize_eq]
  have hbehind : Lexer.Behind (.start text.toList) := fun start hs => absurd hs nofun
  exact Lexer.laid_tokens hbehind

theorem location_of_own {tag : StartTag} {e : Element} (h : Own tag e) :
    e.location = some (.opened tag.span tag.selfClosing) := by
  cases h <;> rfl

/-- An element as it was when its tag was read. -/
def reopened (e : Element) : Element := relocate (fun l => .opened l.startTag l.selfClosing) e

theorem reopened_relocate {record : Location → Location}
    (hrecord : ∀ l, (record l).startTag = l.startTag ∧ (record l).selfClosing = l.selfClosing) (e : Element) :
    reopened (relocate record e) = reopened e := by
  unfold reopened relocate
  simp only [Option.map_map, Function.comp_def, hrecord]

/-- **Every element of a text was made by a tag, or is left out in the text.** -/
theorem made_of_text {text : String} {f : Forest} (h : forestOf text = .ok f) :
    ∀ e ∈ f.elements, (∃ name, e = .ofName name) ∨
      ∃ token ∈ tokenize text, ∃ tag, Opens token tag ∧ Own tag (reopened e) := by
  have kept : ∀ record : Location → Location,
      (∀ l, (record l).startTag = l.startTag ∧ (record l).selfClosing = l.selfClosing) → ∀ e : Element,
      ((∃ name, e = .ofName name) ∨ ∃ token ∈ tokenize text, ∃ tag, Opens token tag ∧ Own tag (reopened e)) →
      (∃ name, relocate record e = .ofName name) ∨
        ∃ token ∈ tokenize text, ∃ tag, Opens token tag ∧ Own tag (reopened (relocate record e)) := by
    intro record hrecord e he
    rw [reopened_relocate hrecord]
    rcases he with ⟨name, rfl⟩ | he
    · exact .inl ⟨name, rfl⟩
    · exact .inr he
  refine each_grow (laid_tokenize text) h ?_ ?_ ?_ ?_
  · exact fun name _ => .inl ⟨name, rfl⟩
  · intro token htoken tag e hopens he
    refine .inr ⟨token, htoken, tag, hopens, ?_⟩
    have : reopened e = e := by cases he <;> rfl
    rwa [this]
  · exact fun offset _ => kept _ fun l => ⟨rfl, rfl⟩
  · exact fun name span _ e _ => kept (·.closedBy span) (fun l => ⟨rfl, rfl⟩) e

/-- The start tag of an element is a tag of the text. -/
theorem startTag_of_text {text : String} {f : Forest} (h : forestOf text = .ok f) {e : Element}
    (he : e ∈ f.elements) {l : Location} (hl : e.location = some l) :
    ∃ token ∈ tokenize text, ∃ tag, Opens token tag ∧ Own tag (reopened e) ∧ tag.span = l.startTag ∧
      tag.selfClosing = l.selfClosing := by
  rcases made_of_text h e he with ⟨name, rfl⟩ | ⟨token, htoken, tag, hopens, hown⟩
  · exact absurd hl nofun
  · refine ⟨token, htoken, tag, hopens, hown, ?_⟩
    have hloc := location_of_own hown
    rw [reopened, relocate, hl] at hloc
    obtain ⟨hspan, -, -, hsc⟩ := Location.mk.inj (Option.some.inj hloc)
    exact ⟨hspan.symm, hsc.symm⟩

/-- The end tag of an element is an end tag of the text that names the element. -/
theorem endTag_of_text {text : String} {f : Forest} (h : forestOf text = .ok f) :
    ∀ e ∈ f.elements, ∀ l endTag, e.location = some l → l.endTag = some endTag →
      ∃ name, .endTag name endTag ∈ tokenize text ∧ Ended name (keyOf e) := by
  refine each_grow (laid_tokenize text) h ?_ ?_ ?_ ?_
  · exact fun name _ l endTag hl => absurd hl nofun
  · intro token _ tag e _ he l endTag hl hend
    rw [location_of_own he] at hl
    rw [← Option.some.inj hl] at hend
    exact absurd hend nofun
  · intro offset _ e ih l endTag hl hend
    obtain ⟨l', hl', rfl⟩ := Option.map_eq_some_iff.1 hl
    exact ih l' endTag hl' hend
  · intro name span htoken e hends _ l endTag hl hend
    obtain ⟨l', -, rfl⟩ := Option.map_eq_some_iff.1 hl
    obtain rfl := Option.some.inj hend
    exact ⟨name, htoken, hends⟩

end LiveMarkup.Html
