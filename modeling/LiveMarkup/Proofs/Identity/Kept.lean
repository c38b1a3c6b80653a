/-
Tokens that a change of the source keeps.

Tokens are given in document order and depend on the tokens that elements carry. So a change that keeps
those, and keeps the elements, keeps every token (`like_nameAll`), and the bytes that a token stands for
move with the text (`map_nameAll`).
-/
import LiveMarkup.Proofs.Html.Likeness
import LiveMarkup.Proofs.Identity.Named
import LiveMarkup.Proofs.Identity.Tokens

set_option autoImplicit false

namespace LiveMarkup.Identity

open Html

/-- An element with its token, before and after a change. -/
structure LikeNamed (c : Change) (n n' : Named) : Prop where
  token : n'.token = n.token
  span : c.MovedSpan n.span n'.span
  element : c.Like n.element n'.element
  inside : c.Alike n.inside n'.inside

variable {c : Change} {s : Scheme}

theorem isVoid_like {e e' : Element} (h : c.Like e e') : e'.isVoid = e.isVoid := by
  unfold Element.isVoid
  rw [h.name, h.space]

/-- An element whose attribute of the identity stays has the same token. -/
theorem written?_of_find? {e e' : Element}
    (h : e'.attributes.find? (fun a => Text.eqIgnoreCase a.name s.key)
      = e.attributes.find? (fun a => Text.eqIgnoreCase a.name s.key)) : written? s e' = written? s e := by
  unfold written? Element.attribute?
  rw [h]

/-! ## Related lists -/

/-- The first element with a token, before and after a change. -/
theorem find?_like {xs ys : List Named} (h : List.Forall₂ (LikeNamed c) xs ys) (token : String) {n : Named}
    (hn : xs.find? (fun n => n.token == token) = some n) :
    ∃ n', ys.find? (fun n => n.token == token) = some n' ∧ LikeNamed c n n' := by
  induction h with
  | nil => exact absurd hn nofun
  | @cons x y xs ys hx _ ih =>
    rw [List.find?_cons] at hn ⊢
    rw [hx.token]
    split at hn
    · obtain rfl := Option.some.inj hn
      exact ⟨y, rfl, hx⟩
    · exact ih hn

/-! ## The walk -/

theorem span_like {around around' : Span} (ha : c.MovedSpan around around') {e e' : Element} (he : c.Like e e') :
    c.MovedSpan (e.location.elim around (·.span)) (e'.location.elim around' (·.span)) := by
  obtain ⟨-, -, -, hl⟩ := he
  generalize e.location = location at hl
  generalize e'.location = location' at hl
  cases hl with
  | none => exact ha
  | some hl => exact hl.span

theorem writtenIn_like {f f' : Forest} (h : c.Alike f f')
    (hw : ∀ e ∈ f.elements, ∀ e', c.Like e e' → written? s e' = written? s e) : writtenIn s f' = writtenIn s f := by
  induction h with
  | nil => rfl
  | textLeft t _ ih => exact ih hw
  | textRight t _ ih => exact ih hw
  | commentLeft t _ ih => exact ih hw
  | commentRight t _ ih => exact ih hw
  | @element e e' inside inside' rest rest' he _ _ ihi ihr =>
    rw [Forest.elements_element] at hw
    unfold writtenIn at ihi ihr ⊢
    have hi := ihi fun x hx => hw x (List.mem_cons_of_mem _ (List.mem_append_left _ hx))
    have hr := ihr fun x hx => hw x (List.mem_cons_of_mem _ (List.mem_append_right _ hx))
    rw [Forest.elements_element, Forest.elements_element, List.filterMap_cons, List.filterMap_cons,
      List.filterMap_append, List.filterMap_append, hw e List.mem_cons_self e' he, hi, hr]

/-- **The walk over like forests gives the same tokens.** -/
theorem like_named {f f' : Forest} (h : c.Alike f f')
    (hw : ∀ e ∈ f.elements, ∀ e', c.Like e e' → written? s e' = written? s e) (written : List String)
    {around around' : Span} (ha : c.MovedSpan around around') (p : Progress) (lo lo' : Nat) :
    List.Forall₂ (LikeNamed c) (named s written around p lo f).1 (named s written around' p lo' f').1 ∧
      (named s written around p lo f).2 = (named s written around' p lo' f').2 := by
  -- what only one of the forests has shifts the places, on which no token depends
  induction h generalizing around around' p lo lo' with
  | nil => exact ⟨.nil, rfl⟩
  | textLeft t _ ih => exact ih hw ha p (lo + 1) lo'
  | textRight t _ ih => exact ih hw ha p lo (lo' + 1)
  | commentLeft t _ ih => exact ih hw ha p (lo + 1) lo'
  | commentRight t _ ih => exact ih hw ha p lo (lo' + 1)
  | @element e e' inside inside' rest rest' he hinside hrest ihi ihr =>
    rw [Forest.elements_element] at hw
    have hspan := span_like ha he
    have hclaim := claim_like (hw e List.mem_cons_self e' he) written p
    simp only [named, hclaim]
    obtain ⟨hi, hip⟩ := ihi (fun x hx => hw x (List.mem_cons_of_mem _ (List.mem_append_left _ hx))) hspan
      (claim s written p e).2 (boxOf lo e + 1) (boxOf lo' e' + 1)
    obtain ⟨hr, hrp⟩ := ihr (fun x hx => hw x (List.mem_cons_of_mem _ (List.mem_append_right _ hx))) ha
      (named s written (e.location.elim around (·.span)) (claim s written p e).2 (boxOf lo e + 1) inside).2
      (boxOf lo e + 1 + inside.size) (boxOf lo' e' + 1 + inside'.size)
    rw [← hip]
    exact ⟨.cons ⟨rfl, hspan, he, hinside⟩ (List.rel_append hi hr), hrp⟩

/-- **A change that keeps the tokens that elements carry keeps all tokens.** -/
theorem like_nameAll {f f' : Forest} (h : c.Alike f f')
    (hw : ∀ e ∈ f.elements, ∀ e', c.Like e e' → written? s e' = written? s e) {length length' : Nat}
    (hlength : c.Moved length length') :
    List.Forall₂ (LikeNamed c) (nameAll s length f) (nameAll s length' f') := by
  have ha : c.MovedSpan ⟨0, length⟩ ⟨0, length'⟩ := ⟨Change.moved_before (Nat.zero_le _), hlength⟩
  unfold nameAll
  rw [writtenIn_like h hw]
  exact (like_named h hw (writtenIn s f) ha ⟨[], 0⟩ 1 1).1

/-! ## What a token stands for -/

/-- The bytes of an element are those of the element, or those of one around it. -/
theorem span_of_named {written : List String} {around : Span} {p : Progress} {lo : Nat} {f : Forest} {n : Named}
    (hn : n ∈ (named s written around p lo f).1) :
    n.span = around ∨ ∃ x ∈ f.nodes, ∃ l, x.1.location = some l ∧ n.span = l.span := by
  induction f generalizing around p lo with
  | nil => exact absurd hn List.not_mem_nil
  | text t rest ih => exact ih hn
  | comment t rest ih => exact ih hn
  | element e inside rest ihi ihr =>
    -- an element that is not located stands in the bytes of the one around it
    have hself : e.location.elim around (·.span) = around ∨
        ∃ x ∈ (Forest.element e inside rest).nodes, ∃ l, x.1.location = some l ∧
          e.location.elim around (·.span) = l.span := by
      cases hl : e.location with
      | none => exact .inl rfl
      | some l => exact .inr ⟨(e, inside), Forest.nodes_element.2 (.inl rfl), l, hl, rfl⟩
    simp only [named] at hn
    rcases List.mem_cons.1 hn with rfl | hn
    · exact hself
    · rcases List.mem_append.1 hn with hn | hn
      · rcases ihi hn with hspan | ⟨x, hx, l, hl, hspan⟩
        · rw [hspan]
          exact hself
        · exact .inr ⟨x, Forest.nodes_element.2 (.inr (.inl hx)), l, hl, hspan⟩
      · rcases ihr hn with hspan | ⟨x, hx, l, hl, hspan⟩
        · exact .inl hspan
        · exact .inr ⟨x, Forest.nodes_element.2 (.inr (.inr hx)), l, hl, hspan⟩

/-- An offset after bytes were replaced: those after the place where the replaced bytes start move. -/
def shiftAfter (start old new x : Nat) : Nat := if x ≤ start then x else x + new - old

/-- A span after bytes were replaced. -/
def shiftSpanAfter (start old new : Nat) (span : Span) : Span :=
  ⟨shiftAfter start old new span.start, shiftAfter start old new span.stop⟩

theorem shiftAfter_of_moved (hle : c.lo ≤ c.hi) {x x' : Nat} (h : c.Moved x x') (hx : x = c.lo → c.lo < c.hi)
    (hle' : c.lo ≤ c.hi') : x' = shiftAfter c.lo (c.hi - c.lo) (c.hi' - c.lo) x := by
  unfold shiftAfter
  rcases h with ⟨hlo, rfl⟩ | ⟨k, rfl, rfl⟩
  · rw [if_pos hlo]
  · split
    · rename_i hk
      have := hx (by omega)
      omega
    · omega

/-- The canonical markup of a source that can be read. -/
theorem canonicalize_of_depicts {source : String} {t : Tree} {f : Forest} (hp : Html.parse source = .ok t)
    (hd : Depicts t f) :
    (canonicalize s source).isDegraded = false ∧
      (canonicalize s source).map = (nameAll s source.utf8ByteSize f).map fun n => (n.token, n.span) := by
  unfold canonicalize canonicalize?
  rw [hp]
  refine ⟨rfl, ?_⟩
  change ((assign t s source.utf8ByteSize).map fun a => (a.token, a.span)) = _
  rw [assign_of_depicts hd, List.map_map]
  rfl

/-- **The bytes that the tokens stand for move with the text.** -/
theorem map_nameAll (hle : c.lo ≤ c.hi) (hle' : c.lo ≤ c.hi') {ns ns' : List Named}
    (h : List.Forall₂ (LikeNamed c) ns ns')
    (hne : ∀ n ∈ ns, n.span.start = c.lo ∨ n.span.stop = c.lo → c.lo < c.hi) :
    ns'.map (fun n => (n.token, n.span)) = (ns.map fun n => (n.token, n.span)).map fun x =>
      (x.1, shiftSpanAfter c.lo (c.hi - c.lo) (c.hi' - c.lo) x.2) := by
  induction h with
  | nil => rfl
  | @cons n n' ns ns' hn _ ih =>
    have hhead := hne n List.mem_cons_self
    have hstart := shiftAfter_of_moved hle hn.span.start (fun h => hhead (.inl h)) hle'
    have hstop := shiftAfter_of_moved hle hn.span.stop (fun h => hhead (.inr h)) hle'
    rw [List.map_cons, List.map_cons, List.map_cons, ih fun m hm => hne m (List.mem_cons_of_mem _ hm), hn.token]
    congr 2
    rw [shiftSpanAfter, ← hstart, ← hstop]

/-- The element that a token names, before and after a change. -/
theorem seek?_like {f f' : Forest} (h : c.Alike f f')
    (hw : ∀ e ∈ f.elements, ∀ e', c.Like e e' → written? s e' = written? s e) {length length' : Nat}
    (hlength : c.Moved length length') {token : String} {n : Named} (hn : seek? s length f token = some n) :
    ∃ n', seek? s length' f' token = some n' ∧ LikeNamed c n n' :=
  find?_like (like_nameAll h hw hlength) token hn

/-- **Between like forests every token is kept, and its bytes move with the text.** -/
theorem canonicalize_like (hle : c.lo ≤ c.hi) (hle' : c.lo ≤ c.hi') {source edited : String} {f f' : Forest}
    (hf : forestOf source = .ok f) (hf' : forestOf edited = .ok f') (h : c.Alike f f')
    (hw : ∀ e ∈ f.elements, ∀ e', c.Like e e' → written? s e' = written? s e)
    (hlength : c.Moved source.utf8ByteSize edited.utf8ByteSize)
    (hne : ∀ n ∈ nameAll s source.utf8ByteSize f, n.span.start = c.lo ∨ n.span.stop = c.lo → c.lo < c.hi) :
    (canonicalize s edited).isDegraded = false ∧
      (canonicalize s edited).map = (canonicalize s source).map.map fun x =>
        (x.1, shiftSpanAfter c.lo (c.hi - c.lo) (c.hi' - c.lo) x.2) := by
  obtain ⟨t, hp, hd⟩ := parse_of_forest hf
  obtain ⟨t', hp', hd'⟩ := parse_of_forest hf'
  obtain ⟨-, hmap⟩ := canonicalize_of_depicts (s := s) hp hd
  obtain ⟨hdegraded, hmap'⟩ := canonicalize_of_depicts (s := s) hp' hd'
  refine ⟨hdegraded, ?_⟩
  rw [hmap, hmap']
  exact map_nameAll hle hle' (like_nameAll h hw hlength) hne

end LiveMarkup.Identity
