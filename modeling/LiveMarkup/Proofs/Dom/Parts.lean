/-
Trees that views show in full.

A view shows a tree in full (`Shows`) when the tree says of every part of the view what the view says: what the node is,
which contents it has and which children. Then reading the tree again gives the view (`viewTo_of_shows`), and the walk
down lists its nodes (`visit_of_shows`). In a tree without circles everything has a view that shows it in full
(`view?_of_withoutCircles`), since each link goes down in rank and no rank is as large as the tree.
-/
import LiveMarkup.Dom.View
import LiveMarkup.Proofs.Dom.Walks
import Mathlib.Data.Finset.Card

set_option autoImplicit false

namespace LiveMarkup

/-! ## Ways down -/

section Ways

variable {under : Nat → Nat → Prop} {n a b : Nat}

/-- How many of the first places can be reached from a place on ways down. -/
noncomputable def placesUnder (under : Nat → Nat → Prop) (n a : Nat) : Nat := by
  classical
  exact ((Finset.range n).filter fun b => Relation.TransGen under a b).card

/-- Each step down leaves fewer places to reach, where no way down leads back. -/
theorem placesUnder_lt (h : ∀ a, ¬ Relation.TransGen under a a) (hab : under a b) (hb : b < n) :
    placesUnder under n b < placesUnder under n a := by
  classical
  refine Finset.card_lt_card ?_
  rw [Finset.ssubset_iff_of_subset]
  · -- the lower place is under the upper one, but not under itself
    refine ⟨b, ?_, ?_⟩
    · simpa using ⟨hb, Relation.TransGen.single hab⟩
    · simpa using fun _ => h b
  · intro c hc
    simp only [Finset.mem_filter, Finset.mem_range] at hc ⊢
    exact ⟨hc.1, Relation.TransGen.head hab hc.2⟩

theorem placesUnder_lt_self (h : ∀ a, ¬ Relation.TransGen under a a) (ha : a < n) : placesUnder under n a < n := by
  classical
  have hlt : placesUnder under n a < (Finset.range n).card := by
    refine Finset.card_lt_card ?_
    rw [Finset.ssubset_iff_of_subset (Finset.filter_subset _ _)]
    exact ⟨a, by simpa using ha, by simpa using fun _ => h a⟩
  rwa [Finset.card_range] at hlt

end Ways

/-! ## Parts of views -/

/-- The contents that a node has as an element. -/
def Kind.contents? : Kind → Option Nat
  | .element e => e.contents
  | _ => none

/-- The text of a node that is one. -/
def Kind.text? : Kind → Option String
  | .text s => some s
  | _ => none

namespace View

/-- What holds of a node when it holds of its contents and its children holds of all views. -/
theorem ind {P : View → Prop} (node : ∀ id kind contents children, (∀ v ∈ contents, P v) → (∀ v ∈ children, P v) →
    P (.node id kind contents children)) (v : View) : P v := by
  refine View.rec (motive_1 := P) (motive_2 := fun vs => ∀ v ∈ vs, P v) node ?_ ?_ v
  · simp
  · intro v vs hv hvs
    simpa using ⟨hv, hvs⟩

mutual

/-- The number of nodes of a view. -/
def size : View → Nat
  | .node _ _ contents children => 1 + sizeAll contents + sizeAll children

/-- The number of nodes of several views. -/
def sizeAll : List View → Nat
  | [] => 0
  | v :: rest => v.size + sizeAll rest

end

mutual

/-- The views in a view: itself, then those in its contents and in its children. -/
def parts : View → List View
  | .node id kind contents children => .node id kind contents children :: (partsAll contents ++ partsAll children)

/-- The views in several views, one view after the other. -/
def partsAll : List View → List View
  | [] => []
  | v :: rest => v.parts ++ partsAll rest

end

mutual

/-- The places of a view in document order, without the contents of templates. -/
def light : View → List Nat
  | .node id _ _ children => id :: lightAll children

/-- The places of several views, one view after the other. -/
def lightAll : List View → List Nat
  | [] => []
  | v :: rest => v.light ++ lightAll rest

end

mutual

/-- The texts of a view in document order, without the contents of templates. -/
def texts : View → List String
  | .node _ kind _ children => kind.text?.toList ++ textsAll children

/-- The texts of several views, one view after the other. -/
def textsAll : List View → List String
  | [] => []
  | v :: rest => v.texts ++ textsAll rest

end

/-- The places of all nodes of a view. -/
def places (v : View) : List Nat := v.parts.map View.id

variable {v w x : View} {vs : List View}

theorem mem_partsAll : w ∈ partsAll vs ↔ ∃ v ∈ vs, w ∈ v.parts := by
  induction vs with
  | nil => simp [partsAll]
  | cons v vs ih => simp [partsAll, ih]

theorem mem_parts_self (v : View) : v ∈ v.parts := by
  cases v
  simp [parts]

/-- The parts of a part are parts. -/
theorem mem_parts_trans (hw : w ∈ v.parts) (hx : x ∈ w.parts) : x ∈ v.parts := by
  induction v using View.ind with
  | node id kind contents children ihcontents ihchildren =>
    rw [parts, List.mem_cons, List.mem_append, mem_partsAll, mem_partsAll] at hw
    rcases hw with rfl | ⟨u, hu, hw⟩ | ⟨u, hu, hw⟩
    · exact hx
    · rw [parts, List.mem_cons, List.mem_append, mem_partsAll]
      exact .inr (.inl ⟨u, hu, ihcontents u hu hw⟩)
    · rw [parts, List.mem_cons, List.mem_append, mem_partsAll, mem_partsAll]
      exact .inr (.inr ⟨u, hu, ihchildren u hu hw⟩)

theorem mem_parts_of_contents (h : w ∈ v.contents) : w ∈ v.parts := by
  cases v with
  | node id kind contents children =>
    rw [parts, List.mem_cons, List.mem_append, mem_partsAll]
    exact .inr (.inl ⟨w, h, mem_parts_self w⟩)

theorem mem_parts_of_children (h : w ∈ v.children) : w ∈ v.parts := by
  cases v with
  | node id kind contents children =>
    rw [parts, List.mem_cons, List.mem_append, mem_partsAll, mem_partsAll]
    exact .inr (.inr ⟨w, h, mem_parts_self w⟩)

theorem size_le_sizeAll (h : v ∈ vs) : v.size ≤ sizeAll vs := by
  induction vs with
  | nil => simp at h
  | cons u vs ih =>
    rw [sizeAll]
    rcases List.mem_cons.1 h with rfl | h
    · omega
    · have := ih h
      omega

theorem lightAll_append (vs ws : List View) : lightAll (vs ++ ws) = lightAll vs ++ lightAll ws := by
  induction vs with
  | nil => rfl
  | cons v vs ih => rw [List.cons_append, lightAll, lightAll, ih, List.append_assoc]

theorem length_light_le (v : View) : v.light.length ≤ v.size := by
  induction v using View.ind with
  | node id kind contents children _ ihchildren =>
    have hall : ∀ vs : List View, (∀ v ∈ vs, v.light.length ≤ v.size) → (lightAll vs).length ≤ sizeAll vs := by
      intro vs hvs
      induction vs with
      | nil => simp [lightAll]
      | cons v vs ih =>
        have hv := hvs v List.mem_cons_self
        have hrest := ih fun u hu => hvs u (List.mem_cons_of_mem _ hu)
        rw [lightAll, sizeAll, List.length_append]
        omega
    have hchildren := hall children ihchildren
    rw [light, size, List.length_cons]
    omega

end View

namespace Tree

open View

variable {t : Tree} {v w : View} {vs : List View}

theorem contents?_eq (t : Tree) (id : Nat) : t.contents? id = (t.kind? id).bind Kind.contents? := by
  rw [contents?, element?_eq, kind?_eq]
  cases t.core? id with
  | none => rfl
  | some c =>
    obtain ⟨kind, _, _⟩ := c
    cases kind <;> rfl

theorem lt_size_of_contents {id c : Nat} (h : t.contents? id = some c) : id < t.size := by
  by_contra hlt
  simp [contents?_eq, kind?, get?_of_le (Nat.not_lt.1 hlt)] at h

theorem text?_eq_kind (t : Tree) (id : Nat) : t.text? id = (t.kind? id).bind Kind.text? := by
  rw [text?_eq, kind?_eq]
  cases t.core? id with
  | none => rfl
  | some c =>
    obtain ⟨kind, _, _⟩ := c
    cases kind <;> rfl

/-! ## Views that show a tree in full -/

/-- A tree says of a node what a view says. -/
structure Agrees (t : Tree) (v : View) : Prop where
  kind : t.kind? v.id = some v.kind
  contents : v.kind.contents?.toList = v.contents.map View.id
  children : t.children v.id = v.children.map View.id

/-- A view shows a tree in full: the tree says of every part what the part says. -/
def Shows (t : Tree) (v : View) : Prop := ∀ w ∈ v.parts, t.Agrees w

theorem Shows.agrees (h : t.Shows v) : t.Agrees v := h v (mem_parts_self v)

/-- What is shown depends on the nodes of the view only. -/
theorem Shows.congr {t' : Tree} (h : t.Shows v)
    (hsame : ∀ i ∈ v.places, t'.kind? i = t.kind? i ∧ t'.children i = t.children i) : t'.Shows v := by
  intro w hw
  obtain ⟨hkind, hchildren⟩ := hsame w.id (List.mem_map_of_mem hw)
  have hagrees := h w hw
  exact ⟨by rw [hkind, hagrees.kind], hagrees.contents, by rw [hchildren, hagrees.children]⟩

theorem Shows.part (h : t.Shows v) (hw : w ∈ v.parts) : t.Shows w := fun x hx => h x (mem_parts_trans hw hx)

theorem Shows.of_mem_contents (h : t.Shows v) (hw : w ∈ v.contents) : t.Shows w := h.part (mem_parts_of_contents hw)

theorem Shows.of_mem_children (h : t.Shows v) (hw : w ∈ v.children) : t.Shows w := h.part (mem_parts_of_children hw)

/-- A tree says where the contents of a template are. -/
theorem Shows.contents? (h : t.Shows v) (hw : w ∈ v.contents) : t.contents? v.id = some w.id := by
  have hmem : w.id ∈ v.kind.contents?.toList := by
    rw [h.agrees.contents]
    exact List.mem_map_of_mem hw
  rw [contents?_eq, h.agrees.kind, Option.bind_some]
  exact Option.mem_toList.1 hmem

theorem shows_node {id : Nat} {kind : Kind} {contents children : List View}
    (hagrees : t.Agrees (.node id kind contents children)) (hcontents : ∀ v ∈ contents, t.Shows v)
    (hchildren : ∀ v ∈ children, t.Shows v) : t.Shows (.node id kind contents children) := by
  intro w hw
  rw [parts, List.mem_cons, List.mem_append, mem_partsAll, mem_partsAll] at hw
  rcases hw with rfl | ⟨u, hu, hw⟩ | ⟨u, hu, hw⟩
  · exact hagrees
  · exact hcontents u hu w hw
  · exact hchildren u hu w hw

theorem viewTo_of_kind {id : Nat} {kind : Kind} (h : t.kind? id = some kind) (depth : Nat) :
    t.viewTo (depth + 1) id = some (.node id kind (kind.contents?.toList.filterMap (t.viewTo depth))
      ((t.children id).filterMap (t.viewTo depth))) := by
  have hcontents : t.contents? id = kind.contents? := by rw [contents?_eq, h, Option.bind_some]
  obtain ⟨n, hn, rfl⟩ := Option.map_eq_some_iff.1 h
  rw [viewTo, hcontents, Tree.children, hn]
  rfl

theorem filterMap_map_id {f : Nat → Option View} (h : ∀ v ∈ vs, f v.id = some v) :
    (vs.map View.id).filterMap f = vs := by
  induction vs with
  | nil => rfl
  | cons v vs ih =>
    rw [List.map_cons, List.filterMap_cons, h v List.mem_cons_self,
      ih fun u hu => h u (List.mem_cons_of_mem _ hu)]

/-- **Reading a tree gives the view that shows it in full.** -/
theorem viewTo_of_shows {depth : Nat} (h : t.Shows v) (hdepth : v.size ≤ depth) :
    t.viewTo depth v.id = some v := by
  induction v using View.ind generalizing depth with
  | node id kind contents children ihcontents ihchildren =>
    rw [View.size] at hdepth
    obtain ⟨d, rfl⟩ : ∃ d, depth = d + 1 := ⟨depth - 1, by omega⟩
    have hagrees := h.agrees
    have hcontents : (contents.map View.id).filterMap (t.viewTo d) = contents := by
      refine filterMap_map_id fun v hv => ihcontents v hv (h.of_mem_contents hv) ?_
      have := size_le_sizeAll hv
      omega
    have hchildren : (children.map View.id).filterMap (t.viewTo d) = children := by
      refine filterMap_map_id fun v hv => ihchildren v hv (h.of_mem_children hv) ?_
      have := size_le_sizeAll hv
      omega
    have hview := viewTo_of_kind hagrees.kind d
    rw [hagrees.contents, hagrees.children] at hview
    simp only [View.contents, View.children, View.id, View.kind, hcontents, hchildren] at hview
    exact hview

/-- **The walk down lists the nodes that views show in full.** -/
theorem visit_of_shows (k : Nat) (h : ∀ v ∈ vs, t.Shows v) : t.visit k (vs.map View.id) = (lightAll vs).take k := by
  induction k generalizing vs with
  | zero => simp [visit]
  | succ k ih =>
    cases vs with
    | nil => simp [visit, lightAll]
    | cons v vs =>
      have hv := h v List.mem_cons_self
      have hchildren := hv.agrees.children
      cases v with
      | node id kind contents children =>
        simp only [View.id, View.children] at hchildren
        have hnext : ∀ u ∈ children ++ vs, t.Shows u := by
          intro u hu
          rcases List.mem_append.1 hu with hu | hu
          · exact hv.of_mem_children hu
          · exact h u (List.mem_cons_of_mem _ hu)
        rw [List.map_cons, visit, View.id, hchildren, ← List.map_append, ih hnext, lightAll_append, lightAll, light,
          List.cons_append, List.take_succ_cons]

theorem filterMap_text?_lightAll (h : ∀ v ∈ vs, v.light.filterMap t.text? = v.texts) :
    (lightAll vs).filterMap t.text? = textsAll vs := by
  induction vs with
  | nil => rfl
  | cons v vs ih =>
    rw [lightAll, textsAll, List.filterMap_append, h v List.mem_cons_self,
      ih fun u hu => h u (List.mem_cons_of_mem _ hu)]

theorem filterMap_text?_light (h : t.Shows v) : v.light.filterMap t.text? = v.texts := by
  induction v using View.ind with
  | node id kind contents children _ ihchildren =>
    have hkind : t.kind? id = some kind := h.agrees.kind
    have hchildren := filterMap_text?_lightAll fun v hv => ihchildren v hv (h.of_mem_children hv)
    rw [light, texts, List.filterMap_cons, text?_eq_kind, hkind, Option.bind_some, hchildren]
    cases kind.text? <;> rfl

/-- The text of a node that a view shows in full. -/
theorem textContent_of_shows (h : t.Shows v) (hsize : (lightAll v.children).length ≤ t.size) :
    t.textContent v.id = String.join (textsAll v.children) := by
  have hshows : ∀ u ∈ v.children, t.Shows u := fun u hu => h.of_mem_children hu
  have htexts := filterMap_text?_lightAll fun u hu => filterMap_text?_light (hshows u hu)
  rw [textContent, descendants, descendantsUpTo, h.agrees.children, visit_of_shows _ hshows,
    List.take_of_length_le hsize, htexts]

/-! ## Trees without circles -/

/-- A node stands right under another: as its child, or as the contents of a template. -/
def Under (t : Tree) (a b : Nat) : Prop := b ∈ t.children a ∨ t.contents? a = some b

/-- No way down leads back to where it starts. -/
def WithoutCircles (t : Tree) : Prop := ∀ id, ¬ Relation.TransGen t.Under id id

/-- A tree whose links all lead to smaller places has no circles. -/
theorem withoutCircles_of_lt
    (h : ∀ a < t.size, (∀ b ∈ t.children a, b < a) ∧ ∀ b ∈ (t.contents? a).toList, b < a) : t.WithoutCircles := by
  have hstep : ∀ a b : Nat, t.Under a b → b < a := by
    intro a b hab
    rcases hab with hab | hab
    · exact (h a (lt_size_of_mem hab)).1 b hab
    · exact (h a (lt_size_of_contents hab)).2 b (by simpa using hab)
  have hway : ∀ a b : Nat, Relation.TransGen t.Under a b → b < a := by
    intro a b hab
    induction hab with
    | single hab => exact hstep _ _ hab
    | tail _ hbc ih => exact Nat.lt_trans (hstep _ _ hbc) ih
  exact fun id hid => Nat.lt_irrefl id (hway id id hid)

/-- How many nodes a node is above of. -/
noncomputable def rank (t : Tree) (a : Nat) : Nat := by
  classical
  exact ((Finset.range t.size).filter fun b => Relation.TransGen t.Under a b).card

/-- The way down goes down in rank. -/
theorem rank_lt (h : t.WithoutCircles) {a b : Nat} (hab : t.Under a b) (hb : b < t.size) : t.rank b < t.rank a :=
  placesUnder_lt h hab hb

theorem rank_lt_size (h : t.WithoutCircles) {a : Nat} (ha : a < t.size) : t.rank a < t.size :=
  placesUnder_lt_self h ha

/-- No node is its own ancestor where no way down leads back. -/
theorem acyclic_of_withoutCircles (hlinked : t.Linked) (h : t.WithoutCircles) : Acyclic t.parent? := by
  have hup : ∀ a b, t.parent? a = some b → t.rank a < t.rank b := fun a b hab =>
    rank_lt h (.inl ((hlinked.parent_iff b a).1 hab)) (lt_size_of_parent hab)
  have hway : ∀ a b, Leads t.parent? a b → t.rank a ≤ t.rank b := by
    intro a b hab
    induction hab with
    | refl => exact Nat.le_refl _
    | @tail x y _ hxy ih => exact Nat.le_trans ih (Nat.le_of_lt (hup x y hxy))
  intro a b hab hback
  have hlt := hup a b hab
  have hle := hway b a hback
  omega

theorem exists_views (t : Tree) (f : Nat → Option View) (ids : List Nat)
    (h : ∀ i ∈ ids, ∃ v, f i = some v ∧ v.id = i ∧ t.Shows v) :
    (ids.filterMap f).map View.id = ids ∧ ∀ v ∈ ids.filterMap f, t.Shows v := by
  induction ids with
  | nil => simp
  | cons i ids ih =>
    obtain ⟨v, hv, hid, hshows⟩ := h i List.mem_cons_self
    have hrest := ih fun j hj => h j (List.mem_cons_of_mem _ hj)
    rw [List.filterMap_cons, hv, List.map_cons, hid, hrest.1]
    refine ⟨rfl, ?_⟩
    intro u hu
    rcases List.mem_cons.1 hu with rfl | hu
    · exact hshows
    · exact hrest.2 u hu

/-- **Every node of a tree without circles has a view that shows it in full**, if contents are nodes of the tree. -/
theorem viewTo_of_withoutCircles (hlinked : t.Linked) (h : t.WithoutCircles)
    (hcontents : ∀ i c : Nat, t.contents? i = some c → c < t.size) (depth : Nat) {id : Nat} (hid : id < t.size)
    (hrank : t.rank id < depth) : ∃ v, t.viewTo depth id = some v ∧ v.id = id ∧ t.Shows v := by
  induction depth generalizing id with
  | zero => omega
  | succ d ih =>
    obtain ⟨kind, hkind⟩ : ∃ kind, t.kind? id = some kind := ⟨_, congrArg _ (Array.getElem?_eq_getElem hid)⟩
    have hbelow : ∀ i, t.Under id i → i < t.size → ∃ v, t.viewTo d i = some v ∧ v.id = i ∧ t.Shows v := by
      intro i hunder hi
      have hlt := rank_lt h hunder hi
      exact ih hi (by omega)
    have hincontents := exists_views t (t.viewTo d) kind.contents?.toList fun i hi => by
      have hi : t.contents? id = some i := by
        rw [contents?_eq, hkind]
        simpa using hi
      exact hbelow i (.inr hi) (hcontents id i hi)
    have hinchildren := exists_views t (t.viewTo d) (t.children id) fun i hi =>
      hbelow i (.inl hi) (lt_size_of_parent ((hlinked.parent_iff id i).2 hi))
    refine ⟨_, viewTo_of_kind hkind d, rfl, ?_⟩
    exact shows_node ⟨hkind, hincontents.1.symm, hinchildren.1.symm⟩ hincontents.2 hinchildren.2

end Tree

end LiveMarkup
