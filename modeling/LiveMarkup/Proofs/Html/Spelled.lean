/-
Trees and the forests that they spell.

A tree whose links are consistent spells a forest, whatever places its nodes take (`Tree.Spells`). Such a
tree is not deeper than it has nodes, since the nodes on a path have different forests below them
(`height_le_size`), so it is seen to its leaves and written as the forest that it spells
(`serializeChildren_of_spells`).
-/
import LiveMarkup.Proofs.Html.Views
import Mathlib.Data.Fintype.Card

set_option autoImplicit false

namespace LiveMarkup

open Html

/-- The children of a node spell a forest: they are its nodes in order, each with what is inside it as its own
children. None of them holds its contents apart from its children. -/
def Tree.Spells (t : Tree) : NodeId → List NodeId → Forest → Prop
  | _, ids, .nil => ids = []
  | parent, ids, .text s rest =>
    ∃ id others, ids = id :: others ∧ t.core? id = some ⟨.text s, some parent, []⟩ ∧ t.Spells parent others rest
  | parent, ids, .comment data rest =>
    ∃ id others, ids = id :: others ∧ t.core? id = some ⟨.comment data, some parent, []⟩ ∧
      t.Spells parent others rest
  | parent, ids, .element e inside rest =>
    ∃ id others kids, ids = id :: others ∧ e.contents = none ∧
      t.core? id = some ⟨.element e, some parent, kids⟩ ∧ t.Spells id kids inside ∧ t.Spells parent others rest

/-- The tree is a document that spells a forest. -/
structure Tree.IsDocumentOf (t : Tree) (f : Forest) : Prop where
  document : ∃ kids, t.core? Tree.root = some ⟨.document, none, kids⟩ ∧ t.Spells Tree.root kids f

namespace Html

/-- How many nodes the longest path of a forest has. -/
def Forest.height : Forest → Nat
  | nil => 0
  | text _ rest => max 1 rest.height
  | comment _ rest => max 1 rest.height
  | element _ inside rest => max (inside.height + 1) rest.height

variable {t : Tree} {parent : NodeId} {ids : List NodeId} {f : Forest}

/-! ## The depth of a tree -/

/-- The children of a node spell one forest at most. -/
theorem spells_unique {parent' : NodeId} {g : Forest} (hf : t.Spells parent ids f) (hg : t.Spells parent' ids g) :
    f = g := by
  -- the first child tells with which kind of node both begin, so the mixed cases cannot be
  induction f generalizing parent parent' ids g with
  | nil =>
    obtain rfl := hf
    cases g with
    | nil => rfl
    | text s rest =>
      obtain ⟨_, _, h, -⟩ := hg
      exact absurd h.symm (List.cons_ne_nil _ _)
    | comment data rest =>
      obtain ⟨_, _, h, -⟩ := hg
      exact absurd h.symm (List.cons_ne_nil _ _)
    | element e inside rest =>
      obtain ⟨_, _, _, h, -⟩ := hg
      exact absurd h.symm (List.cons_ne_nil _ _)
  | text s rest ih =>
    obtain ⟨id, others, rfl, hcore, hrest⟩ := hf
    cases g with
    | nil => exact absurd hg (List.cons_ne_nil _ _)
    | text s' rest' =>
      obtain ⟨_, _, hids, hcore', hrest'⟩ := hg
      obtain ⟨rfl, rfl⟩ := List.cons.inj hids
      have hsame := Option.some.inj (hcore.symm.trans hcore')
      rw [Kind.text.inj (Core.mk.inj hsame).1, ih hrest hrest']
    | comment data rest' =>
      obtain ⟨_, _, hids, hcore', -⟩ := hg
      obtain ⟨rfl, -⟩ := List.cons.inj hids
      exact absurd (hcore.symm.trans hcore') nofun
    | element e inside rest' =>
      obtain ⟨_, _, _, hids, -, hcore', -⟩ := hg
      obtain ⟨rfl, -⟩ := List.cons.inj hids
      exact absurd (hcore.symm.trans hcore') nofun
  | comment data rest ih =>
    obtain ⟨id, others, rfl, hcore, hrest⟩ := hf
    cases g with
    | nil => exact absurd hg (List.cons_ne_nil _ _)
    | text s rest' =>
      obtain ⟨_, _, hids, hcore', -⟩ := hg
      obtain ⟨rfl, -⟩ := List.cons.inj hids
      exact absurd (hcore.symm.trans hcore') nofun
    | comment data' rest' =>
      obtain ⟨_, _, hids, hcore', hrest'⟩ := hg
      obtain ⟨rfl, rfl⟩ := List.cons.inj hids
      have hsame := Option.some.inj (hcore.symm.trans hcore')
      rw [Kind.comment.inj (Core.mk.inj hsame).1, ih hrest hrest']
    | element e inside rest' =>
      obtain ⟨_, _, _, hids, -, hcore', -⟩ := hg
      obtain ⟨rfl, -⟩ := List.cons.inj hids
      exact absurd (hcore.symm.trans hcore') nofun
  | element e inside rest ihi ihr =>
    obtain ⟨id, others, kids, rfl, -, hcore, hinside, hrest⟩ := hf
    cases g with
    | nil => exact absurd hg (List.cons_ne_nil _ _)
    | text s rest' =>
      obtain ⟨_, _, hids, hcore', -⟩ := hg
      obtain ⟨rfl, -⟩ := List.cons.inj hids
      exact absurd (hcore.symm.trans hcore') nofun
    | comment data rest' =>
      obtain ⟨_, _, hids, hcore', -⟩ := hg
      obtain ⟨rfl, -⟩ := List.cons.inj hids
      exact absurd (hcore.symm.trans hcore') nofun
    | element e' inside' rest' =>
      obtain ⟨_, _, _, hids, -, hcore', hinside', hrest'⟩ := hg
      obtain ⟨rfl, rfl⟩ := List.cons.inj hids
      obtain ⟨hkind, -, rfl⟩ := Core.mk.inj (Option.some.inj (hcore.symm.trans hcore'))
      rw [Kind.element.inj hkind, ihi hinside hinside', ihr hrest hrest']

/-- A node of a tree has a forest below it. -/
def Below (t : Tree) (id : NodeId) (g : Forest) : Prop :=
  id < t.size ∧ t.Spells id (t.children id) g

theorem below_of_core {id : NodeId} {c : Core} {g : Forest} (h : t.core? id = some c)
    (hg : t.Spells id c.children g) : Below t id g := by
  refine ⟨Tree.lt_size_of_core h, ?_⟩
  rw [Tree.children_of_core h]
  exact hg

/-- On the longest path of a forest there is a node of every smaller height. -/
theorem exists_below (hf : t.Spells parent ids f) {k : Nat} (hk : k < f.height) :
    ∃ id g, Below t id g ∧ g.height = k := by
  -- the longest path goes through the first node or through the rest
  induction f generalizing parent ids with
  | nil => exact absurd hk (Nat.not_lt_zero k)
  | text s rest ih =>
    obtain ⟨id, others, rfl, hcore, hrest⟩ := hf
    rcases Nat.lt_or_ge k rest.height with hlt | hge
    · exact ih hrest hlt
    · rw [Forest.height] at hk
      exact ⟨id, .nil, below_of_core hcore rfl, by rw [Forest.height]; omega⟩
  | comment data rest ih =>
    obtain ⟨id, others, rfl, hcore, hrest⟩ := hf
    rcases Nat.lt_or_ge k rest.height with hlt | hge
    · exact ih hrest hlt
    · rw [Forest.height] at hk
      exact ⟨id, .nil, below_of_core hcore rfl, by rw [Forest.height]; omega⟩
  | element e inside rest ihi ihr =>
    obtain ⟨id, others, kids, rfl, -, hcore, hinside, hrest⟩ := hf
    rcases Nat.lt_or_ge k rest.height with hlt | hge
    · exact ihr hrest hlt
    · rcases Nat.lt_or_ge k inside.height with hlt | hge'
      · exact ihi hinside hlt
      · rw [Forest.height] at hk
        exact ⟨id, inside, below_of_core hcore hinside, by omega⟩

/-- **A forest is not higher than the tree that spells it has nodes.** -/
theorem height_le_size (hf : t.Spells parent ids f) : f.height ≤ t.size := by
  -- a node has one height, so nodes of different heights are different
  choose place forest hbelow hheight using fun k : Fin f.height => exists_below hf k.isLt
  let toPlace (k : Fin f.height) : Fin t.size := ⟨place k, (hbelow k).1⟩
  have hinj : Function.Injective toPlace := by
    intro k k' heq
    have hplace : place k = place k' := congrArg Fin.val heq
    have hsame : forest k = forest k' := by
      have hk' := (hbelow k').2
      rw [← hplace] at hk'
      exact spells_unique (hbelow k).2 hk'
    apply Fin.ext
    rw [← hheight k, ← hheight k', hsame]
  have hcard := Fintype.card_le_of_injective toPlace hinj
  rwa [Fintype.card_fin, Fintype.card_fin] at hcard

/-! ## The markup of a tree -/

theorem writeAll_of_spells {depth : Nat} (raw : Bool) (hf : t.Spells parent ids f) (hd : f.height ≤ depth) :
    writeAll raw (ids.filterMap (t.viewTo depth)) = f.write raw := by
  induction f generalizing raw parent ids depth with
  | nil =>
    obtain rfl := hf
    rfl
  | text s rest ih =>
    obtain ⟨id, others, rfl, hcore, hrest⟩ := hf
    rw [Forest.height] at hd
    obtain ⟨depth, rfl⟩ : ∃ n, depth = n + 1 := ⟨depth - 1, by omega⟩
    rw [List.filterMap_cons, viewTo_eq hcore, writeAll, ih raw hrest (by omega)]
    rfl
  | comment data rest ih =>
    obtain ⟨id, others, rfl, hcore, hrest⟩ := hf
    rw [Forest.height] at hd
    obtain ⟨depth, rfl⟩ : ∃ n, depth = n + 1 := ⟨depth - 1, by omega⟩
    rw [List.filterMap_cons, viewTo_eq hcore, writeAll, ih raw hrest (by omega)]
    rfl
  | element e inside rest ihi ihr =>
    obtain ⟨id, others, kids, rfl, hcontents, hcore, hinside, hrest⟩ := hf
    rw [Forest.height] at hd
    obtain ⟨depth, rfl⟩ : ∃ n, depth = n + 1 := ⟨depth - 1, by omega⟩
    -- the name of a template is none whose text is written as it is
    have hraw : (!isTemplate e && rawTextNames.contains e.name) = rawTextNames.contains e.name := by
      cases htemplate : isTemplate e with
      | false => rfl
      | true =>
        rw [isTemplate, Bool.and_eq_true] at htemplate
        rw [eq_of_beq htemplate.2]
        rfl
    rw [List.filterMap_cons, viewTo_eq hcore, writeAll, ihr raw hrest (by omega), write, hcontents,
      ihi _ hinside (by omega), Forest.write, hraw]
    rfl

theorem parent_of_spells (hf : t.Spells parent ids f) : ∀ id ∈ ids, t.parent? id = some parent := by
  induction f generalizing ids with
  | nil =>
    obtain rfl := hf
    exact fun _ hid => absurd hid List.not_mem_nil
  | text s rest ih =>
    obtain ⟨id, others, rfl, hcore, hrest⟩ := hf
    intro x hx
    rcases List.mem_cons.1 hx with rfl | hx
    · exact Tree.parent?_of_core hcore
    · exact ih hrest x hx
  | comment data rest ih =>
    obtain ⟨id, others, rfl, hcore, hrest⟩ := hf
    intro x hx
    rcases List.mem_cons.1 hx with rfl | hx
    · exact Tree.parent?_of_core hcore
    · exact ih hrest x hx
  | element e inside rest _ ih =>
    obtain ⟨id, others, kids, rfl, -, hcore, -, hrest⟩ := hf
    intro x hx
    rcases List.mem_cons.1 hx with rfl | hx
    · exact Tree.parent?_of_core hcore
    · exact ih hrest x hx

/-- **A document is written as the forest that it spells.** -/
theorem serializeChildren_of_spells (h : t.IsDocumentOf f) : serializeChildren t Tree.root = f.write false := by
  obtain ⟨kids, hcore, hspells⟩ := h.document
  have hroot : t.element? Tree.root = none := by rw [Tree.element?_eq, hcore]; rfl
  have hchildren := Tree.children_of_core hcore
  rw [serializeChildren_of_root hroot]
  · rw [hchildren]
    exact writeAll_of_spells false hspells (height_le_size hspells)
  · rw [hchildren]
    exact parent_of_spells hspells

/-! ## Trees of texts -/

/-- A tree that shows a forest without templates spells it. -/
theorem spells_of_shows {lo : Nat} (hf : Shows t parent lo f) (hnone : ∀ e ∈ f.elements, isTemplate e = false) :
    t.Spells parent (f.places lo) f := by
  induction f generalizing parent lo with
  | nil => exact rfl
  | text s rest ih => exact ⟨lo, _, rfl, hf.1, ih hf.2 hnone⟩
  | comment data rest ih => exact ⟨lo, _, rfl, hf.1, ih hf.2 hnone⟩
  | element e inside rest ihi ihr =>
    obtain ⟨hcontents, hholds, hinside, hrest⟩ := hf
    rw [Forest.elements_element] at hnone
    have htemplate := hnone e List.mem_cons_self
    have hbox : boxOf lo e = lo := by rw [boxOf, htemplate]; rfl
    rw [Holds, htemplate, if_neg Bool.false_ne_true, placed, htemplate, if_neg Bool.false_ne_true] at hholds
    rw [hbox] at hinside hholds
    refine ⟨lo, _, _, rfl, hcontents, hholds, ?_, ?_⟩
    · exact ihi hinside fun x hx => hnone x (List.mem_cons_of_mem _ (List.mem_append_left _ hx))
    · exact ihr hrest fun x hx => hnone x (List.mem_cons_of_mem _ (List.mem_append_right _ hx))

theorem isDocumentOf_of_depicts (h : Depicts t f) (hnone : ∀ e ∈ f.elements, isTemplate e = false) :
    t.IsDocumentOf f :=
  ⟨_, h.document, spells_of_shows h.shows hnone⟩

end Html

end LiveMarkup
