/-
Nodes in the place of others.

A tree in which new nodes take the place of some nodes lists the new ones wherever it listed a node before, and changes
in nothing else (`Substitutes`); such changes follow on one another (`Substitutes.trans`). Copies are put before a node
one behind the other (`GainsBefore`) until the node is taken out (`Replaces`), and this is done for one node after another
(`Spliced`). What a tree shows in the end is what it showed before, with views in the place of the nodes
(`picture_of_spliced`).
-/
import LiveMarkup.Proofs.Dom.Growth

set_option autoImplicit false

namespace LiveMarkup

namespace Tree

open View

variable {t t' t'' : Tree} {stand stand' : Nat → List Nat} {n parent lo id c : Nat} {ps qs : List View} {p : View}
  {new ids : List Nat}

/-! ## What stands for a node -/

theorem flatMap_of_kept (h : ∀ c ∈ ids, stand c = [c]) : ids.flatMap stand = ids :=
  (List.flatMap_congr h).trans (List.flatMap_singleton' ids)

/-- Others stand for one node, and every other node for itself. -/
def instead (n : Nat) (new : List Nat) (c : Nat) : List Nat := if c = n then new else [c]

theorem instead_self (n : Nat) (new : List Nat) : instead n new n = new := if_pos rfl

theorem instead_of_ne (h : c ≠ n) (new : List Nat) : instead n new c = [c] := if_neg h

theorem flatMap_instead_of_not_mem (h : n ∉ ids) (new : List Nat) : ids.flatMap (instead n new) = ids :=
  flatMap_of_kept fun _ hc => instead_of_ne (ne_of_mem_of_not_mem hc h) new

theorem filter_ne_eq_flatMap (n : Nat) (ids : List Nat) : ids.filter (· != n) = ids.flatMap (instead n []) := by
  induction ids with
  | nil => rfl
  | cons c ids ih =>
    rw [List.filter_cons, List.flatMap_cons, ih]
    by_cases hc : c = n
    · rw [hc, instead_self, if_neg (by simp), List.nil_append]
    · rw [instead_of_ne hc, if_pos (by simpa using hc)]
      rfl

/-- What is put before a node comes together with it. -/
theorem insertInto_eq_flatMap (hnodup : ids.Nodup) (hn : n ∈ ids) :
    insertInto c (some n) ids = ids.flatMap (instead n [c, n]) := by
  obtain ⟨before, after, hids, hinsert, hhead⟩ := insertInto_spec c (some n) ids
  rw [Option.filter_some_pos (by simpa using hn)] at hhead
  cases after with
  | nil => cases hhead
  | cons m after =>
    obtain rfl := Option.some.inj hhead
    rw [hids, List.nodup_middle, List.nodup_cons, List.mem_append, not_or] at hnodup
    rw [hinsert, hids, List.flatMap_append, List.flatMap_cons, flatMap_instead_of_not_mem hnodup.1.1,
      flatMap_instead_of_not_mem hnodup.1.2, instead_self]
    rfl

/-! ## Trees with nodes in the place of others -/

/-- A tree in which nodes stand for the nodes of another: each for itself or for none, with new ones. -/
structure Substitutes (t : Tree) (stand : Nat → List Nat) (t' : Tree) : Prop where
  grown : t'.Grown
  size_le : t.size ≤ t'.size
  kind : ∀ i < t.size, t'.kind? i = t.kind? i
  children : ∀ i < t.size, t'.children i = (t.children i).flatMap stand
  fresh : ∀ c, ∀ d ∈ stand c, d = c ∨ t.size ≤ d

theorem Substitutes.refl (h : t.Grown) (hstand : ∀ c, stand c = [c]) : Substitutes t stand t where
  grown := h
  size_le := Nat.le_refl _
  kind _ _ := rfl
  children _ _ := (flatMap_of_kept fun c _ => hstand c).symm
  fresh c _ hd := .inl (List.mem_singleton.1 (hstand c ▸ hd))

/-- **What stands for what stands for a node** stands for it. -/
theorem Substitutes.trans (h : Substitutes t stand t') (h' : Substitutes t' stand' t'') :
    Substitutes t (fun c => (stand c).flatMap stand') t'' where
  grown := h'.grown
  size_le := Nat.le_trans h.size_le h'.size_le
  kind i hi := (h'.kind i (Nat.lt_of_lt_of_le hi h.size_le)).trans (h.kind i hi)
  children i hi := by rw [h'.children i (Nat.lt_of_lt_of_le hi h.size_le), h.children i hi, List.flatMap_assoc]
  fresh c d hd := by
    obtain ⟨e, he, hd⟩ := List.mem_flatMap.1 hd
    have hsize := h.size_le
    rcases h.fresh c e he with heq | hnew
    · exact heq ▸ (h'.fresh e d hd).imp_right (Nat.le_trans hsize)
    · rcases h'.fresh e d hd with rfl | hd
      · exact .inr hnew
      · exact .inr (Nat.le_trans hsize hd)

theorem Substitutes.congr (h : Substitutes t stand t') (hsame : ∀ c, stand c = stand' c) : Substitutes t stand' t' :=
  (funext hsame : stand = stand') ▸ h

/-- Nodes from a place on that stand for themselves show what they showed. -/
theorem Substitutes.picture_eq_of_kept (h : Substitutes t stand t') (hgrown : t.Grown)
    (hkept : ∀ c, lo ≤ c → stand c = [c]) (hlo : lo ≤ id) (hid : id < t.size) : t'.picture id = t.picture id := by
  refine picture_congr hgrown h.grown (Nat.le_refl _) (fun a b _ _ hb => (hgrown.later a b hb).2)
    (fun i hi hi' => ⟨h.kind i hi', ?_⟩) hlo hid
  rw [h.children i hi']
  refine flatMap_of_kept fun c hc => hkept c ?_
  have hlater := (hgrown.later i c (mem_held_of_children hc)).1
  omega

/-- A copy before a node comes together with the node. -/
theorem Puts.substitutes (h : Puts t parent (some n) p t') (hlinked : t.Linked) (hn : n ∈ t.children parent) :
    Substitutes t (instead n [t.size, n]) t' where
  grown := h.grown
  size_le := Nat.le_of_lt h.size_lt
  kind := h.kind
  children i hi := by
    rw [h.children i hi]
    split
    · rename_i heq
      rw [heq, insertInto_eq_flatMap (hlinked.nodup parent) hn]
    · rename_i hne
      exact (flatMap_instead_of_not_mem (fun hmem => hne (hlinked.parent_unique hmem hn)) _).symm
  fresh c d hd := by
    unfold instead at hd
    split at hd
    · rename_i hc
      rcases List.mem_cons.1 hd with rfl | hd
      · exact .inr (Nat.le_refl _)
      · exact .inl (hc ▸ List.mem_singleton.1 hd)
    · exact .inl (List.mem_singleton.1 hd)

/-- Nothing stands for a node that is taken out. -/
theorem substitutes_detach (h : t.Grown) (n : Nat) : Substitutes t (instead n []) (t.detach n) where
  grown := grown_detach h n
  size_le := Nat.le_of_eq (size_detach t n).symm
  kind i _ := kind?_detach t n i
  children i _ := by rw [children_detach h.linked, filter_ne_eq_flatMap]
  fresh c d hd := by
    unfold instead at hd
    split at hd
    · cases hd
    · exact .inl (List.mem_singleton.1 hd)

/-! ## In the place of one node -/

/-- A tree with new nodes before one node, known by their pictures. -/
def GainsBefore (t : Tree) (n : Nat) (ps : List View) (t' : Tree) : Prop :=
  ∃ new, Substitutes t (instead n (new ++ [n])) t' ∧ (∀ c ∈ new, t.size ≤ c ∧ c < t'.size) ∧ new.map t'.picture = ps

theorem GainsBefore.refl (h : t.Grown) (n : Nat) : GainsBefore t n [] t := by
  refine ⟨[], .refl h fun c => ?_, nofun, rfl⟩
  unfold instead
  split
  · rename_i hc
    rw [hc, List.nil_append]
  · rfl

theorem GainsBefore.mem (h : GainsBefore t n ps t') (hn : n ∈ t.children parent) : n ∈ t'.children parent := by
  obtain ⟨new, hsub, -⟩ := h
  rw [hsub.children parent (lt_size_of_mem hn)]
  refine List.mem_flatMap.2 ⟨n, hn, ?_⟩
  rw [instead_self]
  exact List.mem_append_right _ List.mem_cons_self

/-- **What is put before a node after something else stands behind it.** -/
theorem GainsBefore.put (h : GainsBefore t n ps t') (hgrown : t.Grown) (hn : n ∈ t.children parent)
    (hput : Puts t' parent (some n) p t'') : GainsBefore t n (ps ++ [p]) t'' := by
  have hmem := h.mem hn
  obtain ⟨new, hsub, hnew, rfl⟩ := h
  have hlt := (hgrown.later parent n (mem_held_of_children hn)).2
  have hsize := hsub.size_le
  have hnext := hput.substitutes hsub.grown.linked hmem
  have hfresh : n ∉ new := fun hn => absurd (hnew n hn).1 (Nat.not_le.2 hlt)
  refine ⟨new ++ [t'.size], (hsub.trans hnext).congr fun c => ?_, fun c hc => ?_, ?_⟩
  · by_cases hc : c = n
    · rw [hc, instead_self, instead_self, List.flatMap_append, flatMap_instead_of_not_mem hfresh, List.flatMap_singleton,
        instead_self, List.append_assoc]
      rfl
    · rw [instead_of_ne hc, instead_of_ne hc, List.flatMap_singleton, instead_of_ne hc]
  · have hsize' := hput.size_lt
    rcases List.mem_append.1 hc with hc | hc
    · have := hnew c hc
      omega
    · rw [List.mem_singleton.1 hc]
      exact ⟨hsize, hsize'⟩
  · rw [List.map_append, List.map_singleton, hput.picture]
    congr 1
    refine List.map_congr_left fun c hc => ?_
    refine hnext.picture_eq_of_kept hsub.grown (fun d hd => instead_of_ne ?_ _) (hnew c hc).1 (hnew c hc).2
    omega

/-- A new node that holds nothing is put before a node. -/
theorem GainsBefore.addChild (h : GainsBefore t n ps t') (hgrown : t.Grown) (hn : n ∈ t.children parent) {kind : Kind}
    (hkind : copiedKind kind = kind) :
    GainsBefore t n (ps ++ [.node 0 kind [] []]) (t'.addChild kind parent (some n)).1 := by
  have hgrown' : t'.Grown := by
    obtain ⟨new, hsub, -⟩ := h
    exact hsub.grown
  have hcopy := copiesView_alloc t' 0 kind
  have hput := puts_copy hgrown' (lt_size_of_mem (h.mem hn)) hcopy (by rw [hkind]; exact linked_alloc hgrown'.linked kind)
    (some n)
  simp only [bare, bareAll, hkind] at hput
  exact h.put hgrown hn hput

/-- Copied children are put before a node. -/
theorem GainsBefore.importChildren (h : GainsBefore t n ps t') (hgrown : t.Grown) (hn : n ∈ t.children parent) (source : Tree)
    (id : Nat) :
    GainsBefore t n (ps ++ source.picturesOf (source.children id)) (t'.importChildren source id parent (some n)) := by
  have hgrowing : ∀ {ps : List View} {t' : Tree}, GainsBefore t n ps t' → t'.Grown := fun ⟨_, hsub, _⟩ => hsub.grown
  refine importChildren_ind (P := fun ps t' => GainsBefore t n ps t') source (fun ps t' h => (hgrowing h).linked)
    (fun ps t' v t'' h hcopy hlinked => ?_) id h
  exact h.put hgrown hn (puts_copy (hgrowing h) (lt_size_of_mem (h.mem hn)) hcopy hlinked (some n))

/-- A tree with new nodes in the place of one node, known by their pictures. -/
def Replaces (t : Tree) (n : Nat) (ps : List View) (t' : Tree) : Prop :=
  ∃ new, Substitutes t (instead n new) t' ∧ (∀ c ∈ new, t.size ≤ c ∧ c < t'.size) ∧ new.map t'.picture = ps

/-- **What was put before a node takes its place** when the node is taken out. -/
theorem GainsBefore.removeChild (h : GainsBefore t n ps t') (hgrown : t.Grown) (hn : n ∈ t.children parent) :
    Replaces t n ps (t'.removeChild parent n) := by
  have hmem := h.mem hn
  obtain ⟨new, hsub, hnew, rfl⟩ := h
  have hlt := (hgrown.later parent n (mem_held_of_children hn)).2
  have hremove : t'.removeChild parent n = t'.detach n := if_pos ((hsub.grown.linked.parent_iff parent n).2 hmem)
  have hnext := substitutes_detach hsub.grown n
  have hfresh : n ∉ new := fun hn => absurd (hnew n hn).1 (Nat.not_le.2 hlt)
  rw [hremove]
  refine ⟨new, (hsub.trans hnext).congr fun c => ?_, fun c hc => ?_, ?_⟩
  · by_cases hc : c = n
    · rw [hc, instead_self, instead_self, List.flatMap_append, flatMap_instead_of_not_mem hfresh, List.flatMap_singleton,
        instead_self, List.append_nil]
    · rw [instead_of_ne hc, instead_of_ne hc, List.flatMap_singleton, instead_of_ne hc]
  · rw [size_detach]
    exact hnew c hc
  · refine List.map_congr_left fun c hc => ?_
    refine hnext.picture_eq_of_kept hsub.grown (fun d hd => instead_of_ne ?_ _) (hnew c hc).1 (hnew c hc).2
    omega

/-! ## In the place of many -/

/-- A tree with views in the place of some nodes. -/
def Spliced (t : Tree) (done : List (Nat × List View)) (t' : Tree) : Prop :=
  ∃ stand, Substitutes t stand t' ∧ (∀ c, c ∉ done.map (·.1) → stand c = [c]) ∧
    ∀ x ∈ done, (∀ d ∈ stand x.1, t.size ≤ d ∧ d < t'.size) ∧ (stand x.1).map t'.picture = bareAll x.2

theorem Spliced.refl (h : t.Grown) : Spliced t [] t :=
  ⟨fun c => [c], .refl h fun _ => rfl, fun _ _ => rfl, nofun⟩

theorem Spliced.grown {done : List (Nat × List View)} (h : Spliced t done t') : t'.Grown := by
  obtain ⟨stand, hsub, -⟩ := h
  exact hsub.grown

/-- A node that was not replaced is what it was, and where it was. -/
theorem Spliced.mem {done : List (Nat × List View)} (h : Spliced t done t') (hn : n ∉ done.map (·.1))
    (hmem : n ∈ t.children parent) (hlt : n < t.size) : n ∈ t'.children parent ∧ t'.kind? n = t.kind? n := by
  obtain ⟨stand, hsub, hkept, -⟩ := h
  refine ⟨?_, hsub.kind n hlt⟩
  rw [hsub.children parent (lt_size_of_mem hmem)]
  refine List.mem_flatMap.2 ⟨n, hmem, ?_⟩
  rw [hkept n hn]
  exact List.mem_cons_self

/-- **One node more is replaced.** -/
theorem Spliced.step {done : List (Nat × List View)} {vs : List View} (h : Spliced t done t')
    (hn : n ∉ done.map (·.1)) (hlt : n < t.size) (hreplaces : Replaces t' n (bareAll vs) t'') :
    Spliced t (done ++ [(n, vs)]) t'' := by
  obtain ⟨stand, hsub, hkept, hdone⟩ := h
  obtain ⟨new, hnext, hnew, hpictures⟩ := hreplaces
  have hsize := hsub.size_le
  have hsize' := hnext.size_le
  refine ⟨_, hsub.trans hnext, fun c hc => ?_, fun x hx => ?_⟩
  · rw [List.map_append, List.mem_append, not_or] at hc
    rw [hkept c hc.1, List.flatMap_singleton, instead_of_ne fun heq => hc.2 (List.mem_singleton.2 heq)]
  · rcases List.mem_append.1 hx with hx | hx
    · obtain ⟨hfresh, hpicture⟩ := hdone x hx
      -- what stands for it already is new, so it is not the node and changes no more
      have hsame : (stand x.1).flatMap (instead n new) = stand x.1 := by
        refine flatMap_instead_of_not_mem (fun hmem => ?_) new
        have := (hfresh n hmem).1
        omega
      rw [hsame, ← hpicture]
      refine ⟨fun d hd => ⟨(hfresh d hd).1, Nat.lt_of_lt_of_le (hfresh d hd).2 hsize'⟩, List.map_congr_left fun d hd => ?_⟩
      refine hnext.picture_eq_of_kept hsub.grown (fun e he => instead_of_ne ?_ _) (hfresh d hd).1 (hfresh d hd).2
      omega
    · rw [List.mem_singleton.1 hx]
      dsimp only
      rw [hkept n hn, List.flatMap_singleton, instead_self]
      exact ⟨fun d hd => ⟨Nat.le_trans hsize (hnew d hd).1, (hnew d hd).2⟩, hpictures⟩



end Tree

/-! ## What is shown -/

namespace View

mutual

/-- What becomes of a view when views take the place of some of its nodes. What a template contains stays. -/
def replaced (f : Nat → Option (List View)) : View → List View
  | .node id kind contents children =>
    match f id with
    | some vs => vs
    | none => [.node id kind contents (replacedAll f children)]

/-- What becomes of several views, one after the other. -/
def replacedAll (f : Nat → Option (List View)) : List View → List View
  | [] => []
  | v :: rest => v.replaced f ++ replacedAll f rest

end

theorem replaced_of_some {f : Nat → Option (List View)} {v : View} {vs : List View} (h : f v.id = some vs) :
    v.replaced f = vs := by
  cases v with
  | node id kind contents children =>
    have h : f id = some vs := h
    rw [replaced, h]

theorem replacedAll_eq (f : Nat → Option (List View)) (vs : List View) : replacedAll f vs = vs.flatMap (replaced f) := by
  induction vs with
  | nil => rfl
  | cons v vs ih => rw [replacedAll, ih, List.flatMap_cons]

theorem bareAll_append (vs ws : List View) : bareAll (vs ++ ws) = bareAll vs ++ bareAll ws := by
  rw [bareAll_eq, bareAll_eq, bareAll_eq, List.map_append]

end View

namespace Tree

open View

variable {t t' : Tree} {stand : Nat → List Nat} {v : View} {f : Nat → Option (List View)}

/-- A part of a tree in which every node stands for itself shows what it showed. -/
theorem Substitutes.shows (h : Substitutes t stand t') (hv : t.Shows v) (hkept : ∀ i ∈ v.places, stand i = [i]) :
    t'.Shows v := by
  refine hv.congr fun i hi => ?_
  obtain ⟨w, hw, rfl⟩ := List.mem_map.1 hi
  have hagrees := (hv.part hw).agrees
  have hlt := lt_size_of_kind hagrees.kind
  refine ⟨h.kind w.id hlt, ?_⟩
  rw [h.children w.id hlt, hagrees.children]
  refine flatMap_of_kept fun c hc => ?_
  obtain ⟨u, hu, rfl⟩ := List.mem_map.1 hc
  exact hkept u.id (List.mem_map_of_mem (mem_parts_trans hw (mem_parts_of_children hu)))

/-- **What stands for a node shows what becomes of the node**, if nothing in templates is replaced. -/
theorem Substitutes.pictures (h : Substitutes t stand t') (hkept : ∀ c, f c = none → stand c = [c])
    (hdone : ∀ c vs, f c = some vs → (stand c).map t'.picture = bareAll vs) (hv : t.Shows v)
    (hcontents : ∀ w ∈ v.parts, ∀ u ∈ w.contents, ∀ i ∈ u.places, f i = none) :
    (stand v.id).map t'.picture = bareAll (v.replaced f) := by
  induction v using View.ind with
  | node id kind contents children _ ihchildren =>
    have hkind : t.kind? id = some kind := hv.agrees.kind
    have hlt := lt_size_of_kind hkind
    cases hf : f id with
    | some vs =>
      rw [replaced_of_some hf]
      exact hdone id vs hf
    | none =>
      have hchildren : (t'.children id).map t'.picture = bareAll (replacedAll f children) := by
        have hlist : t.children id = children.map View.id := hv.agrees.children
        rw [h.children id hlt, hlist, List.flatMap_map, List.map_flatMap, replacedAll_eq, bareAll_eq, List.map_flatMap]
        refine List.flatMap_congr fun w hw => ?_
        rw [ihchildren w hw (hv.of_mem_children hw) fun x hx =>
          hcontents x (mem_parts_trans (mem_parts_of_children hw) hx), bareAll_eq]
      have hinside : kind.contents?.toList.map t'.picture = bareAll contents := by
        have hlist : kind.contents?.toList = contents.map View.id := hv.agrees.contents
        rw [hlist, List.map_map, bareAll_eq]
        refine List.map_congr_left fun u hu => ?_
        exact picture_of_shows h.grown (h.shows (hv.of_mem_contents hu) fun i hi =>
          hkept i (hcontents _ (mem_parts_self _) u hu i hi))
      rw [View.id, hkept id hf, replaced, hf, List.map_singleton, picture_eq h.grown ((h.kind id hlt).trans hkind), hinside,
        hchildren]
      rfl

/-- **What is shown in the end** is what was shown, with views in the place of the nodes. -/
theorem picture_of_spliced {done : List (Nat × List View)} (h : Spliced t done t') (hv : t.Shows v)
    (hid : done.lookup v.id = none)
    (hcontents : ∀ w ∈ v.parts, ∀ u ∈ w.contents, ∀ i ∈ u.places, done.lookup i = none) :
    [t'.picture v.id] = bareAll (v.replaced (done.lookup ·)) := by
  obtain ⟨stand, hsub, hkept, hdone⟩ := h
  have hkept : ∀ c, done.lookup c = none → stand c = [c] := by
    intro c hc
    refine hkept c fun hmem => ?_
    obtain ⟨x, hx, rfl⟩ := List.mem_map.1 hmem
    exact absurd (List.lookup_eq_none_iff.1 hc x hx) (by simp)
  have hpictures := hsub.pictures (f := (done.lookup ·)) hkept (fun c vs hc => ?_) hv hcontents
  · rwa [hkept v.id hid] at hpictures
  · obtain ⟨before, after, rfl, -⟩ := List.lookup_eq_some_iff.1 hc
    exact (hdone (c, vs) (List.mem_append_right _ List.mem_cons_self)).2

/-! ## What is in a template -/

/-- The way up from a place of a part goes where the way up from the part goes, or ends in a template on it. -/
theorem exists_end_of_place {q : Nat} (hgrown : t.Grown) (hfree : ∀ a c, t.contents? a = some c → t.parent? c = none)
    (hv : t.Shows v) (hq : Leads t.parent? v.id q) (hend : t.parent? q = none) (hpos : Tree.root < q) {i : Nat}
    (hi : i ∈ v.places) : ∃ q, Leads t.parent? i q ∧ t.parent? q = none ∧ Tree.root < q := by
  induction v using View.ind generalizing q with
  | node id kind contents children ihcontents ihchildren =>
    obtain ⟨w, hw, rfl⟩ := List.mem_map.1 hi
    rw [parts, List.mem_cons, List.mem_append, mem_partsAll, mem_partsAll] at hw
    rcases hw with rfl | ⟨u, hu, hw⟩ | ⟨u, hu, hw⟩
    · exact ⟨q, hq, hend, hpos⟩
    · have hcontents := hv.contents? hu
      have hlater := (hgrown.later id u.id (mem_held_of_contents hcontents)).1
      exact ihcontents u hu (hv.of_mem_contents hu) (Leads.refl _ _) (hfree id u.id hcontents)
        (Nat.lt_of_le_of_lt (Nat.zero_le id) hlater) (List.mem_map_of_mem hw)
    · have hparent : t.parent? u.id = some id := by
        rw [hgrown.linked.parent_iff, show t.children id = children.map View.id from hv.agrees.children]
        exact List.mem_map_of_mem hu
      exact ihchildren u hu (hv.of_mem_children hu) (Leads.head hparent hq) hend hpos (List.mem_map_of_mem hw)

/-- **What is in a template is no descendant of the document**, if contents are nobody's children. -/
theorem not_mem_descendants_of_contents (hgrown : t.Grown) (hfree : ∀ a c, t.contents? a = some c → t.parent? c = none)
    (hroot : t.parent? Tree.root = none) (hv : t.Shows v) {w u : View} (hw : w ∈ v.parts) (hu : u ∈ w.contents) {i : Nat}
    (hi : i ∈ u.places) : i ∉ t.descendants Tree.root := by
  intro hmem
  have hshows := hv.part hw
  have hcontents := hshows.contents? hu
  have hpos := Nat.lt_of_le_of_lt (Nat.zero_le w.id) (hgrown.later _ _ (mem_held_of_contents hcontents)).1
  obtain ⟨q, hq, hend, hlt⟩ := exists_end_of_place hgrown hfree (hshows.of_mem_contents hu) (Leads.refl _ _)
    (hfree _ _ hcontents) hpos hi
  obtain ⟨c, hc, hleads⟩ := leads_of_mem_visit hgrown.linked hmem
  have hup := hleads.tail ((hgrown.linked.parent_iff _ c).2 hc)
  exact Nat.ne_of_lt hlt (hup.unique hq hroot hend)

end Tree

end LiveMarkup
