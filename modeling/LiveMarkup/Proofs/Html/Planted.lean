/-
The trees of texts grow.

The builder links a node only when it is new, as the last child of an open element, so the links of its tree agree at
all times (`linked_readAll`). A node of the tree that shows a forest holds later nodes of the forest only: its children,
and the contents of a template, which are nobody's child (`ownsContents_of_shows`). So the tree of a text is one that grows
(`grown_of_parse`).
-/
import LiveMarkup.Proofs.Dom.Pictures
import LiveMarkup.Proofs.Html.Descent
import LiveMarkup.Proofs.Html.Reading

set_option autoImplicit false

namespace LiveMarkup

/-- A text that changes keeps its links. -/
theorem Tree.linked_modifyText {t : Tree} (h : t.Linked) (id : Nat) (f : String → String) :
    (t.modifyText id f).Linked := by
  rw [modifyText]
  refine h.congr (fun i => ?_) (fun i => ?_) fun i => ?_
  · rw [parent?_modify_of]
    intro n
    cases n.kind <;> rfl
  · rw [children_modify_of]
    intro n
    cases n.kind <;> rfl
  · rw [siblings_modify_of]
    intro n
    cases n.kind <;> exact ⟨rfl, rfl⟩

namespace Html

/-! ## Links -/

section Links

variable {b b' : Builder}

theorem linked_pop {record : Tree → Nat → Tree} (h : b.tree.Linked)
    (hrecord : ∀ t id, t.Linked → (record t id).Linked) : (b.pop record).tree.Linked := by
  unfold Builder.pop
  split
  · exact h
  · exact hrecord _ _ h

theorem linked_insertElement {e : Element} {stays : Bool} (h : b.tree.Linked)
    (hok : b.insertElement e stays = .ok b') : b'.tree.Linked := by
  unfold Builder.insertElement at hok
  split at hok
  · cases hok
  · obtain rfl := Except.ok.inj hok
    refine Tree.linked_insertBefore ?_ _ _ _
    have hnew := Tree.linked_alloc h (.element e)
    dsimp only
    split
    · exact Tree.linked_modifyElement (Tree.linked_alloc hnew _) _ _
    · exact hnew

theorem linked_insertLeaf (h : b.tree.Linked) (kind : Kind) : (b.insertLeaf kind).tree.Linked :=
  Tree.linked_insertBefore (Tree.linked_alloc h kind) _ _ _

theorem linked_insertCharacter (h : b.tree.Linked) (c : Char) : (b.insertCharacter c).tree.Linked := by
  unfold Builder.insertCharacter
  split
  · split
    · exact Tree.linked_modifyText h _ _
    · exact linked_insertLeaf h _
  · exact linked_insertLeaf h _

theorem linked_perform {a : Action} (h : b.tree.Linked) (hok : b.perform a = .ok b') : b'.tree.Linked := by
  cases a with
  | note deviation => exact Except.ok.inj hok ▸ h
  | close => exact Except.ok.inj hok ▸ linked_pop h fun t id ht => Tree.linked_modifyElement ht _ _
  | closeBy endTag => exact Except.ok.inj hok ▸ linked_pop h fun t id ht => Tree.linked_modifyElement ht _ _
  | insert e stays => exact linked_insertElement h hok

theorem linked_foldlM {actions : List Action} (h : b.tree.Linked) (hok : actions.foldlM Builder.perform b = .ok b') :
    b'.tree.Linked := by
  induction actions generalizing b with
  | nil => exact Except.ok.inj hok ▸ h
  | cons a actions ih =>
    rw [List.foldlM_cons] at hok
    cases hm : b.perform a with
    | error e =>
      rw [hm] at hok
      cases hok
    | ok m =>
      rw [hm] at hok
      exact ih (linked_perform h hm) hok

theorem linked_endOfFile (h : b.tree.Linked) (offset : Nat) : (b.endOfFile offset).tree.Linked :=
  List.foldlRecOn (motive := Tree.Linked) _ _ h fun _ ht _ _ => Tree.linked_modifyElement ht _ _

theorem linked_read {token : Token} (h : b.tree.Linked) (hok : b.read token = .ok b') : b'.tree.Linked := by
  cases token with
  | character c => exact Except.ok.inj hok ▸ linked_insertCharacter h c
  | comment data span => exact Except.ok.inj hok ▸ linked_insertLeaf h _
  | doctype name span => exact Except.ok.inj hok ▸ h
  | startTag name selfClosing attributes span => exact linked_foldlM h hok
  | endTag name span => exact linked_foldlM h hok
  | endOfFile offset => exact Except.ok.inj hok ▸ linked_endOfFile h offset

/-- **Whatever is read, the links of the tree agree.** -/
theorem linked_readAll {tokens : List Token} (h : b.tree.Linked) (hok : b.readAll tokens = .ok b') :
    b'.tree.Linked := by
  induction tokens generalizing b with
  | nil => exact Except.ok.inj hok ▸ h
  | cons token tokens ih =>
    rw [Builder.readAll] at hok
    cases hm : Builder.read { b with offset := offsetAt b.offset token } token with
    | error e =>
      rw [hm] at hok
      cases hok
    | ok m =>
      rw [hm] at hok
      have hread : m.tree.Linked := linked_read (b := { b with offset := offsetAt b.offset token }) h hm
      exact ih (b := { m with token := b.token + 1 }) hread hok

end Links

/-! ## What a node holds -/

section Held

variable {t : Tree} {text : String} {f : Forest} {parent lo id : Nat}

/-- The elements of a text have no shadow trees. -/
theorem shadow_of_text (h : forestOf text = .ok f) : ∀ e ∈ f.elements, e.shadow = none := by
  intro e he
  rcases made_of_text h e he with ⟨name, rfl⟩ | ⟨token, -, tag, -, hown⟩
  · rfl
  · have hshadow : (reopened e).shadow = none := by
      generalize reopened e = e' at hown
      cases hown <;> rfl
    exact hshadow

/-- Beside its children a node holds the contents of a template only, and these are nobody's child. -/
def OwnsContents (t : Tree) (id : Nat) : Prop :=
  ((t.kind? id).map Kind.links).getD [] = (t.contents? id).toList ∧
    ∀ c, t.contents? id = some c → t.parent? c = none

theorem ownsContents_of_none (hnone : t.contents? id = none) (hlinks : ((t.kind? id).map Kind.links).getD [] = []) :
    OwnsContents t id := by
  refine ⟨?_, fun c hc => ?_⟩
  · rw [hlinks, hnone, Option.toList_none]
  · rw [hnone] at hc
    cases hc

/-- What is no element holds its children only. -/
theorem held_of_leaf {kind : Kind} {p : Option Nat} {kids : List Nat} (hcore : t.core? id = some ⟨kind, p, kids⟩)
    (hkind : ∀ e, kind ≠ .element e) :
    t.contents? id = none ∧ ((t.kind? id).map Kind.links).getD [] = [] := by
  rw [contents?_of_core hcore, Tree.kind?_eq, hcore]
  cases kind with
  | element e => exact absurd rfl (hkind e)
  | _ => exact ⟨rfl, rfl⟩

theorem ownsContents_of_leaf {kind : Kind} {p : Option Nat} {kids : List Nat}
    (hcore : t.core? id = some ⟨kind, p, kids⟩) (hkind : ∀ e, kind ≠ .element e) : OwnsContents t id :=
  ownsContents_of_none (held_of_leaf hcore hkind).1 (held_of_leaf hcore hkind).2

/-- **A node of a tree that shows a forest owns its contents.** -/
theorem ownsContents_of_shows (hf : Shows t parent lo f) (hshadow : ∀ e ∈ f.elements, e.shadow = none) (hlo : lo ≤ id)
    (hhi : id < lo + f.size) : OwnsContents t id := by
  induction f generalizing parent lo with
  | nil => exact absurd hhi (Nat.not_lt.2 hlo)
  | text s rest ih =>
    simp only [Forest.size] at hhi
    by_cases hid : id = lo
    · exact hid ▸ ownsContents_of_leaf hf.1 fun e => Kind.noConfusion
    · exact ih hf.2 hshadow (by omega) (by omega)
  | comment s rest ih =>
    simp only [Forest.size] at hhi
    by_cases hid : id = lo
    · exact hid ▸ ownsContents_of_leaf hf.1 fun e => Kind.noConfusion
    · exact ih hf.2 hshadow (by omega) (by omega)
  | element e inside rest ihi ihr =>
    obtain ⟨hc, hh, hi, hr⟩ := hf
    have hbox := Forest.boxOf_eq lo e
    simp only [Forest.size] at hhi
    have hmem : ∀ e' : Element, e' = e ∨ e' ∈ inside.elements ∨ e' ∈ rest.elements → e'.shadow = none := by
      intro e' he'
      refine hshadow e' ?_
      rw [Forest.elements_element, List.mem_cons, List.mem_append]
      exact he'
    by_cases hself : id = lo
    · subst hself
      have hplaced : (placed id e).shadow = none := by
        unfold placed
        split <;> exact hmem e (.inl rfl)
      have hlinks : ∀ kids, t.core? id = some ⟨.element (placed id e), some parent, kids⟩ →
          ((t.kind? id).map Kind.links).getD [] = (t.contents? id).toList := by
        intro kids hcore
        rw [Tree.kind?_eq, contents?_of_core hcore, hcore, Option.map_some, Option.map_some, Option.getD_some, Kind.links,
          hplaced, Option.toList_none, List.append_nil]
      have hcontents := contents?_of_holds hc hh
      unfold Holds at hh
      split at hh
      · rename_i ht
        refine ⟨hlinks _ hh.1, fun c hsome => ?_⟩
        rw [hcontents, if_pos ht] at hsome
        exact Option.some.inj hsome ▸ Tree.parent?_of_core hh.2
      · rename_i ht
        refine ⟨hlinks _ hh, fun c hsome => ?_⟩
        rw [hcontents, if_neg ht] at hsome
        cases hsome
    · by_cases hin : id < boxOf lo e + 1 + inside.size
      · by_cases hfragment : id ≤ boxOf lo e
        · -- the fragment of a template
          unfold Holds at hh
          unfold boxOf at hfragment
          split at hfragment
          · rename_i ht
            rw [if_pos ht] at hh
            obtain rfl : id = lo + 1 := by omega
            exact ownsContents_of_leaf hh.2 fun e => Kind.noConfusion
          · omega
        · exact ihi hi (fun e' he' => hmem e' (.inr (.inl he'))) (by omega) hin
      · exact ihr hr (fun e' he' => hmem e' (.inr (.inr he'))) (by omega) (by omega)

/-- **The tree of a text grows**, and the contents of templates in it are nobody's children. -/
theorem grown_of_parse (h : parse text = .ok t) :
    t.Grown ∧ ∀ a c, t.contents? a = some c → t.parent? c = none := by
  obtain ⟨f, hf, hd⟩ := forest_of_parse h
  have hlinked : t.Linked := by
    unfold parse parseWithIssues build at h
    cases hb : (Builder.start maxOpenElements).readAll (tokenize text) with
    | error e =>
      rw [hb] at h
      cases h
    | ok b =>
      rw [hb] at h
      obtain rfl := Except.ok.inj h
      exact linked_readAll Tree.linked_empty hb
  have hroot := held_of_leaf hd.document fun e => Kind.noConfusion
  have hsize := hd.size
  have hlinks : ∀ a, OwnsContents t a := by
    intro a
    rcases Nat.eq_zero_or_pos a with rfl | hpos
    · exact ownsContents_of_none hroot.1 hroot.2
    · by_cases ha : a < t.size
      · exact ownsContents_of_shows hd.shows (shadow_of_text hf) hpos (by omega)
      · have hmissing := Tree.get?_of_le (Nat.not_lt.1 ha)
        refine ownsContents_of_none ?_ ?_
        · rw [Tree.contents?, Tree.element?, hmissing]
          rfl
        · rw [Tree.kind?, hmissing]
          rfl
  refine ⟨⟨hlinked, fun a b hb => ?_⟩, fun a => (hlinks a).2⟩
  rw [Tree.held, (hlinks a).1, List.mem_append, Option.mem_toList] at hb
  rcases Nat.eq_zero_or_pos a with rfl | hpos
  · -- the children of the document are the outermost nodes of the forest
    have hmem : b ∈ f.places 1 := by
      rcases hb with hb | hb
      · rwa [show t.children 0 = f.places 1 from Tree.children_of_core hd.document] at hb
      · cases hroot.1.symm.trans hb
    have hplace := mem_places hmem
    omega
  · have ha : a < t.size := by
      rcases hb with hb | hb
      · exact Tree.lt_size_of_mem hb
      · exact Tree.lt_size_of_contents hb
    have hbelow := below_of_shows hd.shows hpos (by omega) hb
    omega

end Held

end Html

end LiveMarkup
