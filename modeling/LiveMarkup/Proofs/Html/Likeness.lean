/-
Reading a text in which some bytes were replaced.

When bytes of a text are replaced, what stands before them stays and what stands after them moves. Two
forests are alike when they differ in this way, and in their text and comments (`Alike`). Like drafts stay
alike when the same tokens are read, once at their old places and once at their new ones
(`like_readAll`): the rules of markup look at names only.
-/
import LiveMarkup.Proofs.Html.Lexing.Shift
import LiveMarkup.Proofs.Html.Naming
import LiveMarkup.Proofs.Html.Nesting
import Mathlib.Data.List.Forall2

set_option autoImplicit false

namespace LiveMarkup.Html

open Plan

/-- A replacement of bytes: what stood from `hi` on stands from `hi'` on. -/
structure Change where
  /-- Where the replaced bytes start. -/
  lo : Nat
  /-- Where they ended. -/
  hi : Nat
  /-- Where the bytes that replace them end. -/
  hi' : Nat
  /-- The attributes of an element after the change. -/
  attributes : Element → List Attribute

namespace Change

variable (c : Change)

/-- An offset before and after the change. -/
def Moved (x x' : Nat) : Prop := (x ≤ c.lo ∧ x' = x) ∨ ∃ k, x = k + c.hi ∧ x' = k + c.hi'

/-- A span before and after the change. -/
structure MovedSpan (s s' : Span) : Prop where
  start : c.Moved s.start s'.start
  stop : c.Moved s.stop s'.stop

/-- A tag before and after the change: it stands before or after the replaced bytes, or it is what was
replaced. -/
inductive MovedTag : Span → Span → Prop
  | before {s : Span} : s.start ≤ c.lo → s.stop ≤ c.lo → MovedTag s s
  | edited : MovedTag ⟨c.lo, c.hi⟩ ⟨c.lo, c.hi'⟩
  | after (s : Span) : MovedTag (shiftSpan c.hi s) (shiftSpan c.hi' s)

/-- A location before and after the change. -/
structure MovedLocation (l l' : Location) : Prop where
  startTag : c.MovedTag l.startTag l'.startTag
  endTag : Option.Rel c.MovedTag l.endTag l'.endTag
  span : c.MovedSpan l.span l'.span
  selfClosing : l'.selfClosing = l.selfClosing

/-- An element before and after the change. -/
structure Like (e e' : Element) : Prop where
  name : e'.name = e.name
  space : e'.space = e.space
  attributes : e'.attributes = c.attributes e
  location : Option.Rel c.MovedLocation e.location e'.location

/-- A forest before and after the change; text and comments may differ. -/
inductive Alike : Forest → Forest → Prop
  | nil : Alike .nil .nil
  | textLeft (s : String) {f f' : Forest} : Alike f f' → Alike (.text s f) f'
  | textRight (s : String) {f f' : Forest} : Alike f f' → Alike f (.text s f')
  | commentLeft (s : String) {f f' : Forest} : Alike f f' → Alike (.comment s f) f'
  | commentRight (s : String) {f f' : Forest} : Alike f f' → Alike f (.comment s f')
  | element {e e' : Element} {inside inside' rest rest' : Forest} : c.Like e e' → Alike inside inside' →
      Alike rest rest' → Alike (.element e inside rest) (.element e' inside' rest')

/-- An open element before and after the change. -/
structure LikeFrame (f f' : Frame) : Prop where
  element : c.Like f.element f'.element
  inside : c.Alike f.inside f'.inside

/-- A draft before and after the change. -/
structure LikeDraft (d d' : Draft) : Prop where
  done : c.Alike d.done d'.done
  opened : List.Forall₂ c.LikeFrame d.opened d'.opened

/-- The change replaces bytes, and changes attributes of elements only whose start tag stands there. -/
structure Sound : Prop where
  le : c.lo ≤ c.hi
  le' : c.lo ≤ c.hi'
  implied : ∀ e, e.location = none → c.attributes e = e.attributes
  outside : ∀ e l, e.location = some l → l.startTag.start < c.lo ∨ c.hi ≤ l.startTag.start →
    c.attributes e = e.attributes
  relocate : ∀ record e, (∀ l, (record l).startTag = l.startTag) →
    c.attributes (relocate record e) = c.attributes e

/-! ## Offsets -/

variable {c}

theorem moved_before {x : Nat} (h : x ≤ c.lo) : c.Moved x x := .inl ⟨h, rfl⟩

theorem moved_after (k : Nat) : c.Moved (k + c.hi) (k + c.hi') := .inr ⟨k, rfl, rfl⟩

theorem moved_max (hc : c.Sound) {x x' y y' : Nat} (hx : c.Moved x x') (hy : c.Moved y y') :
    c.Moved (max x y) (max x' y') := by
  have hle := hc.le
  have hle' := hc.le'
  rcases hx with ⟨hx, rfl⟩ | ⟨k, rfl, rfl⟩
  · rcases hy with ⟨hy, rfl⟩ | ⟨m, rfl, rfl⟩
    · exact .inl ⟨Nat.max_le.2 ⟨hx, hy⟩, rfl⟩
    · exact .inr ⟨m, Nat.max_eq_right (by omega), Nat.max_eq_right (by omega)⟩
  · rcases hy with ⟨hy, rfl⟩ | ⟨m, rfl, rfl⟩
    · exact .inr ⟨k, Nat.max_eq_left (by omega), Nat.max_eq_left (by omega)⟩
    · exact .inr ⟨max k m, Nat.add_max_add_right .., Nat.add_max_add_right ..⟩

theorem movedSpan_of_tag {s s' : Span} (h : c.MovedTag s s') : c.MovedSpan s s' := by
  cases h with
  | before hstart hstop => exact ⟨moved_before hstart, moved_before hstop⟩
  | edited => exact ⟨moved_before (Nat.le_refl _), .inr ⟨0, (Nat.zero_add _).symm, (Nat.zero_add _).symm⟩⟩
  | after s => exact ⟨moved_after s.start, moved_after s.stop⟩

theorem movedLocation_opened {tag tag' : Span} (h : c.MovedTag tag tag') (sc : Bool) :
    c.MovedLocation (.opened tag sc) (.opened tag' sc) := ⟨h, .none, movedSpan_of_tag h, rfl⟩

theorem movedLocation_closedAt (hc : c.Sound) {offset offset' : Nat} (ho : c.Moved offset offset')
    {l l' : Location} (h : c.MovedLocation l l') : c.MovedLocation (l.closedAt offset) (l'.closedAt offset') :=
  ⟨h.startTag, h.endTag, ⟨h.span.start, moved_max hc ho (movedSpan_of_tag h.startTag).stop⟩, h.selfClosing⟩

theorem movedLocation_closedBy {endTag endTag' : Span} (he : c.MovedTag endTag endTag') {l l' : Location}
    (h : c.MovedLocation l l') : c.MovedLocation (l.closedBy endTag) (l'.closedBy endTag') :=
  ⟨h.startTag, .some he, ⟨h.span.start, (movedSpan_of_tag he).stop⟩, h.selfClosing⟩

theorem like_relocate (hc : c.Sound) {record record' : Location → Location}
    (hrecord : ∀ l, (record l).startTag = l.startTag)
    (h : ∀ l l', c.MovedLocation l l' → c.MovedLocation (record l) (record' l')) {e e' : Element}
    (he : c.Like e e') : c.Like (relocate record e) (relocate record' e') := by
  refine ⟨he.name, he.space, ?_, ?_⟩
  · rw [hc.relocate record e hrecord]
    exact he.attributes
  · obtain ⟨-, -, -, hl⟩ := he
    unfold relocate
    generalize e.location = location at hl
    generalize e'.location = location' at hl
    cases hl with
    | none => exact .none
    | some hl => exact .some (h _ _ hl)

/-! ## Forests -/

theorem alike_append {f f' g g' : Forest} (hf : c.Alike f f') (hg : c.Alike g g') :
    c.Alike (f ++ g) (f' ++ g') := by
  induction hf with
  | nil => exact hg
  | textLeft s _ ih => exact .textLeft s ih
  | textRight s _ ih => exact .textRight s ih
  | commentLeft s _ ih => exact .commentLeft s ih
  | commentRight s _ ih => exact .commentRight s ih
  | element he hi _ _ ih => exact .element he hi ih

theorem alike_pushChar_left {f f' : Forest} (x : Char) (h : c.Alike f f') : c.Alike (f.pushChar x) f' := by
  induction h with
  | nil => exact .textLeft _ .nil
  | @textLeft s f f' h ih =>
    cases f with
    | nil => exact .textLeft _ h
    | text t rest => exact .textLeft s ih
    | comment t rest => exact .textLeft s ih
    | element e inside rest => exact .textLeft s ih
  | textRight s _ ih => exact .textRight s ih
  | commentLeft s _ ih => exact .commentLeft s ih
  | commentRight s _ ih => exact .commentRight s ih
  | element he hi _ _ ih => exact .element he hi ih

theorem alike_pushChar_right {f f' : Forest} (x : Char) (h : c.Alike f f') : c.Alike f (f'.pushChar x) := by
  induction h with
  | nil => exact .textRight _ .nil
  | textLeft s _ ih => exact .textLeft s ih
  | @textRight s f f' h ih =>
    cases f' with
    | nil => exact .textRight _ h
    | text t rest => exact .textRight s ih
    | comment t rest => exact .textRight s ih
    | element e inside rest => exact .textRight s ih
  | commentLeft s _ ih => exact .commentLeft s ih
  | commentRight s _ ih => exact .commentRight s ih
  | element he hi _ _ ih => exact .element he hi ih

/-- An element that stands before the change is like itself. -/
theorem like_self (hc : c.Sound) {e : Element}
    (h : ∀ l, e.location = some l → Placed l ∧ l.startTag.stop ≤ c.lo ∧ l.span.stop ≤ c.lo) : c.Like e e := by
  cases hl : e.location with
  | none => exact ⟨rfl, rfl, (hc.implied e hl).symm, by rw [hl]; exact .none⟩
  | some l =>
    obtain ⟨hp, htag, hstop⟩ := h l hl
    have hstart := hp.start
    have hopening := hp.opening
    refine ⟨rfl, rfl, (hc.outside e l hl (.inl (by omega))).symm, ?_⟩
    rw [hl]
    refine .some ⟨.before (by omega) htag, ?_, ⟨moved_before (by omega), moved_before hstop⟩, rfl⟩
    cases hend : l.endTag with
    | none => exact .none
    | some endTag =>
      obtain ⟨hlt, heq⟩ := hp.ending endTag hend
      exact .some (.before (by omega) (by omega))

/-- What stands before the change stays. -/
theorem alike_self (hc : c.Sound) {lo hi : Nat} {f : Forest} (hf : f.Nested lo hi) (hhi : hi ≤ c.lo) :
    c.Alike f f := by
  induction f generalizing lo hi with
  | nil => exact .nil
  | text s rest ih => exact .textLeft s (.textRight s (ih hf hhi))
  | comment s rest ih => exact .commentLeft s (.commentRight s (ih hf hhi))
  | element e inside rest ihi ihr =>
    cases hl : e.location with
    | none =>
      obtain ⟨mid, hi, hr⟩ := (Forest.nested_none hl).1 hf
      have := Forest.nested_le hr
      refine .element (like_self hc ?_) (ihi hi (by omega)) (ihr hr hhi)
      intro l hl'
      rw [hl] at hl'
      exact absurd hl' nofun
    | some l =>
      obtain ⟨-, hp, hi, hr⟩ := (Forest.nested_some hl).1 hf
      have := Forest.nested_le hr
      have := hp.inner
      have := hp.closing
      refine .element (like_self hc ?_) (ihi hi (by omega)) (ihr hr hhi)
      intro l' hl'
      obtain rfl := Option.some.inj (hl.symm.trans hl')
      exact ⟨hp, by omega, by omega⟩

/-! ## Drafts -/

theorem keys_like {d d' : Draft} (h : c.LikeDraft d d') : d'.keys = d.keys := by
  obtain ⟨-, h⟩ := h
  unfold Draft.keys
  revert h
  generalize d.opened = frames
  generalize d'.opened = frames'
  intro h
  induction h with
  | nil => rfl
  | cons hf _ ih => rw [List.map_cons, List.map_cons, ih, keyOf, keyOf, hf.element.name, hf.element.space]

theorem likeDraft_mapCurrent {d d' : Draft} {g g' : Forest → Forest} (h : c.LikeDraft d d')
    (hg : ∀ f f', c.Alike f f' → c.Alike (g f) (g' f')) : c.LikeDraft (d.mapCurrent g) (d'.mapCurrent g') := by
  obtain ⟨done, opened⟩ := d
  obtain ⟨done', opened'⟩ := d'
  obtain ⟨hdone, hopened⟩ := h
  cases hopened with
  | nil => exact ⟨hg _ _ hdone, .nil⟩
  | cons hf hrest => exact ⟨hdone, .cons ⟨hf.element, hg _ _ hf.inside⟩ hrest⟩

theorem likeDraft_add {d d' : Draft} {new new' : Forest} (h : c.LikeDraft d d') (hn : c.Alike new new') :
    c.LikeDraft (d.add new) (d'.add new') :=
  likeDraft_mapCurrent h fun _ _ hf => alike_append hf hn

theorem likeDraft_close (hc : c.Sound) {record record' : Location → Location} {d d' : Draft}
    (hd : c.LikeDraft d d') (hrecord : ∀ l, (record l).startTag = l.startTag)
    (h : ∀ l l', c.MovedLocation l l' → c.MovedLocation (record l) (record' l')) :
    c.LikeDraft (d.close record) (d'.close record') := by
  obtain ⟨done, opened⟩ := d
  obtain ⟨done', opened'⟩ := d'
  obtain ⟨hdone, hopened⟩ := hd
  cases hopened with
  | nil => exact ⟨hdone, .nil⟩
  | cons hf hrest =>
    exact likeDraft_add ⟨hdone, hrest⟩ (.element (like_relocate hc hrecord h hf.element) hf.inside .nil)

/-- A draft that stands before the change is like itself. -/
theorem likeDraft_self (hc : c.Sound) {d : Draft} {pos : Nat} (h : Nests d.done d.opened pos)
    (hpos : pos ≤ c.lo) : c.LikeDraft d d := by
  obtain ⟨done, frames⟩ := d
  induction frames generalizing pos with
  | nil => exact ⟨alike_self hc h hpos, .nil⟩
  | cons f frames ih =>
    rw [Nests] at h
    -- an element that is not located cannot be moved
    cases hl : f.element.location with
    | none =>
      rw [hl] at h
      obtain ⟨mid, hd, hi⟩ := h
      obtain ⟨hdone, hrest⟩ := ih (Nat.le_trans (Forest.nested_le hi) hpos) hd
      refine ⟨hdone, .cons ⟨like_self hc ?_, alike_self hc hi hpos⟩ hrest⟩
      intro l hl'
      rw [hl] at hl'
      cases hl'
    | some l =>
      rw [hl] at h
      obtain ⟨ho, hlt, hd, hi⟩ := h
      have hle := Forest.nested_le hi
      obtain ⟨hdone, hrest⟩ := ih (by omega) hd
      refine ⟨hdone, .cons ⟨like_self hc ?_, alike_self hc hi hpos⟩ hrest⟩
      intro l' hl'
      obtain rfl := Option.some.inj (hl.symm.trans hl')
      rw [ho]
      exact ⟨⟨rfl, hlt, Nat.le_refl _, Nat.le_refl _, by rintro _ ⟨⟩⟩, by simp only [Location.opened]; omega,
        by simp only [Location.opened]; omega⟩

/-! ## Actions -/

/-- An action before and after the change. -/
inductive LikeAction (c : Change) : Action → Action → Prop
  | note (deviation : Deviation) : LikeAction c (.note deviation) (.note deviation)
  | close : LikeAction c .close .close
  | closeBy {endTag endTag' : Span} : c.MovedTag endTag endTag' → LikeAction c (.closeBy endTag) (.closeBy endTag')
  | insert {e e' : Element} (stays : Bool) : c.Like e e' → LikeAction c (.insert e stays) (.insert e' stays)

theorem like_perform (hc : c.Sound) {limit offset offset' : Nat} (ho : c.Moved offset offset') {d d' r : Draft}
    {a a' : Action} (hd : c.LikeDraft d d') (ha : c.LikeAction a a') (h : d.perform limit offset a = .ok r) :
    ∃ r', d'.perform limit offset' a' = .ok r' ∧ c.LikeDraft r r' := by
  cases ha with
  | note =>
    obtain rfl := Except.ok.inj h
    exact ⟨d', rfl, hd⟩
  | close =>
    obtain rfl := Except.ok.inj h
    exact ⟨_, rfl, likeDraft_close hc hd (fun _ => rfl) fun _ _ => movedLocation_closedAt hc ho⟩
  | closeBy he =>
    obtain rfl := Except.ok.inj h
    exact ⟨_, rfl, likeDraft_close hc hd (fun _ => rfl) fun _ _ => movedLocation_closedBy he⟩
  | insert stays he =>
    -- both drafts are equally deep, so both are refused or neither
    rw [Draft.perform, hd.opened.length_eq] at h
    rw [Draft.perform]
    split at h
    · cases h
    · rename_i hlimit
      rw [if_neg hlimit]
      split at h
      · rename_i hstays
        obtain rfl := Except.ok.inj h
        rw [if_pos hstays]
        exact ⟨_, rfl, hd.done, .cons ⟨he, .nil⟩ hd.opened⟩
      · rename_i hstays
        obtain rfl := Except.ok.inj h
        rw [if_neg hstays]
        exact ⟨_, rfl, likeDraft_add hd (.element he .nil .nil)⟩

theorem like_foldlM (hc : c.Sound) {limit offset offset' : Nat} (ho : c.Moved offset offset')
    {actions actions' : List Action} (ha : List.Forall₂ c.LikeAction actions actions') {d d' r : Draft}
    (hd : c.LikeDraft d d') (h : actions.foldlM (Draft.perform limit offset) d = .ok r) :
    ∃ r', actions'.foldlM (Draft.perform limit offset') d' = .ok r' ∧ c.LikeDraft r r' := by
  induction ha generalizing d d' with
  | nil =>
    obtain rfl := Except.ok.inj h
    exact ⟨d', rfl, hd⟩
  | @cons a a' actions actions' ha _ ih =>
    obtain ⟨m, hm, h⟩ := foldlM_cons_ok h
    obtain ⟨m', hm', hlike⟩ := like_perform hc ho hd ha hm
    rw [List.foldlM_cons, hm']
    exact ih hlike h

/-- Notes do nothing. -/
theorem foldlM_notes {limit offset : Nat} {d : Draft} {notes : List Action}
    (h : ∀ a ∈ notes, ∃ deviation, a = .note deviation) (actions : List Action) :
    (notes ++ actions).foldlM (Draft.perform limit offset) d = actions.foldlM (Draft.perform limit offset) d := by
  induction notes with
  | nil => rfl
  | cons a notes ih =>
    obtain ⟨deviation, rfl⟩ := h a List.mem_cons_self
    exact ih fun b hb => h b (List.mem_cons_of_mem _ hb)

/-! ## Tags -/

/-- An element as another tag of the same name makes it. -/
def reread (tag : StartTag) (e : Element) : Element :=
  match e.location with
  | none => e
  | some _ =>
    { e with
      attributes := spellAttributes e.space tag.attributes
      location := some (.opened tag.span tag.selfClosing) }

theorem renames_reread {tag tag' : StartTag} (hname : tag'.name = tag.name)
    (hsc : tag'.selfClosing = tag.selfClosing)
    (hbreaks : breaksOut tag'.name tag'.attributes = breaksOut tag.name tag.attributes) :
    Renames (reread tag') tag tag' where
  key e := by
    unfold reread
    split <;> rfl
  implied name := rfl
  name := hname
  selfClosing := hsc
  breaksOut := hbreaks
  html name := rfl
  foreign space := by
    rw [foreignElement, foreignElement, hname]
    rfl

/-- What a tag of the same name adds is like what the tag adds. -/
theorem like_reread (tag tag' : StartTag) (hsc : tag'.selfClosing = tag.selfClosing)
    (hspan : c.MovedTag tag.span tag'.span) {e : Element}
    (he : Own tag e) (hattr : c.attributes e = spellAttributes e.space tag'.attributes) :
    c.Like e (reread tag' e) := by
  have hl := location_of_own he
  unfold reread
  rw [hl]
  refine ⟨rfl, rfl, hattr.symm, ?_⟩
  rw [hl, hsc]
  exact .some (movedLocation_opened hspan _)

theorem like_implied (hc : c.Sound) (name : String) : c.Like (.ofName name) (.ofName name) :=
  ⟨rfl, rfl, (hc.implied _ rfl).symm, .none⟩

theorem likeActions_map (hc : c.Sound) {g : Element → Element} {h : Span → Span} {actions : List Action}
    (himplied : ∀ name, g (.ofName name) = .ofName name)
    (hactions : ∀ a ∈ actions, a.Soft ∨ (∃ e stays, a = .insert e stays ∧ c.Like e (g e)) ∨
      ∃ endTag, a = .closeBy endTag ∧ c.MovedTag endTag (h endTag)) :
    List.Forall₂ c.LikeAction actions (actions.map (Action.map g h)) := by
  rw [List.forall₂_map_right_iff, List.forall₂_same]
  intro a ha
  rcases hactions a ha with hsoft | ⟨e, stays, rfl, he⟩ | ⟨endTag, rfl, hend⟩
  · cases hsoft with
    | note deviation => exact .note deviation
    | close => exact .close
    | implied name =>
      rw [Action.map, himplied]
      exact .insert true (like_implied hc name)
  · exact .insert stays he
  · exact .closeBy hend

/-- **Start tags of one name keep drafts alike.** -/
theorem like_startTag (hc : c.Sound) {limit : Nat} (tag tag' : StartTag) (hname : tag'.name = tag.name)
    (hsc : tag'.selfClosing = tag.selfClosing)
    (hbreaks : breaksOut tag'.name tag'.attributes = breaksOut tag.name tag.attributes)
    (hspan : c.MovedTag tag.span tag'.span)
    (hattr : ∀ e, Own tag e → c.attributes e = spellAttributes e.space tag'.attributes) {d d' r : Draft}
    (hd : c.LikeDraft d d')
    (h : ((start d.keys).startTag tag).actions.foldlM (Draft.perform limit tag.span.start) d = .ok r) :
    ∃ r', ((start d'.keys).startTag tag').actions.foldlM (Draft.perform limit tag'.span.start) d' = .ok r' ∧
      c.LikeDraft r r' := by
  have hmap := map_startTag (h := id) (renames_reread hname hsc hbreaks) (start d.keys)
  rw [map_start] at hmap
  rw [keys_like hd, ← hmap]
  refine like_foldlM hc (movedSpan_of_tag hspan).start (likeActions_map hc (fun _ => rfl) ?_) hd h
  intro a ha
  obtain ⟨soft, last, heq, hsoft, hlast⟩ := actions_startTag d.keys tag
  rw [heq] at ha
  rcases List.mem_append.1 ha with ha | ha
  · exact .inl (hsoft a ha)
  · rcases hlast with ⟨-, rfl⟩ | ⟨-, e, stays, he, rfl⟩
    · exact absurd ha List.not_mem_nil
    · exact .inr (.inl ⟨e, stays, List.mem_singleton.1 ha, like_reread tag tag' hsc hspan he (hattr e he)⟩)

theorem attributes_of_own {tag : StartTag} {e : Element} (he : Own tag e) :
    e.attributes = spellAttributes e.space tag.attributes := by
  cases he <;> rfl

/-- **End tags of one name keep drafts alike.** -/
theorem like_endTag (hc : c.Sound) {limit : Nat} {name : String} {span span' : Span}
    (hspan : c.MovedTag span span') (hafter : c.hi ≤ span.start) {d d' r : Draft} (hd : c.LikeDraft d d')
    (h : ((start d.keys).endTag name span).actions.foldlM (Draft.perform limit span.start) d = .ok r) :
    ∃ r', ((start d'.keys).endTag name span').actions.foldlM (Draft.perform limit span'.start) d' = .ok r' ∧
      c.LikeDraft r r' := by
  have hr : Renames (reread ⟨"br", false, [], span'⟩) ⟨"br", false, [], span⟩ ⟨"br", false, [], span'⟩ :=
    renames_reread rfl rfl rfl
  have hmap : ((start d.keys).endTag name span).map _ _ = _ := map_endTag (h := fun _ => span') hr (start d.keys)
  rw [map_start] at hmap
  rw [keys_like hd, ← hmap]
  refine like_foldlM hc (movedSpan_of_tag hspan).start (likeActions_map hc (fun _ => rfl) ?_) hd h
  -- an end tag closes softly, or closes its own element, or stands for a line break
  intro a ha
  obtain ⟨soft, last, heq, hsoft, hlast⟩ := actions_endTag d.keys name span
  rw [heq] at ha
  rcases List.mem_append.1 ha with ha | ha
  · exact .inl (hsoft a ha)
  · rcases hlast with rfl | ⟨k, -, -, rfl⟩ | ⟨-, e, stays, he, rfl⟩
    · exact absurd ha List.not_mem_nil
    · exact .inr (.inr ⟨span, List.mem_singleton.1 ha, hspan⟩)
    · refine .inr (.inl ⟨e, stays, List.mem_singleton.1 ha, like_reread ⟨"br", false, [], span⟩ ⟨"br", false, [], span'⟩ rfl
        hspan he ?_⟩)
      rw [hc.outside e _ (location_of_own he) (.inr hafter), attributes_of_own he]

/-! ## Tokens -/

/-- **Reading a token keeps drafts alike.** -/
theorem like_read (hc : c.Sound) {limit offset offset' : Nat} (token : Token) {d d' r : Draft}
    (hd : c.LikeDraft d d')
    (h : d.read limit (offsetAt offset (token.shift c.hi)) (token.shift c.hi) = .ok r) :
    ∃ r', d'.read limit (offsetAt offset' (token.shift c.hi')) (token.shift c.hi') = .ok r' ∧
      c.LikeDraft r r' := by
  cases token with
  | character x =>
    obtain rfl := Except.ok.inj h
    exact ⟨_, rfl, likeDraft_mapCurrent hd fun _ _ hf => alike_pushChar_left x (alike_pushChar_right x hf)⟩
  | comment data span =>
    obtain rfl := Except.ok.inj h
    exact ⟨_, rfl, likeDraft_add hd (.commentLeft _ (.commentRight _ .nil))⟩
  | doctype name span =>
    obtain rfl := Except.ok.inj h
    exact ⟨d', rfl, hd⟩
  | startTag name selfClosing attributes span =>
    refine like_startTag hc ⟨name, selfClosing, attributes, shiftSpan c.hi span⟩
      ⟨name, selfClosing, attributes, shiftSpan c.hi' span⟩ rfl rfl rfl (.after span) ?_ hd h
    intro e he
    rw [hc.outside e _ (location_of_own he) (.inr (Nat.le_add_left _ _)), attributes_of_own he]
  | endTag name span => exact like_endTag hc (.after span) (Nat.le_add_left _ _) hd h
  | endOfFile n =>
    obtain rfl := Except.ok.inj h
    clear h
    refine ⟨_, rfl, ?_⟩
    have hn : c.Moved (n + c.hi) (n + c.hi') := moved_after n
    -- as many elements are open in the two drafts
    unfold Draft.closeAll
    have hopened := hd.opened
    revert hopened
    generalize d.opened = frames
    generalize d'.opened = frames'
    intro hopened
    induction hopened generalizing d d' with
    | nil => exact hd
    | cons _ _ ih =>
      have hrecord : ∀ l l', c.MovedLocation l l' → c.MovedLocation (l.closedAt (n + c.hi)) (l'.closedAt (n + c.hi')) :=
        fun _ _ => movedLocation_closedAt hc hn
      exact ih (likeDraft_close hc hd (fun l => show (l.closedAt (n + c.hi)).startTag = l.startTag from rfl) hrecord)

/-- **Reading on after the change keeps drafts alike.** -/
theorem like_readAll (hc : c.Sound) {limit offset offset' : Nat} (tokens : List Token) {d d' r : Draft} (hd : c.LikeDraft d d')
    (h : d.readAll limit offset (tokens.map (.shift c.hi)) = .ok r) :
    ∃ r', d'.readAll limit offset' (tokens.map (.shift c.hi')) = .ok r' ∧ c.LikeDraft r r' := by
  induction tokens generalizing offset offset' d d' with
  | nil =>
    obtain rfl := Except.ok.inj h
    exact ⟨d', rfl, hd⟩
  | cons token tokens ih =>
    rw [List.map_cons, Draft.readAll] at h
    cases hm : d.read limit (offsetAt offset (token.shift c.hi)) (token.shift c.hi) with
    | error e =>
      rw [hm] at h
      cases h
    | ok m =>
      rw [hm] at h
      obtain ⟨m', hm', hlike⟩ := like_read hc token hd hm
      rw [List.map_cons, Draft.readAll, hm']
      exact ih hlike h

/-- Characters may be read in one of the two drafts only. -/
theorem like_characters_left {limit offset : Nat} {d d' r : Draft} (cs : List Char) (hd : c.LikeDraft d d')
    (h : d.readAll limit offset (cs.map .character) = .ok r) : c.LikeDraft r d' := by
  induction cs generalizing d with
  | nil => exact Except.ok.inj h ▸ hd
  | cons x cs ih =>
    refine ih ?_ h
    have hmap : d'.mapCurrent id = d' := by
      obtain ⟨done, opened⟩ := d'
      cases opened <;> rfl
    rw [← hmap]
    exact likeDraft_mapCurrent hd fun _ _ hf => alike_pushChar_left x hf

theorem like_characters_right {limit offset : Nat} {d d' : Draft} (cs : List Char) (hd : c.LikeDraft d d') :
    ∃ r', d'.readAll limit offset (cs.map .character) = .ok r' ∧ c.LikeDraft d r' := by
  induction cs generalizing d' with
  | nil => exact ⟨d', rfl, hd⟩
  | cons x cs ih =>
    rw [List.map_cons, Draft.readAll]
    refine ih ?_
    have hmap : d.mapCurrent id = d := by
      obtain ⟨done, opened⟩ := d
      cases opened <;> rfl
    rw [← hmap]
    exact likeDraft_mapCurrent hd fun _ _ hf => alike_pushChar_right x hf

/-! ## The forests of two texts -/

theorem readAll_append_ok {limit offset : Nat} {first second : List Token} {d r : Draft}
    (h : d.readAll limit offset (first ++ second) = .ok r) :
    ∃ m, d.readAll limit offset first = .ok m ∧
      m.readAll limit (first.foldl offsetAt offset) second = .ok r := by
  rw [Draft.readAll_append] at h
  cases hm : d.readAll limit offset first with
  | error e =>
    rw [hm] at h
    exact absurd h nofun
  | ok m =>
    rw [hm] at h
    exact ⟨m, rfl, h⟩

theorem readAll_append_of {limit offset : Nat} {first second : List Token} {d m : Draft}
    (h : d.readAll limit offset first = .ok m) :
    d.readAll limit offset (first ++ second) = m.readAll limit (first.foldl offsetAt offset) second := by
  rw [Draft.readAll_append, h]
  rfl

/-- **Texts with the same tokens around a change have like forests**, when what is read in between keeps
drafts alike. -/
theorem forestOf_like (hc : c.Sound) {source edited : String} {f : Forest}
    {first middle middle' after : List Token}
    (hsource : tokenize source = first ++ (middle ++ after.map (.shift c.hi)))
    (hedited : tokenize edited = first ++ (middle' ++ after.map (.shift c.hi')))
    (hfirst : first.foldl endAt 0 ≤ c.lo) (hf : forestOf source = .ok f)
    (hmiddle : ∀ offset d r, Draft.start.readAll maxOpenElements 0 first = .ok d → c.LikeDraft d d →
      d.readAll maxOpenElements offset middle = .ok r → ∃ r', d.readAll maxOpenElements offset middle' = .ok r' ∧ c.LikeDraft r r') :
    ∃ f', forestOf edited = .ok f' ∧ c.Alike f f' := by
  obtain ⟨r, hr, rfl⟩ := readAll_of_grow hf
  rw [hsource] at hr
  obtain ⟨d, hd, hr⟩ := readAll_append_ok hr
  obtain ⟨m, hm, hr⟩ := readAll_append_ok hr
  -- up to the change nothing differs
  have hlaid := laid_tokenize source
  rw [hsource, laid_append] at hlaid
  have hnests := invariant_readAll (invariant_nests maxOpenElements first) (fun t ht => ht) hlaid.1
    (show Nests Draft.start.done Draft.start.opened 0 from Nat.le_refl 0) hd
  have hself := likeDraft_self hc hnests hfirst
  obtain ⟨m', hm', hlike⟩ := hmiddle _ d m hd hself hm
  obtain ⟨r', hr', hlike⟩ := like_readAll hc after hlike hr
  refine ⟨r'.done, ?_, hlike.done⟩
  rw [forestOf, grow, hedited, readAll_append_of hd, readAll_append_of hm', hr']
  rfl

end Change

end LiveMarkup.Html
