/-
List items that are kept apart.

A list item ends the open item of its group, unless a special element that is open inside that one stops the
search. But what stopped the search may then be closed with a paragraph, and the new item is added right inside
the open one; the paragraph stays behind as an earlier sibling. So an item that is added is apart from the open
items of its group, or it follows a paragraph that hides what would stop the search for them
(`itemApart_of_leaves`). Every token keeps this of what is being read (`apart_readAll`).
-/
import LiveMarkup.Proofs.Html.Grown

set_option autoImplicit false

namespace LiveMarkup.Html

open Plan

/-- The groups of list items: an item ends an open one of its group. -/
def itemGroups : List (List String) := [["li"], ["dd", "dt"]]

/-- Whether an element stops the search for an open list item. -/
def Key.stopsItems (k : Key) : Bool := k.isSpecial && !k.isHtml ["address", "div", "p"]

/-! ## Forests in which items are apart -/

/-- Whether an element is a paragraph that holds what stops the search for an open list item. -/
def hides (e : Element) (inside : Forest) : Bool :=
  (keyOf e).isHtml ["p"] && inside.elements.any fun e => (keyOf e).stopsItems

/-- An element that is a list item is apart from the items of its group around it, or it follows a paragraph that
hides what would stop the search for them. -/
def ItemApart (opened : List Key) (follows : Bool) (e : Element) : Prop :=
  ∀ names ∈ itemGroups, (keyOf e).isHtml names = true → openListItem? names opened = none ∨ follows = true

namespace Forest

/-- Whether one of the outermost elements is a paragraph that hides what stops the search. -/
def hidesStop : Forest → Bool
  | nil => false
  | text _ rest => rest.hidesStop
  | comment _ rest => rest.hidesStop
  | element e inside rest => hides e inside || rest.hidesStop

/-- The items of a forest are apart among the open elements; `follows` says whether a paragraph before the forest
hides what stops the search. -/
def Apart : List Key → Bool → Forest → Prop
  | _, _, nil => True
  | opened, follows, text _ rest => Apart opened follows rest
  | opened, follows, comment _ rest => Apart opened follows rest
  | opened, follows, element e inside rest =>
    ItemApart opened follows e ∧ Apart (keyOf e :: opened) false inside ∧ Apart opened (follows || hides e inside) rest

variable {opened : List Key} {follows : Bool} {f g : Forest}

theorem hidesStop_append (f g : Forest) : (f ++ g).hidesStop = (f.hidesStop || g.hidesStop) := by
  induction f with
  | nil => rfl
  | text s rest ih => exact ih
  | comment s rest ih => exact ih
  | element e inside rest _ ih => rw [element_append, hidesStop, hidesStop, ih, Bool.or_assoc]

theorem apart_append (hf : f.Apart opened follows) (hg : g.Apart opened (follows || f.hidesStop)) :
    (f ++ g).Apart opened follows := by
  induction f generalizing follows with
  | nil =>
    rw [hidesStop, Bool.or_false] at hg
    exact hg
  | text s rest ih => exact ih hf hg
  | comment s rest ih => exact ih hf hg
  | element e inside rest _ ih =>
    obtain ⟨he, hinside, hrest⟩ := hf
    rw [hidesStop, ← Bool.or_assoc] at hg
    exact ⟨he, hinside, ih hrest hg⟩

theorem apart_pushChar (hf : f.Apart opened follows) (c : Char) : (f.pushChar c).Apart opened follows := by
  induction f, c using pushChar.induct generalizing follows with
  | case1 c => exact trivial
  | case2 s c => exact trivial
  | case3 s rest c hne ih =>
    rw [pushChar]
    · exact ih hf
    · exact hne
  | case4 s rest c ih => exact ih hf
  | case5 e inside rest c ih => exact ⟨hf.1, hf.2.1, ih hf.2.2⟩

end Forest

/-! ## Drafts in which items are apart -/

/-- The open elements and what was read inside them are apart among those around them. -/
def FramesApart (done : Forest) : List Frame → Prop
  | [] => True
  | f :: rest => ItemApart (keysOf rest) (Draft.current ⟨done, rest⟩).hidesStop f.element ∧
      f.inside.Apart (keyOf f.element :: keysOf rest) false ∧ FramesApart done rest

/-- A draft in which the items are apart. -/
structure Draft.Apart (d : Draft) : Prop where
  done : d.done.Apart [] false
  frames : FramesApart d.done d.opened

section Draft

variable {d d' : Draft} {record : Location → Location}

theorem apart_mapCurrent (hd : d.Apart) {g : Forest → Forest}
    (hg : d.current.Apart d.keys false → (g d.current).Apart d.keys false) : (d.mapCurrent g).Apart := by
  obtain ⟨done, opened⟩ := d
  cases opened with
  | nil => exact ⟨hg hd.done, trivial⟩
  | cons f rest =>
    obtain ⟨hf, hinside, hrest⟩ := hd.frames
    exact ⟨hd.done, hf, hg hinside, hrest⟩

theorem apart_add (hd : d.Apart) {new : Forest} (hnew : new.Apart d.keys d.current.hidesStop) : (d.add new).Apart :=
  apart_mapCurrent hd fun hcurrent => Forest.apart_append hcurrent (by rwa [Bool.false_or])

theorem apart_close (hd : d.Apart) : (d.close record).Apart := by
  obtain ⟨done, opened⟩ := d
  cases opened with
  | nil => exact hd
  | cons f rest =>
    obtain ⟨hf, hinside, hrest⟩ := hd.frames
    exact apart_add (d := ⟨done, rest⟩) ⟨hd.done, hrest⟩ ⟨hf, hinside, trivial⟩

theorem apart_closeFrames (frames : List Frame) (offset : Nat) (hd : d.Apart) :
    (frames.foldl (fun d _ => d.close (·.closedAt offset)) d).Apart := by
  induction frames generalizing d with
  | nil => exact hd
  | cons f frames ih => exact ih (apart_close hd)

theorem apart_insert {limit offset : Nat} {e : Element} {stays : Bool} (hd : d.Apart)
    (he : ItemApart d.keys d.current.hidesStop e) (h : d.perform limit offset (.insert e stays) = .ok d') :
    d'.Apart := by
  rw [Draft.perform] at h
  split at h
  · cases h
  · split at h
    · obtain rfl := Except.ok.inj h
      exact ⟨hd.done, he, trivial, hd.frames⟩
    · obtain rfl := Except.ok.inj h
      exact apart_add hd ⟨he, trivial, trivial⟩

/-- What is no list item is apart anywhere. -/
theorem itemApart_of_other {e : Element} (h : ∀ names ∈ itemGroups, (keyOf e).isHtml names = false)
    (opened : List Key) (follows : Bool) : ItemApart opened follows e := by
  intro names hmem hnames
  rw [h names hmem] at hnames
  exact absurd hnames Bool.false_ne_true

theorem apart_foldlM {limit offset : Nat} {actions : List Action} (hd : d.Apart)
    (hother : ∀ e stays, .insert e stays ∈ actions → ∀ names ∈ itemGroups, (keyOf e).isHtml names = false)
    (h : actions.foldlM (Draft.perform limit offset) d = .ok d') : d'.Apart := by
  induction actions generalizing d with
  | nil => exact Except.ok.inj h ▸ hd
  | cons a actions ih =>
    obtain ⟨m, hm, h⟩ := foldlM_cons_ok h
    refine ih ?_ (fun e stays hmem => hother e stays (List.mem_cons_of_mem _ hmem)) h
    cases a with
    | note deviation => exact Except.ok.inj hm ▸ hd
    | close => exact Except.ok.inj hm ▸ apart_close hd
    | closeBy span => exact Except.ok.inj hm ▸ apart_close hd
    | insert e stays => exact apart_insert hd (itemApart_of_other (hother e stays List.mem_cons_self) _ _) hm

end Draft

/-! ## What closing leaves behind -/

/-- Elements of a draft were closed: nothing, or elements from the inside out to one that is now the last node of
what is being read. The elements that were open inside it are still inside it. -/
def Shuts (before d : Draft) : Prop :=
  d = before ∨ ∃ above f rest e inside, before.opened = above ++ f :: rest ∧
    d = (⟨before.done, rest⟩ : Draft).add (.element e inside .nil) ∧ keyOf e = keyOf f.element ∧
    ∀ g ∈ above, ∃ e' ∈ inside.elements, keyOf e' = keyOf g.element

section Shuts

variable {before d d' : Draft}

theorem shuts_close (h : Shuts before d) (record : Location → Location) : Shuts before (d.close record) := by
  rcases h with rfl | ⟨above, f, rest, e, inside, hopened, rfl, hkey, habove⟩
  · obtain ⟨done, opened⟩ := d
    cases opened with
    | nil => exact .inl rfl
    | cons f rest =>
      refine .inr ⟨[], f, rest, relocate record f.element, f.inside, rfl, rfl, rfl, ?_⟩
      exact fun g hg => absurd hg List.not_mem_nil
  · -- the one that is closed now takes the last closed one with it
    cases rest with
    | nil => exact .inr ⟨above, f, [], e, inside, hopened, rfl, hkey, habove⟩
    | cons f' rest =>
      refine .inr ⟨above ++ [f], f', rest, relocate record f'.element, f'.inside ++ .element e inside .nil, ?_, rfl, rfl, ?_⟩
      · rw [hopened, List.append_assoc, List.singleton_append]
      · intro g hg
        rw [Forest.elements_append, Forest.elements_element]
        rcases List.mem_append.1 hg with hg | hg
        · obtain ⟨e', he', hkey'⟩ := habove g hg
          exact ⟨e', List.mem_append_right _ (List.mem_cons_of_mem _ (List.mem_append_left _ he')), hkey'⟩
        · rw [List.mem_singleton.1 hg]
          exact ⟨e, List.mem_append_right _ List.mem_cons_self, hkey⟩

theorem shuts_foldlM {limit offset : Nat} {actions : List Action} (hd : Shuts before d)
    (hnone : ∀ e stays, .insert e stays ∉ actions) (h : actions.foldlM (Draft.perform limit offset) d = .ok d') :
    Shuts before d' := by
  induction actions generalizing d with
  | nil => exact Except.ok.inj h ▸ hd
  | cons a actions ih =>
    obtain ⟨m, hm, h⟩ := foldlM_cons_ok h
    refine ih ?_ (fun e stays hmem => hnone e stays (List.mem_cons_of_mem _ hmem)) h
    cases a with
    | note deviation => exact Except.ok.inj hm ▸ hd
    | close => exact Except.ok.inj hm ▸ shuts_close hd _
    | closeBy span => exact Except.ok.inj hm ▸ shuts_close hd _
    | insert e stays => exact absurd List.mem_cons_self (hnone e stays)

/-- When elements were closed to one, that one is the last node of what is being read. -/
theorem current_of_shuts (h : Shuts before d) {above : List Key} {k : Key} (hkeys : before.keys = above ++ k :: d.keys) :
    ∃ frames f rest e inside, before.opened = frames ++ f :: rest ∧ keyOf f.element = k ∧ keyOf e = k ∧
      keysOf rest = d.keys ∧ d.current = (Draft.current ⟨before.done, rest⟩) ++ .element e inside .nil ∧
      ∀ z ∈ above, ∃ e' ∈ inside.elements, keyOf e' = z := by
  rcases h with rfl | ⟨frames, f, rest, e, inside, hopened, rfl, hkey, habove⟩
  · -- nothing was closed, yet an element less is open
    have hlength := congrArg List.length hkeys
    rw [List.length_append, List.length_cons] at hlength
    omega
  · have hrest : (Draft.add ⟨before.done, rest⟩ (.element e inside .nil)).keys = keysOf rest := Draft.keys_add _ _
    have hbefore : before.keys = keysOf frames ++ keyOf f.element :: keysOf rest := by
      rw [Draft.keys, hopened, List.map_append, List.map_cons]
      rfl
    rw [hrest, hbefore] at hkeys
    obtain ⟨habove', htail⟩ := List.append_inj' hkeys rfl
    obtain ⟨hk, -⟩ := List.cons.inj htail
    refine ⟨frames, f, rest, e, inside, hopened, hk, hkey.trans hk, hrest.symm, Draft.current_add _ _, ?_⟩
    intro z hz
    rw [← habove'] at hz
    obtain ⟨g, hg, rfl⟩ := List.mem_map.1 hz
    exact habove g hg

end Shuts

/-! ## What a list item closes -/

section Plan

variable {p : Plan} {names : List String}

/-- What does not stop the search for an open item does not hide one. -/
theorem openListItem?_append {above rest : List Key} (h : openListItem? names (above ++ rest) = none)
    (hstop : ∀ z ∈ above, z.stopsItems = false) : openListItem? names rest = none := by
  induction above with
  | nil => exact h
  | cons a above ih =>
    have ha : (a.isSpecial && !a.isHtml ["address", "div", "p"]) = false := hstop a List.mem_cons_self
    rw [List.cons_append, openListItem?, ha] at h
    split at h
    · cases h
    · exact ih h fun z hz => hstop z (List.mem_cons_of_mem _ hz)

/-- **What a new list item is added in.** No item of its group is open there, or the last element that was closed
is an item of the group, or it is a paragraph in which something that stops the search was open. -/
theorem opened_closeParagraph_closeListItem (hstack : Stack p.opened) (hgroup : names ∈ itemGroups) :
    openListItem? names ((p.closeListItem names).closeParagraph).opened = none ∨
      ∃ above k, p.opened = above ++ k :: ((p.closeListItem names).closeParagraph).opened ∧
        (k.isHtml names = true ∨ k.isHtml ["p"] = true ∧ ∃ z ∈ above, z.stopsItems = true) := by
  -- closing to the first element of a name cuts the open elements there
  have hcut : ∀ {name : String} {k : Key} {rest : List Key}, p.opened.dropWhile (fun k => !k.isHtml [name]) = k :: rest →
      p.opened = p.opened.takeWhile (fun k => !k.isHtml [name]) ++ k :: rest := by
    intro name k rest hdrop
    rw [← hdrop, List.takeWhile_append_dropWhile]
  cases hitem : openListItem? names p.opened with
  | some name =>
    obtain ⟨k, rest, hdrop, hk, hopened⟩ := opened_closeListItem hitem
    have hmem := (exists_of_openListItem? hitem).1
    obtain ⟨hspace, hname⟩ := isHtml_iff.1 hk
    have hsettled := stack_dropWhile hstack fun k => !k.isHtml [name]
    rw [hdrop] at hsettled
    -- no paragraph is open around the item that is ended
    have hparagraph : NoParagraph rest := by
      have hby := (hsettled.1 hspace).1.byName
      rw [List.mem_singleton.1 hname] at hby
      simp only [itemGroups, List.mem_cons, List.not_mem_nil, or_false] at hgroup
      rcases hgroup with rfl | rfl
      · obtain rfl := List.mem_singleton.1 hmem
        exact hby
      · simp only [List.mem_cons, List.not_mem_nil, or_false] at hmem
        rcases hmem with rfl | rfl <;> exact hby
    have hkept : ((p.closeListItem names).closeParagraph).opened = rest := by
      rw [closeParagraph, inButtonScope, hopened, if_neg (by rw [hparagraph]; exact Bool.false_ne_true), hopened]
    rw [hkept]
    refine .inr ⟨_, k, hcut hdrop, .inl (isHtml_iff.2 ⟨hspace, ?_⟩)⟩
    rw [List.mem_singleton.1 hname]
    exact hmem
  | none =>
    have hsame : p.closeListItem names = p := by rw [closeListItem, hitem]
    rw [hsame, closeParagraph]
    split
    · rename_i hscope
      obtain ⟨k, rest, hdrop, hk⟩ := dropWhile_of_exists (exists_of_inScopeOf hscope (List.mem_singleton.2 rfl))
      rw [opened_closeImplied_popThrough _ (by decide), opened_popThrough, hdrop, List.tail_cons]
      by_cases hstop : ∃ z ∈ p.opened.takeWhile (fun k => !k.isHtml ["p"]), z.stopsItems = true
      · exact .inr ⟨_, k, hcut hdrop, .inr ⟨hk, hstop⟩⟩
      · -- nothing that is closed stops the search, so nothing is found behind it
        have hparagraph : k.stopsItems = false := by
          obtain ⟨hspace, hname⟩ := isHtml_iff.1 hk
          rw [Key.stopsItems, Bool.and_eq_false_iff, Bool.not_eq_false']
          exact .inr (isHtml_iff.2 ⟨hspace, by rw [List.mem_singleton.1 hname]; decide⟩)
        rw [hcut hdrop, List.append_cons] at hitem
        refine .inl (openListItem?_append hitem ?_)
        intro z hz
        rcases List.mem_append.1 hz with hz | hz
        · exact Bool.eq_false_iff.2 fun hc => hstop ⟨z, hz, hc⟩
        · rw [List.mem_singleton.1 hz]
          exact hparagraph
    · exact .inl hitem

end Plan

/-! ## Tokens -/

section Token

variable {limit offset : Nat} {d d' : Draft} {tag : StartTag} {names : List String}

theorem startHtml_item (p : Plan) (hgroup : names ∈ itemGroups) (hname : tag.name ∈ names) :
    p.startHtml tag = ((p.closeListItem names).closeParagraph).insertHtml tag := by
  obtain ⟨name, selfClosing, attributes, span⟩ := tag
  simp only [itemGroups, List.mem_cons, List.not_mem_nil, or_false] at hgroup
  rcases hgroup with rfl | rfl
  · obtain rfl : name = "li" := List.mem_singleton.1 hname
    rfl
  · simp only [List.mem_cons, List.not_mem_nil, or_false] at hname
    rcases hname with rfl | rfl <;> rfl

/-- The tag of a list item breaks out of other languages, and is read as HTML there. -/
theorem startTag_item (hgroup : names ∈ itemGroups) (hname : tag.name ∈ names) {Q : List Key → Element → Bool → Prop}
    {opened : List Key} (hstack : Stack opened) :
    ∃ p : Plan, Leaves Q opened (fun _ => True) p ∧ (∃ gone, opened = gone ++ p.opened) ∧
      (start opened).startTag tag = ((p.closeListItem names).closeParagraph).insertHtml tag := by
  have hbreaks : breaksOut tag.name tag.attributes = true := by
    have hall : ∀ names ∈ itemGroups, ∀ name ∈ names, breakoutNames.contains name = true := by decide
    rw [breaksOut, hall names hgroup _ hname, Bool.true_or]
  unfold startTag
  split
  · -- all elements of the other language are closed first
    rw [startHtml_item _ hgroup hname]
    refine ⟨_, leaves_breakOut (tracked_start hstack) _, ⟨opened.takeWhile Key.isForeign, ?_⟩, rfl⟩
    exact List.takeWhile_append_dropWhile.symm
  · rename_i hforeign
    rw [startHtml_item _ hgroup hname]
    exact ⟨_, ⟨tracked_start hstack, Bool.eq_false_iff.2 hforeign, trivial⟩, ⟨[], rfl⟩, rfl⟩

/-- Nothing is added where nothing can be. -/
theorem not_insert_of_inserts {opened : List Key} {actions : List Action}
    (h : Inserts (fun _ _ _ => False) opened actions) (e : Element) (stays : Bool) : .insert e stays ∉ actions := by
  induction actions generalizing opened with
  | nil => exact List.not_mem_nil
  | cons a actions ih =>
    intro hmem
    rcases List.mem_cons.1 hmem with rfl | hmem
    · exact h.1 e stays rfl
    · exact ih h.2 hmem

theorem frame_of_apart {done : Forest} {above rest : List Frame} {f : Frame}
    (h : FramesApart done (above ++ f :: rest)) :
    ItemApart (keysOf rest) (Draft.current ⟨done, rest⟩).hidesStop f.element := by
  induction above with
  | nil => exact h.1
  | cons g above ih => exact ih h.2.2

/-- **A list item that is added is apart from the items around it, or follows a paragraph that hides them.** -/
theorem itemApart_of_leaves (hd : d.Apart) (hshuts : Shuts d d') {opened gone : List Key}
    (hkeys : d.keys = gone ++ opened) (hgroup : names ∈ itemGroups)
    (hleaves : openListItem? names d'.keys = none ∨ ∃ above k, opened = above ++ k :: d'.keys ∧
      (k.isHtml names = true ∨ k.isHtml ["p"] = true ∧ ∃ z ∈ above, z.stopsItems = true)) :
    openListItem? names d'.keys = none ∨ d'.current.hidesStop = true := by
  rcases hleaves with hnone | ⟨above, k, hopened, hk⟩
  · exact .inl hnone
  rw [hopened, ← List.append_assoc] at hkeys
  obtain ⟨frames, f, rest, e, inside, hframes, hf, he, hrest, hcurrent, hinside⟩ := current_of_shuts hshuts hkeys
  rw [hcurrent, Forest.hidesStop_append, ← hrest]
  rcases hk with hk | ⟨hk, z, hz, hstops⟩
  · -- what was said of the item that is ended holds of the new one, which is added in its place
    have hitem := hd.frames
    rw [hframes] at hitem
    rcases frame_of_apart hitem names hgroup (by rw [hf]; exact hk) with hnone | hfollows
    · exact .inl hnone
    · exact .inr (by rw [hfollows, Bool.true_or])
  · -- the paragraph was closed last, and what stops the search is still inside it
    obtain ⟨e', he', hkey⟩ := hinside z (List.mem_append_right _ hz)
    have hides : hides e inside = true := by
      rw [hides, he, hk, Bool.true_and, List.any_eq_true]
      exact ⟨e', he', by rw [hkey]; exact hstops⟩
    exact .inr (by rw [Forest.hidesStop, hides, Bool.true_or, Bool.or_true])

theorem eq_of_groups {first second : List String} (hfirst : first ∈ itemGroups) (hsecond : second ∈ itemGroups)
    {name : String} (h : name ∈ first) (h' : name ∈ second) : first = second := by
  have hall : ∀ first ∈ itemGroups, ∀ second ∈ itemGroups, ∀ name ∈ first, name ∈ second → first = second := by decide
  exact hall first hfirst second hsecond name h h'

/-- The start tag of a list item. -/
theorem apart_itemTag (hd : d.Apart) (hstack : Stack d.keys) (hgroup : names ∈ itemGroups) (hname : tag.name ∈ names)
    (h : ((start d.keys).startTag tag).actions.foldlM (Draft.perform limit offset) d = .ok d') : d'.Apart := by
  obtain ⟨p, hp, ⟨gone, hgone⟩, hplan⟩ := startTag_item (Q := fun _ _ _ => False) hgroup hname hstack
  have hitem := leaves_closeListItem hp.tracked hp.outside names
  have hclosed := (leaves_closeParagraph hitem.tracked hitem.outside).tracked
  rw [hplan] at h
  -- first elements are closed only, and then the item is added
  obtain ⟨m, hm, h⟩ := foldlM_append_ok h
  have hnone := not_insert_of_inserts hclosed.inserts
  have hmkeys : m.keys = ((p.closeListItem names).closeParagraph).opened := (keys_foldlM hm).trans hclosed.tracks
  refine apart_insert (apart_foldlM hd (fun e stays hmem => absurd hmem (hnone e stays)) hm) ?_ (foldlM_one h)
  intro names' hgroup' hnames'
  obtain rfl := eq_of_groups hgroup hgroup' hname (isHtml_iff.1 hnames').2
  refine itemApart_of_leaves hd (shuts_foldlM (.inl rfl) hnone hm) hgone hgroup ?_
  rw [hmkeys]
  exact opened_closeParagraph_closeListItem hp.tracked.stack hgroup

/-- Other tags add no list items. -/
theorem other_of_leftOut {name : String} (hname : name ∈ leftOutNames) :
    ∀ names ∈ itemGroups, (keyOf (.ofName name)).isHtml names = false := by
  have hall : ∀ name ∈ leftOutNames, ∀ names ∈ itemGroups, (keyOf (.ofName name)).isHtml names = false := by decide
  exact hall name hname

theorem other_of_own {e : Element} (h : Own tag e) (hname : ∀ names ∈ itemGroups, tag.name ∉ names) :
    ∀ names ∈ itemGroups, (keyOf e).isHtml names = false := by
  intro names hgroup
  rw [Bool.eq_false_iff]
  intro hhtml
  obtain ⟨hspace, hmem⟩ := isHtml_iff.1 hhtml
  cases h with
  | html => exact hname names hgroup hmem
  | image himage =>
    have hall : ∀ names ∈ itemGroups, "img" ∉ names := by decide
    exact hall names hgroup hmem
  | foreign space =>
    obtain rfl : space = .html := hspace
    exact hname names hgroup hmem

theorem apart_read (hd : d.Apart) (hstack : Stack d.keys) {token : Token} (h : d.read limit offset token = .ok d') :
    d'.Apart := by
  cases token with
  | character c => exact Except.ok.inj h ▸ apart_mapCurrent hd fun hcurrent => Forest.apart_pushChar hcurrent c
  | comment data span => exact Except.ok.inj h ▸ apart_add hd trivial
  | doctype name span => exact Except.ok.inj h ▸ hd
  | startTag name selfClosing attributes span =>
    by_cases hitem : ∃ names ∈ itemGroups, name ∈ names
    · obtain ⟨names, hgroup, hname⟩ := hitem
      exact apart_itemTag hd hstack hgroup hname h
    · refine apart_foldlM hd (fun e stays hmem => ?_) h
      rcases insert_startTag hmem with ⟨implied, himplied, rfl⟩ | hown
      · exact other_of_leftOut himplied
      · exact other_of_own hown fun names hgroup hname => hitem ⟨names, hgroup, hname⟩
  | endTag name span =>
    refine apart_foldlM hd (fun e stays hmem => ?_) h
    rcases insert_endTag hmem with ⟨implied, himplied, rfl⟩ | ⟨-, hown⟩
    · exact other_of_leftOut himplied
    · exact other_of_own hown (show ∀ names ∈ itemGroups, "br" ∉ names by decide)
  | endOfFile n => exact Except.ok.inj h ▸ apart_closeFrames d.opened n hd

/-- The open elements stay settled. -/
theorem stack_read (hstack : Stack d.keys) {token : Token} (hvalid : token.Valid)
    (h : d.read limit offset token = .ok d') : Stack d'.keys := by
  cases token with
  | character c =>
    rw [← Except.ok.inj h, keys_mapCurrent]
    exact hstack
  | comment data span =>
    rw [← Except.ok.inj h, Draft.keys_add]
    exact hstack
  | doctype name span => exact Except.ok.inj h ▸ hstack
  | startTag name selfClosing attributes span =>
    let tag : StartTag := ⟨name, selfClosing, attributes, span⟩
    have htracked : Tracked (Added tag) d.keys ((start d.keys).startTag tag) :=
      tracked_startTag (tracked_start hstack) ⟨hvalid.1, hvalid.2.1, hvalid.2.2⟩
    rw [keys_foldlM h, htracked.tracks]
    exact htracked.stack
  | endTag name span =>
    have htracked : Tracked (Added (lineBreak span)) d.keys ((start d.keys).endTag name span) :=
      tracked_endTag (tracked_start hstack)
    rw [keys_foldlM h, htracked.tracks]
    exact htracked.stack
  | endOfFile n =>
    rw [← Except.ok.inj h, Draft.keys, Draft.opened_closeAll]
    exact trivial

/-- **Tokens keep list items apart.** -/
theorem apart_readAll {tokens : List Token} (hd : d.Apart) (hstack : Stack d.keys) (hvalid : ∀ t ∈ tokens, t.Valid)
    (h : d.readAll limit offset tokens = .ok d') : d'.Apart := by
  induction tokens generalizing d offset with
  | nil => exact Except.ok.inj h ▸ hd
  | cons token rest ih =>
    -- the open elements have to be settled too, or an item that is ended could leave a paragraph open around it
    obtain ⟨m, hm, h⟩ := readAll_cons_ok h
    exact ih (apart_read hd hstack hm) (stack_read hstack (hvalid _ List.mem_cons_self) hm)
      (fun t ht => hvalid t (List.mem_cons_of_mem _ ht)) h

end Token

theorem apart_of_text {text : String} {f : Forest} (h : forestOf text = .ok f) : f.Apart [] false := by
  obtain ⟨d, hd, rfl⟩ := readAll_of_grow h
  have hstart : Draft.start.Apart := ⟨trivial, trivial⟩
  exact (apart_readAll hstart trivial (fun t ht => valid_tokenize ht) hd).done

end LiveMarkup.Html
