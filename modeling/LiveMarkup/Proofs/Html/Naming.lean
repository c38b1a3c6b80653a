/-
What a tag does depends on names only.

The rules of markup look at the keys of the open elements and at the name of the tag. So when two tags of
one name are read at the same place, the two plans differ in the elements that they add and in the end
tags that they record, and nowhere else (`map_startTag`, `map_endTag`). A renaming says how.
-/
import LiveMarkup.Html.Plan

set_option autoImplicit false

namespace LiveMarkup.Html

/-- An action with the element that it adds, or the end tag that it records, replaced. -/
def Action.map (g : Element → Element) (h : Span → Span) : Action → Action
  | .note deviation => .note deviation
  | .close => .close
  | .closeBy endTag => .closeBy (h endTag)
  | .insert e stays => .insert (g e) stays

namespace Plan

/-- A plan with elements and end tags replaced. -/
def map (g : Element → Element) (h : Span → Span) (p : Plan) : Plan :=
  ⟨p.opened, p.actions.map (Action.map g h)⟩

variable {g : Element → Element} {h : Span → Span} {tag tag' : StartTag}

/-- Replacing elements by `g` turns what one tag adds into what another tag adds. -/
structure Renames (g : Element → Element) (tag tag' : StartTag) : Prop where
  key : ∀ e, keyOf (g e) = keyOf e
  implied : ∀ name, g (.ofName name) = .ofName name
  name : tag'.name = tag.name
  selfClosing : tag'.selfClosing = tag.selfClosing
  breaksOut : breaksOut tag'.name tag'.attributes = breaksOut tag.name tag.attributes
  html : ∀ name, g (htmlElement { tag with name }) = htmlElement { tag' with name }
  foreign : ∀ space, g (foreignElement space tag) = foreignElement space tag'

/-! ## The parts of a plan -/

@[simp] theorem opened_map (p : Plan) : (p.map g h).opened = p.opened := rfl

@[simp] theorem map_start (opened : List Key) : (start opened).map g h = start opened := rfl

@[simp] theorem map_note (p : Plan) (deviation : Deviation) :
    (p.note deviation).map g h = (p.map g h).note deviation := by
  simp [map, note, Action.map]

@[simp] theorem map_pop (p : Plan) : p.pop.map g h = (p.map g h).pop := by
  obtain ⟨opened, actions⟩ := p
  cases opened <;> simp [map, pop, Action.map]

@[simp] theorem map_popWhile (p : Plan) (f : Key → Bool) :
    (p.popWhile f).map g h = (p.map g h).popWhile f := by
  simp [map, popWhile, Action.map]

@[simp] theorem map_popThrough (p : Plan) (names : List String) :
    (p.popThrough names).map g h = (p.map g h).popThrough names := by
  simp [popThrough]

@[simp] theorem map_closeThrough (p : Plan) (f : Key → Bool) (endTag : Option Span) :
    (p.closeThrough f endTag).map g h = (p.map g h).closeThrough f (endTag.map h) := by
  simp only [closeThrough, ← map_popWhile, opened_map]
  cases (p.popWhile fun k => !f k).opened with
  | nil => rfl
  | cons k rest =>
    cases endTag with
    | none => exact map_pop _
    | some endTag => simp [map, Action.map]

@[simp] theorem map_closeImplied (p : Plan) (except : Option String) :
    (p.closeImplied except).map g h = (p.map g h).closeImplied except := by
  simp [closeImplied]

@[simp] theorem map_closeNamed (p : Plan) (names : List String) (endTag : Span) :
    (p.closeNamed names endTag).map g h = (p.map g h).closeNamed names (h endTag) := by
  unfold closeNamed
  rw [opened_map]
  split <;> simp

@[simp] theorem map_closeParagraph (p : Plan) : p.closeParagraph.map g h = (p.map g h).closeParagraph := by
  unfold closeParagraph inButtonScope
  rw [opened_map]
  split <;> simp

@[simp] theorem map_clearBackTo (p : Plan) (names : List String) :
    (p.clearBackTo names).map g h = (p.map g h).clearBackTo names := by
  simp [clearBackTo]

@[simp] theorem map_closeListItem (p : Plan) (names : List String) :
    (p.closeListItem names).map g h = (p.map g h).closeListItem names := by
  unfold closeListItem
  rw [opened_map]
  split <;> simp

theorem map_insert (p : Plan) (e : Element) (stays : Bool) (hg : keyOf (g e) = keyOf e) :
    (p.insert e stays).map g h = (p.map g h).insert (g e) stays := by
  simp [map, insert, Action.map, hg]

theorem map_insertImplied (hr : Renames g tag tag') (p : Plan) (name : String) :
    (p.insertImplied name).map g h = (p.map g h).insertImplied name := by
  rw [insertImplied, map_insert _ _ _ (hr.key _), hr.implied, map_note]
  rfl

theorem map_insertHtml (hr : Renames g tag tag') (p : Plan) (name : String) :
    (p.insertHtml { tag with name }).map g h = (p.map g h).insertHtml { tag' with name } := by
  rw [insertHtml, map_insert _ _ _ (hr.key _), hr.html]
  rfl

theorem map_insertTag (hr : Renames g tag tag') (p : Plan) :
    (p.insertHtml tag).map g h = (p.map g h).insertHtml tag' := by
  have := map_insertHtml (h := h) hr p tag.name
  rw [← hr.name] at this
  rw [show ({ tag with name := tag'.name } : StartTag) = tag by rw [hr.name]] at this
  exact this

theorem map_insertForeign (hr : Renames g tag tag') (p : Plan) (space : Namespace) :
    (p.insertForeign tag space).map g h = (p.map g h).insertForeign tag' space := by
  rw [insertForeign, insertForeign, map_insert _ _ _ (hr.key _), hr.foreign, hr.selfClosing]

/-! ## Tags -/

@[simp] theorem currentIs_map (p : Plan) (names : List String) :
    (p.map g h).currentIs names = p.currentIs names := rfl

@[simp] theorem inScope_map (p : Plan) (name : String) : (p.map g h).inScope name = p.inScope name := rfl

@[simp] theorem inButtonScope_map (p : Plan) (name : String) :
    (p.map g h).inButtonScope name = p.inButtonScope name := rfl

@[simp] theorem inListItemScope_map (p : Plan) (name : String) :
    (p.map g h).inListItemScope name = p.inListItemScope name := rfl

@[simp] theorem inTableScope_map (p : Plan) (name : String) :
    (p.map g h).inTableScope name = p.inTableScope name := rfl

@[simp] theorem inForeign_map (p : Plan) : (p.map g h).inForeign = p.inForeign := rfl

@[simp] theorem currentSpace_map (p : Plan) : (p.map g h).currentSpace = p.currentSpace := rfl

theorem map_ite (c : Prop) [Decidable c] (p q : Plan) :
    (if c then p else q).map g h = if c then p.map g h else q.map g h := apply_ite _ c p q

theorem map_startTablePart (hr : Renames g tag tag') (p : Plan) :
    (p.startTablePart tag).map g h = (p.map g h).startTablePart tag' := by
  simp only [startTablePart, hr.name, ← map_ite, ← map_note, ← map_closeImplied, ← map_popThrough,
    ← map_clearBackTo, ← map_insertTag hr, ← map_insertImplied hr, currentIs_map, inTableScope_map]

theorem map_startHtml (hr : Renames g tag tag') (p : Plan) :
    (p.startHtml tag).map g h = (p.map g h).startHtml tag' := by
  simp only [startHtml, hr.name, ← map_ite, ← map_note, ← map_closeParagraph, ← map_closeImplied,
    ← map_popThrough, ← map_pop, ← map_closeListItem, ← map_insertTag hr, ← map_insertHtml hr,
    ← map_insertForeign hr, ← map_startTablePart hr, currentIs_map, inScope_map]

/-- **Start tags of one name do the same.** -/
theorem map_startTag (hr : Renames g tag tag') (p : Plan) :
    (p.startTag tag).map g h = (p.map g h).startTag tag' := by
  have hbreaks := hr.breaksOut
  rw [hr.name] at hbreaks
  simp only [startTag, hbreaks, hr.name, ← map_ite, ← map_startHtml hr, ← map_insertForeign hr,
    ← map_popWhile, ← map_note, inForeign_map, currentSpace_map]

/-- **End tags of one name do the same.** -/
theorem map_endTag {name : String} {span : Span}
    (hr : Renames g ⟨"br", false, [], span⟩ ⟨"br", false, [], h span⟩) (p : Plan) :
    (p.endTag name span).map g h = (p.map g h).endTag name (h span) := by
  have html : (p.endHtml name span).map g h = (p.map g h).endHtml name (h span) := by
    have hscope : (p.map g h).inScope = p.inScope := rfl
    have hsome : some (h span) = (some span).map h := rfl
    simp only [endHtml, endInScope, endOther, hsome, ← map_ite, ← map_note, ← map_closeImplied,
      ← map_closeNamed, ← map_closeThrough, ← map_startTag hr, opened_map, hscope, inButtonScope_map,
      inListItemScope_map, inTableScope_map]
  unfold endTag
  rw [currentSpace_map, map_ite, html, opened_map]
  split
  · rfl
  · split
    · rw [map_ite, html, map_closeThrough, Option.map_some]
    · rw [map_note]

end Plan

end LiveMarkup.Html
