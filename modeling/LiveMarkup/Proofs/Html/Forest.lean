/-
The tree of a text without places.

The tree builder works on an array of nodes that refer to one another. The same work is done here on
nested nodes: a `Forest` is a sequence of nodes with all that is under them, and a `Draft` is a forest
that is still being read, with the elements that are open. The contents of a template are its inside
here; no node has a place of its own. `Proofs.Html.Arena` proves that the builder's tree shows exactly
the forest that a draft reads.
-/
import LiveMarkup.Html.Builder

set_option autoImplicit false

namespace LiveMarkup.Html

/-- A sequence of nodes with all that is under them. -/
inductive Forest where
  | nil
  | text (text : String) (rest : Forest)
  | comment (data : String) (rest : Forest)
  /-- An element; `inside` are its children, or the contents of a template. -/
  | element (element : Element) (inside rest : Forest)
deriving DecidableEq, Repr

namespace Forest

/-- Two forests after one another. -/
def append : Forest → Forest → Forest
  | nil, g => g
  | text s rest, g => text s (append rest g)
  | comment s rest, g => comment s (append rest g)
  | element e inside rest, g => element e inside (append rest g)

instance : Append Forest := ⟨append⟩

@[simp] theorem nil_append (g : Forest) : nil ++ g = g := rfl

@[simp] theorem text_append (s : String) (f g : Forest) : text s f ++ g = text s (f ++ g) := rfl

@[simp] theorem comment_append (s : String) (f g : Forest) : comment s f ++ g = comment s (f ++ g) := rfl

@[simp] theorem element_append (e : Element) (i f g : Forest) :
    element e i f ++ g = element e i (f ++ g) := rfl

@[simp] theorem append_nil (f : Forest) : f ++ nil = f := by
  induction f with
  | nil => rfl
  | text s rest ih => rw [text_append, ih]
  | comment s rest ih => rw [comment_append, ih]
  | element e i rest _ ih => rw [element_append, ih]

theorem append_assoc (f g h : Forest) : f ++ g ++ h = f ++ (g ++ h) := by
  induction f with
  | nil => rfl
  | text s rest ih => rw [text_append, text_append, text_append, ih]
  | comment s rest ih => rw [comment_append, comment_append, comment_append, ih]
  | element e i rest _ ih => rw [element_append, element_append, element_append, ih]

/-- The forest with a character added to the text that ends it, or to a new one. -/
def pushChar : Forest → Char → Forest
  | nil, c => text c.toString nil
  | text s nil, c => text (s.push c) nil
  | text s rest, c => text s (pushChar rest c)
  | comment s rest, c => comment s (pushChar rest c)
  | element e inside rest, c => element e inside (pushChar rest c)

/-- The elements of a forest in document order, with what is inside each. -/
def nodes : Forest → List (Element × Forest)
  | nil => []
  | text _ rest => rest.nodes
  | comment _ rest => rest.nodes
  | element e inside rest => (e, inside) :: (inside.nodes ++ rest.nodes)

theorem nodes_append (f g : Forest) : (f ++ g).nodes = f.nodes ++ g.nodes := by
  induction f with
  | nil => rfl
  | text s rest ih => exact ih
  | comment s rest ih => exact ih
  | element e i rest _ ih => rw [element_append, nodes, nodes, ih, List.cons_append, List.append_assoc]

theorem nodes_pushChar (f : Forest) (c : Char) : (f.pushChar c).nodes = f.nodes := by
  induction f, c using pushChar.induct with
  | case1 c => rfl
  | case2 s c => rfl
  | case3 s rest c hne ih => rw [pushChar, nodes, nodes, ih]; exact hne
  | case4 s rest c ih => rw [pushChar, nodes, nodes, ih]
  | case5 e inside rest c ih => rw [pushChar, nodes, nodes, ih]

/-- The elements of a forest in document order. -/
def elements (f : Forest) : List Element := f.nodes.map (·.1)

theorem elements_append (f g : Forest) : (f ++ g).elements = f.elements ++ g.elements := by
  rw [elements, nodes_append, List.map_append]
  rfl

theorem elements_pushChar (f : Forest) (c : Char) : (f.pushChar c).elements = f.elements := by
  rw [elements, nodes_pushChar]
  rfl

theorem elements_element (e : Element) (inside rest : Forest) :
    (element e inside rest).elements = e :: (inside.elements ++ rest.elements) := by
  rw [elements, nodes, List.map_cons, List.map_append]
  rfl

end Forest

/-- An element whose location is changed, when it has one. -/
def relocate (record : Location → Location) (e : Element) : Element :=
  { e with location := e.location.map record }

/-- An open element with what was read inside it so far. -/
structure Frame where
  /-- The element. -/
  element : Element
  /-- The nodes inside it that are finished. -/
  inside : Forest
deriving DecidableEq, Repr

/-- A forest that is being read. -/
structure Draft where
  /-- The nodes outside of every open element. -/
  done : Forest
  /-- The open elements, the innermost first. -/
  opened : List Frame
deriving DecidableEq, Repr

namespace Draft

/-- A draft that has read nothing. -/
def start : Draft := ⟨.nil, []⟩

/-- What the rules see of the open elements. -/
def keys (d : Draft) : List Key := d.opened.map fun f => keyOf f.element

/-- The draft with the forest that is being read changed. -/
def mapCurrent (d : Draft) (g : Forest → Forest) : Draft :=
  match d.opened with
  | [] => { d with done := g d.done }
  | f :: rest => { d with opened := { f with inside := g f.inside } :: rest }

/-- Adds finished nodes. -/
def add (d : Draft) (new : Forest) : Draft := d.mapCurrent (· ++ new)

/-- Closes the innermost open element, where `record` says where it ends. -/
def close (d : Draft) (record : Location → Location) : Draft :=
  match d.opened with
  | [] => d
  | ⟨e, inside⟩ :: rest =>
    ({ d with opened := rest } : Draft).add
      (.element (relocate record e) inside .nil)

/-- Does one of the things that a tag at an offset does. -/
def perform (limit offset : Nat) (d : Draft) : Action → Except ParseError Draft
  | .note _ => .ok d
  | .close => .ok (d.close (·.closedAt offset))
  | .closeBy endTag => .ok (d.close (·.closedBy endTag))
  | .insert e stays =>
    if stays ∧ limit ≤ d.opened.length then .error (.tooDeep limit offset)
    else if stays then .ok { d with opened := ⟨e, .nil⟩ :: d.opened }
    else .ok (d.add (.element e .nil .nil))

/-- Closes all open elements at the end of the text. -/
def closeAll (d : Draft) (offset : Nat) : Draft :=
  d.opened.foldl (fun d _ => d.close (·.closedAt offset)) d

/-- Reads one token at an offset. -/
def read (limit offset : Nat) (d : Draft) : Token → Except ParseError Draft
  | .character c => .ok (d.mapCurrent (·.pushChar c))
  | .comment data _ => .ok (d.add (.comment data .nil))
  | .doctype _ _ => .ok d
  | .startTag name selfClosing attributes span =>
    ((Plan.start d.keys).startTag ⟨name, selfClosing, attributes, span⟩).actions.foldlM
      (perform limit offset) d
  | .endTag name span => ((Plan.start d.keys).endTag name span).actions.foldlM (perform limit offset) d
  | .endOfFile offset => .ok (d.closeAll offset)

/-- Reads tokens in order, from an offset. -/
def readAll (limit : Nat) : Nat → Draft → List Token → Except ParseError Draft
  | _, d, [] => .ok d
  | offset, d, token :: rest => do
    let read ← d.read limit (offsetAt offset token) token
    readAll limit (offsetAt offset token) read rest

/-! ## The end of the tokens -/

theorem readAll_append (limit offset : Nat) (d : Draft) (first second : List Token) :
    d.readAll limit offset (first ++ second) =
      (d.readAll limit offset first).bind fun d =>
        d.readAll limit (first.foldl offsetAt offset) second := by
  induction first generalizing offset d with
  | nil => rfl
  | cons token rest ih =>
    rw [List.cons_append, readAll, readAll, List.foldl_cons]
    cases d.read limit (offsetAt offset token) token with
    | error e => rfl
    | ok d => exact ih (offsetAt offset token) d

theorem opened_mapCurrent (d : Draft) (g : Forest → Forest) :
    (d.mapCurrent g).opened.length = d.opened.length := by
  unfold mapCurrent
  split <;> rename_i h <;> rw [h] <;> rfl

theorem opened_close (d : Draft) (record : Location → Location) :
    (d.close record).opened.length = d.opened.length - 1 := by
  unfold close
  split
  · rename_i h
    rw [h]
    rfl
  · rename_i h
    rw [h]
    exact opened_mapCurrent _ _

/-- At the end of the text no element is open. -/
theorem opened_closeAll (d : Draft) (offset : Nat) : (d.closeAll offset).opened = [] := by
  suffices ∀ (frames : List Frame) (d : Draft), frames.length = d.opened.length →
      (frames.foldl (fun d _ => d.close (·.closedAt offset)) d).opened = [] from this d.opened d rfl
  intro frames
  induction frames with
  | nil => intro d hd; exact List.length_eq_zero_iff.1 hd.symm
  | cons f frames ih =>
    intro d hd
    refine ih _ ?_
    rw [opened_close, ← hd]
    rfl

theorem opened_of_readAll {limit offset n : Nat} {d d' : Draft} {tokens : List Token}
    (h : d.readAll limit offset (tokens ++ [.endOfFile n]) = .ok d') : d'.opened = [] := by
  rw [readAll_append] at h
  cases hd : d.readAll limit offset tokens with
  | error e => rw [hd] at h; exact absurd h nofun
  | ok d =>
    rw [hd] at h
    obtain rfl := Except.ok.inj h
    exact opened_closeAll d n

end Draft

/-- The forest of a list of tokens, where no more than `limit` elements may be open at once. -/
def grow (limit : Nat) (tokens : List Token) : Except ParseError Forest :=
  (Draft.start.readAll limit 0 tokens).map (·.done)

end LiveMarkup.Html
