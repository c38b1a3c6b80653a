/-
Markup behind an element that is closed.

What stands behind an element that is closed outside of every other is read as by itself: the rules see the same
open elements, and every place in the text is later by as many bytes as stand before it (`readAll_behind`, token by
token). Main result: `forestOf_behind`, for texts whose tokens are those of an element and those of another text.
-/
import LiveMarkup.Proofs.Html.Views
import LiveMarkup.Proofs.Html.Naming
import LiveMarkup.Proofs.Html.Lexing.Shift

set_option autoImplicit false

namespace LiveMarkup.Html

variable {k limit offset : Nat} {e : Element} {inside f g : Forest} {d : Draft}

/-! ## Places that are later -/

/-- A location that is some bytes later. -/
def shiftLocation (k : Nat) (l : Location) : Location :=
  ⟨shiftSpan k l.startTag, l.endTag.map (shiftSpan k), shiftSpan k l.span, l.selfClosing⟩

/-- An element that stands some bytes later. -/
def shiftElement (k : Nat) (e : Element) : Element := relocate (shiftLocation k) e

namespace Forest

/-- A forest whose elements stand some bytes later. -/
def shift (k : Nat) : Forest → Forest
  | nil => nil
  | text s rest => text s (rest.shift k)
  | comment s rest => comment s (rest.shift k)
  | element e inside rest => element (shiftElement k e) (inside.shift k) (rest.shift k)

theorem shift_append (k : Nat) (f g : Forest) : (f ++ g).shift k = f.shift k ++ g.shift k := by
  induction f with
  | nil => rfl
  | text s rest ih => rw [text_append, shift, shift, ih, text_append]
  | comment s rest ih => rw [comment_append, shift, shift, ih, comment_append]
  | element e inside rest _ ih => rw [element_append, shift, shift, ih, element_append]

theorem shift_pushChar (k : Nat) (f : Forest) (c : Char) : (f.pushChar c).shift k = (f.shift k).pushChar c := by
  induction f, c using pushChar.induct with
  | case1 c => rfl
  | case2 s c => rfl
  | case3 s rest c hne ih =>
    rw [pushChar_text_of_ne hne, shift, shift, ih, pushChar_text_of_ne fun hnil => hne ?_]
    cases rest <;> first | rfl | cases hnil
  | case4 s rest c ih => rw [pushChar, shift, shift, ih, pushChar]
  | case5 e inside rest c ih => rw [pushChar, shift, shift, ih, pushChar]

end Forest

theorem shiftLocation_closedAt (k offset : Nat) (l : Location) :
    shiftLocation k (l.closedAt offset) = (shiftLocation k l).closedAt (offset + k) := by
  have hstop : max (offset + k) (l.startTag.stop + k) = max offset l.startTag.stop + k := Nat.add_max_add_right _ _ _
  simp only [shiftLocation, Location.closedAt, shiftSpan, hstop]

theorem shiftLocation_closedBy (k : Nat) (endTag : Span) (l : Location) :
    shiftLocation k (l.closedBy endTag) = (shiftLocation k l).closedBy (shiftSpan k endTag) := rfl

theorem shiftElement_relocate {record record' : Location → Location}
    (h : ∀ l, shiftLocation k (record l) = record' (shiftLocation k l)) (e : Element) :
    shiftElement k (relocate record e) = relocate record' (shiftElement k e) := by
  unfold shiftElement relocate
  simp only [Option.map_map]
  congr 1
  exact Option.map_congr fun l _ => h l

/-- A tag that stands some bytes later adds elements that stand as many bytes later. -/
theorem renames_shift (k : Nat) (tag : StartTag) :
    Plan.Renames (shiftElement k) tag { tag with span := shiftSpan k tag.span } where
  key _ := rfl
  implied _ := rfl
  name := rfl
  selfClosing := rfl
  breaksOut := rfl
  html _ := rfl
  foreign _ := rfl

/-! ## Drafts behind an element -/

namespace Draft

/-- A draft that is read behind an element that is closed. -/
def behind (e : Element) (inside : Forest) (k : Nat) (d : Draft) : Draft :=
  ⟨.element e inside (d.done.shift k), d.opened.map fun f => ⟨shiftElement k f.element, f.inside.shift k⟩⟩

/-- What is read of a text that stands some bytes later, behind an element. -/
def resultBehind (e : Element) (inside : Forest) (k : Nat) : Except ParseError Draft → Except ParseError Draft
  | .ok d => .ok (d.behind e inside k)
  | .error (.tooDeep limit offset) => .error (.tooDeep limit (offset + k))

theorem keys_behind (d : Draft) : (d.behind e inside k).keys = d.keys := by
  unfold keys behind
  rw [List.map_map]
  rfl

theorem mapCurrent_behind (change change' : Forest → Forest) (h : ∀ f, (change f).shift k = change' (f.shift k))
    (hfront : ∀ f, change' (.element e inside f) = .element e inside (change' f)) (d : Draft) :
    (d.behind e inside k).mapCurrent change' = (d.mapCurrent change).behind e inside k := by
  obtain ⟨done, opened⟩ := d
  cases opened with
  | nil =>
    change (⟨change' (.element e inside (done.shift k)), []⟩ : Draft) = ⟨.element e inside ((change done).shift k), []⟩
    rw [hfront, h]
  | cons frame frames =>
    unfold mapCurrent behind
    simp only [List.map_cons, h]

theorem add_behind (new : Forest) (d : Draft) :
    (d.behind e inside k).add (new.shift k) = (d.add new).behind e inside k :=
  mapCurrent_behind (· ++ new) (· ++ new.shift k) (fun f => Forest.shift_append k f new) (fun _ => rfl) d

theorem close_behind {record record' : Location → Location}
    (h : ∀ l, shiftLocation k (record l) = record' (shiftLocation k l)) (d : Draft) :
    (d.behind e inside k).close record' = (d.close record).behind e inside k := by
  obtain ⟨done, opened⟩ := d
  cases opened with
  | nil => rfl
  | cons frame frames =>
    have hadd := @add_behind k e inside (.element (relocate record frame.element) frame.inside .nil) ⟨done, frames⟩
    rw [Forest.shift, shiftElement_relocate h] at hadd
    exact hadd

theorem perform_behind (a : Action) (d : Draft) :
    (d.behind e inside k).perform limit (offset + k) (a.map (shiftElement k) (shiftSpan k)) =
      resultBehind e inside k (d.perform limit offset a) := by
  cases a with
  | note deviation => rfl
  | close => exact congrArg Except.ok (close_behind (shiftLocation_closedAt k offset) d)
  | closeBy endTag => exact congrArg Except.ok (close_behind (shiftLocation_closedBy k endTag) d)
  | insert element stays =>
    have hlength : (d.behind e inside k).opened.length = d.opened.length := List.length_map _
    rw [Action.map, perform, perform, hlength]
    split
    · rfl
    · split
      · rfl
      · exact congrArg Except.ok (add_behind (.element element .nil .nil) d)

theorem foldlM_behind (actions : List Action) (d : Draft) :
    (actions.map (Action.map (shiftElement k) (shiftSpan k))).foldlM (perform limit (offset + k)) (d.behind e inside k) =
      resultBehind e inside k (actions.foldlM (perform limit offset) d) := by
  induction actions generalizing d with
  | nil => rfl
  | cons a actions ih =>
    rw [List.map_cons, List.foldlM_cons, List.foldlM_cons, perform_behind]
    cases d.perform limit offset a with
    | error error => cases error; rfl
    | ok d => exact ih d

theorem closeAll_behind (offset : Nat) (d : Draft) :
    (d.behind e inside k).closeAll (offset + k) = (d.closeAll offset).behind e inside k := by
  unfold closeAll
  have hopened : (d.behind e inside k).opened = d.opened.map fun f => ⟨shiftElement k f.element, f.inside.shift k⟩ := rfl
  rw [hopened]
  clear hopened
  generalize d.opened = frames
  induction frames generalizing d with
  | nil => rfl
  | cons frame frames ih =>
    have hclose : (d.behind e inside k).close (·.closedAt (offset + k)) = (d.close (·.closedAt offset)).behind e inside k :=
      close_behind (shiftLocation_closedAt k offset) d
    rw [List.foldl_cons, List.map_cons, List.foldl_cons, ← ih, hclose]

/-- **A token is read behind an element as by itself**; where the last tag stands matters for tags only, which tell it. -/
theorem read_behind (start offset : Nat) (token : Token) (d : Draft) :
    (d.behind e inside k).read limit (offsetAt start (token.shift k)) (token.shift k) =
      resultBehind e inside k (d.read limit (offsetAt offset token) token) := by
  cases token with
  | character c =>
    exact congrArg Except.ok
      (mapCurrent_behind (·.pushChar c) (·.pushChar c) (fun f => Forest.shift_pushChar k f c) (fun _ => rfl) d)
  | comment data span => exact congrArg Except.ok (add_behind (.comment data .nil) d)
  | doctype name span => rfl
  | startTag name selfClosing attributes span =>
    have hplan := Plan.map_startTag (h := shiftSpan k) (renames_shift k ⟨name, selfClosing, attributes, span⟩)
      (Plan.start d.keys)
    rw [Plan.map_start] at hplan
    rw [Token.shift, read, read, keys_behind, ← hplan]
    exact foldlM_behind _ d
  | endTag name span =>
    have hplan : _ = (Plan.map _ (shiftSpan k) (Plan.start d.keys)).endTag name (shiftSpan k span) :=
      Plan.map_endTag (renames_shift k ⟨"br", false, [], span⟩) (Plan.start d.keys)
    rw [Plan.map_start] at hplan
    rw [Token.shift, read, read, keys_behind, ← hplan]
    exact foldlM_behind _ d
  | endOfFile n => exact congrArg Except.ok (closeAll_behind n d)

theorem readAll_behind (start offset : Nat) (tokens : List Token) (d : Draft) :
    (d.behind e inside k).readAll limit start (tokens.map (.shift k)) =
      resultBehind e inside k (d.readAll limit offset tokens) := by
  induction tokens generalizing start offset d with
  | nil => rfl
  | cons token tokens ih =>
    rw [List.map_cons, readAll, readAll, read_behind start offset]
    cases d.read limit (offsetAt offset token) token with
    | error error => cases error; rfl
    | ok d => exact ih _ _ d

end Draft

/-- **A text behind an element reads as by itself**, when its tokens follow those of the element. -/
theorem forestOf_behind {whole rest : String} {front : List Token}
    (htokens : tokenize whole = front ++ (tokenize rest).map (.shift k))
    (hfront : Draft.start.readAll maxOpenElements 0 front = .ok ⟨.element e inside .nil, []⟩) :
    forestOf whole = match forestOf rest with
      | .ok f => .ok (.element e inside (f.shift k))
      | .error (.tooDeep limit offset) => .error (.tooDeep limit (offset + k)) := by
  have hbehind : (⟨.element e inside .nil, []⟩ : Draft) = Draft.start.behind e inside k := rfl
  unfold forestOf grow
  rw [htokens, Draft.readAll_append, hfront, hbehind]
  change ((Draft.start.behind e inside k).readAll maxOpenElements _ _).map _ = _
  rw [Draft.readAll_behind _ 0]
  cases Draft.start.readAll maxOpenElements 0 (tokenize rest) with
  | ok d => rfl
  | error error => cases error; rfl

/-! ## The nodes of the tree -/

/-- What a node of a parsed text is when it stands some places and some bytes later. -/
def laterKind (m k : Nat) : Kind → Kind
  | .element e => .element { shiftElement k e with contents := e.contents.map (· + m) }
  | kind => kind

mutual

/-- A node of a parsed text, with all that is under it, that stands `m` places and `k` bytes later. -/
def later (m k : Nat) : View → View
  | .node id kind contents children =>
    .node (id + m) (laterKind m k kind) (allLater m k contents) (allLater m k children)

/-- Several nodes that stand later. -/
def allLater (m k : Nat) : List View → List View
  | [] => []
  | v :: rest => later m k v :: allLater m k rest

end

variable {m lo parent : Nat} {t : Tree}

theorem size_shift (k : Nat) (f : Forest) : (f.shift k).size = f.size := by
  induction f with
  | nil => rfl
  | text s rest ih => rw [Forest.shift, Forest.size, Forest.size, ih]
  | comment s rest ih => rw [Forest.shift, Forest.size, Forest.size, ih]
  | element e inside rest ihi ihr =>
    rw [Forest.shift, Forest.size, Forest.size, ihi, ihr]
    rfl

theorem boxOf_later (m k lo : Nat) (e : Element) : boxOf (lo + m) (shiftElement k e) = boxOf lo e + m := by
  rw [shiftElement, boxOf_relocate, Forest.boxOf_eq, Forest.boxOf_eq lo]
  omega

theorem placed_later (m k lo : Nat) {e : Element} (h : e.contents = none) :
    placed (lo + m) (shiftElement k e) =
      { shiftElement k (placed lo e) with contents := (placed lo e).contents.map (· + m) } := by
  rw [shiftElement, placed_relocate]
  unfold placed
  split
  · rw [Nat.add_right_comm]
    rfl
  · rw [h]
    exact congrArg (fun contents => ({ shiftElement k e with contents } : Element)) h

/-- **A forest that stands later shows the same nodes later.** -/
theorem views_shift (hf : Shows t parent lo f) :
    (f.shift k).views (lo + m) = allLater m k (f.views lo) := by
  induction f generalizing parent lo with
  | nil => rfl
  | text s rest ih =>
    rw [Forest.shift, Forest.views, Forest.views, Nat.add_right_comm, ih hf.2]
    rfl
  | comment s rest ih =>
    rw [Forest.shift, Forest.views, Forest.views, Nat.add_right_comm, ih hf.2]
    rfl
  | element e inside rest ihi ihr =>
    obtain ⟨hcontents, -, hinside, hrest⟩ := hf
    have hplace : boxOf (lo + m) (shiftElement k e) + 1 + (inside.shift k).size = boxOf lo e + 1 + inside.size + m := by
      rw [boxOf_later, size_shift]
      omega
    rw [Forest.shift, Forest.views, Forest.views, placed_later m k lo hcontents, hplace, ihr hrest, allLater]
    have htemplate : isTemplate (shiftElement k e) = isTemplate e := rfl
    rw [htemplate]
    congr 1
    split
    · rename_i ht
      have hbox : boxOf lo e = lo + 1 := if_pos ht
      rw [hbox] at hinside
      have hinner : (inside.shift k).views (lo + m + 2) = allLater m k (inside.views (lo + 2)) := by
        rw [← ihi hinside, Nat.add_right_comm]
      have hfragment : lo + m + 1 = lo + 1 + m := Nat.add_right_comm _ _ _
      rw [hinner, hfragment]
      rfl
    · rename_i ht
      have hbox : boxOf lo e = lo := if_neg ht
      rw [hbox] at hinside
      have hinner : (inside.shift k).views (lo + m + 1) = allLater m k (inside.views (lo + 1)) := by
        rw [← ihi hinside, Nat.add_right_comm]
      rw [hinner]
      rfl

end LiveMarkup.Html
