/-
Reading a written forest.

A forest can be read back when every element in it is one that its own tags make again where it stands
(`Plain`): its start tag adds the element to the open ones and does nothing else, and its end tag closes it
(`Rebuilds`). The markup of such a forest is read as the forest, whatever stands before and behind it
(`reads_forest`).
-/
import LiveMarkup.Proofs.Html.Lexing.Raw
import LiveMarkup.Proofs.Html.Reading

set_option autoImplicit false

namespace LiveMarkup

/-- What markup says of an element: its name, its attributes and its language. -/
def Element.bare (e : Element) : Element := { Element.ofName e.name with attributes := e.attributes, space := e.space }

namespace Html

open Text

namespace Forest

/-- What markup says of a forest. -/
def bare : Forest → Forest
  | nil => nil
  | text s rest => text s rest.bare
  | comment data rest => comment data rest.bare
  | element e inside rest => element e.bare inside.bare rest.bare

/-- Whether the first node is a text. -/
def beginsInText : Forest → Bool
  | text _ _ => true
  | _ => false

/-- Whether the last node is a text. -/
def endsInText : Forest → Bool
  | nil => false
  | text _ rest => if rest = nil then true else rest.endsInText
  | comment _ rest => rest.endsInText
  | element _ _ rest => rest.endsInText

theorem pushChar_of_not_endsInText {f : Forest} (h : f.endsInText = false) (c : Char) :
    f.pushChar c = f ++ text c.toString nil := by
  induction f, c using pushChar.induct with
  | case1 c => rfl
  | case2 s c => cases h
  | case3 s rest c hne ih =>
    rw [endsInText, if_neg hne] at h
    rw [pushChar, ih h, text_append]
    exact hne
  | case4 data rest c ih => rw [pushChar, ih h, comment_append]
  | case5 e inside rest c ih => rw [pushChar, ih h, element_append]

theorem append_ne_nil {f g : Forest} (h : g ≠ nil) : f ++ g ≠ nil := by
  cases f with
  | nil => exact h
  | text s rest => exact nofun
  | comment data rest => exact nofun
  | element e inside rest => exact nofun

theorem pushChar_append_text (f : Forest) (s : String) (c : Char) :
    (f ++ text s nil).pushChar c = f ++ text (s.push c) nil := by
  induction f with
  | nil => rfl
  | text s' rest ih =>
    rw [text_append, pushChar, ih, text_append]
    refine append_ne_nil ?_
    rintro ⟨⟩
  | comment data rest ih => rw [comment_append, pushChar, ih, comment_append]
  | element e inside rest _ ih => rw [element_append, pushChar, ih, element_append]

theorem endsInText_append {f g : Forest} (h : g ≠ nil) : (f ++ g).endsInText = g.endsInText := by
  induction f with
  | nil => rfl
  | text s rest ih =>
    rw [text_append, endsInText, if_neg (append_ne_nil h)]
    exact ih
  | comment data rest ih => exact ih
  | element e inside rest _ ih => exact ih

end Forest

/-! ## What is being read -/

namespace Draft

variable {limit offset : Nat} {d : Draft}

theorem mapCurrent_mapCurrent (d : Draft) (g h : Forest → Forest) :
    (d.mapCurrent g).mapCurrent h = d.mapCurrent fun f => h (g f) := by
  obtain ⟨done, opened⟩ := d
  cases opened with
  | nil => rfl
  | cons f frames => rfl

theorem mapCurrent_congr {g h : Forest → Forest} (heq : g d.current = h d.current) : d.mapCurrent g = d.mapCurrent h := by
  obtain ⟨done, opened⟩ := d
  cases opened with
  | nil => exact congrArg (fun f => (⟨f, []⟩ : Draft)) heq
  | cons f frames => exact congrArg (fun g => (⟨done, ⟨f.element, g⟩ :: frames⟩ : Draft)) heq

theorem add_add (d : Draft) (f g : Forest) : (d.add f).add g = d.add (f ++ g) := by
  unfold add
  rw [mapCurrent_mapCurrent]
  exact mapCurrent_congr (Forest.append_assoc _ f g)

theorem add_nil (d : Draft) : d.add .nil = d := by
  have hsame : d.add .nil = d.mapCurrent id := mapCurrent_congr (Forest.append_nil _)
  rw [hsame]
  obtain ⟨done, opened⟩ := d
  cases opened with
  | nil => rfl
  | cons f frames => rfl

theorem current_add (d : Draft) (f : Forest) : (d.add f).current = d.current ++ f := by
  obtain ⟨done, opened⟩ := d
  cases opened with
  | nil => rfl
  | cons f frames => rfl

theorem keys_add (d : Draft) (f : Forest) : (d.add f).keys = d.keys := keys_mapCurrent d _

theorem length_keys (d : Draft) : d.keys.length = d.opened.length := by
  unfold keys
  exact List.length_map _

/-- Text that does not follow a text becomes one text. -/
theorem readAll_text {s : String} (hs : s ≠ "") (hd : d.current.endsInText = false) :
    d.readAll limit offset (s.toList.map .character) = .ok (d.add (.text s .nil)) := by
  -- the first character begins the text, and the others are added to it
  have hmore : ∀ (cs : List Char) (s₀ : String) (offset : Nat),
      (d.add (.text s₀ .nil)).readAll limit offset (cs.map .character)
        = .ok (d.add (.text (s₀ ++ String.ofList cs) .nil)) := by
    intro cs
    induction cs with
    | nil =>
      intro s₀ offset
      rw [show s₀ ++ String.ofList [] = s₀ from String.append_empty]
      rfl
    | cons c cs ih =>
      intro s₀ offset
      have hpush : (d.add (.text s₀ .nil)).mapCurrent (·.pushChar c) = d.add (.text (s₀.push c) .nil) := by
        unfold add
        rw [mapCurrent_mapCurrent]
        exact mapCurrent_congr (Forest.pushChar_append_text _ s₀ c)
      have hjoin : s₀.push c ++ String.ofList cs = s₀ ++ String.ofList (c :: cs) := by
        apply String.ext
        simp only [String.toList_append, String.toList_push, String.toList_ofList, List.append_assoc,
          List.singleton_append]
      rw [List.map_cons, readAll]
      change ((d.add (.text s₀ .nil)).mapCurrent (·.pushChar c)).readAll _ _ _ = _
      rw [hpush, ih, hjoin]
  obtain ⟨c, cs, hcs⟩ : ∃ c cs, s.toList = c :: cs := by
    cases hlist : s.toList with
    | nil => exact absurd (String.toList_eq_nil_iff.1 hlist) hs
    | cons c cs => exact ⟨c, cs, rfl⟩
  have hfirst : d.mapCurrent (·.pushChar c) = d.add (.text c.toString .nil) :=
    mapCurrent_congr (Forest.pushChar_of_not_endsInText hd c)
  have hjoin : c.toString ++ String.ofList cs = s := by
    apply String.ext
    rw [String.toList_append, toList_toString, String.toList_ofList, hcs]
    rfl
  rw [hcs, List.map_cons, readAll]
  change (d.mapCurrent (·.pushChar c)).readAll _ _ _ = _
  rw [hfirst, hmore, hjoin]

end Draft

/-! ## Forests that can be read back -/

/-- An element that its own tags make again among the open elements: its start tag adds it and does nothing
else, and its end tag closes it. -/
structure Plain (opened : List Key) (e : Element) : Prop where
  legible : Lexer.Legible e
  opens : ∀ span, ∃ made : Element, made.bare = e.bare ∧
    ((Plan.start opened).startTag ⟨e.name.toLower, false, e.attributes.map Lexer.lowered, span⟩).actions
      = [.insert made (!e.isVoid)]
  closes : e.isVoid = false → ∀ span,
    ((Plan.start (keyOf e :: opened)).endTag e.name.toLower span).actions = [.closeBy span]

/-- How the text of an element is read. -/
def contentOf (e : Element) : Content := Content.ofElement e.name.toLower

/-- Whether what is inside an element is written as it stands. -/
def writesRaw (e : Element) : Bool := !isTemplate e && rawTextNames.contains e.name

/-- An element whose text is not markup holds nothing, or one text that is written as it is read. -/
structure HoldsText (e : Element) (inside : Forest) : Prop where
  ends : contentOf e ≠ .plain
  written : writesRaw e = true ↔ contentOf e ≠ .escapable
  text : inside = .nil ∨ ∃ s, inside = .text s .nil ∧ s ≠ "" ∧
    (contentOf e ≠ .escapable → RawText e.name.toLower s.toList)

/-- A forest that can be read back among the open elements. -/
def Rebuilds (limit : Nat) : List Key → Forest → Prop
  | _, .nil => True
  | opened, .text s rest => s ≠ "" ∧ rest.beginsInText = false ∧ Rebuilds limit opened rest
  | opened, .comment data rest => CommentText data.toList ∧ Rebuilds limit opened rest
  | opened, .element e inside rest =>
    Plain opened e ∧
      (if e.isVoid then contentOf e = .markup ∧ inside = .nil
        else opened.length < limit ∧
          if contentOf e = .markup then writesRaw e = false ∧ Rebuilds limit (keyOf e :: opened) inside
          else HoldsText e inside) ∧
      Rebuilds limit opened rest

theorem keyOf_bare (e : Element) : keyOf e.bare = keyOf e := rfl

theorem perform_insert {limit offset : Nat} {d : Draft} (e : Element) (hroom : d.opened.length < limit) :
    d.perform limit offset (.insert e true) = .ok { d with opened := ⟨e, .nil⟩ :: d.opened } := by
  rw [Draft.perform, if_neg (fun h => absurd h.2 (Nat.not_le_of_lt hroom)), if_pos rfl]

/-- Reading one tag that does one thing. -/
theorem readAll_one {limit offset : Nat} {d d' : Draft} {token : Token}
    (h : ∀ offset, d.read limit offset token = .ok d') : d.readAll limit offset [token] = .ok d' := by
  rw [Draft.readAll, h]
  rfl

theorem foldlM_singleton {limit offset : Nat} {d : Draft} (a : Action) :
    [a].foldlM (Draft.perform limit offset) d = d.perform limit offset a := by
  rw [List.foldlM_cons]
  cases d.perform limit offset a <;> rfl

theorem readAll_trans {limit offset : Nat} {d d' d'' : Draft} {first second : List Token}
    (h : d.readAll limit offset first = .ok d') (k : ∀ offset, d'.readAll limit offset second = .ok d'') :
    d.readAll limit offset (first ++ second) = .ok d'' := by
  rw [Draft.readAll_append, h]
  exact k _

/-- What is read back of an element: it is added with what is inside it. -/
theorem readAll_element {limit : Nat} {opened : List Key} {e : Element} (he : Plain opened e)
    (hvoid : e.isVoid = false) (hroom : opened.length < limit) {inside : List Token} {f : Forest}
    (hinside : ∀ offset (d : Draft), d.keys = keyOf e :: opened → d.current.endsInText = false →
      d.readAll limit offset inside = .ok (d.add f)) (span endSpan : Span) :
    ∃ made : Element, made.bare = e.bare ∧ ∀ offset (d : Draft), d.keys = opened →
      d.readAll limit offset (.startTag e.name.toLower false (e.attributes.map Lexer.lowered) span
        :: (inside ++ [.endTag e.name.toLower endSpan])) = .ok (d.add (.element made f .nil)) := by
  obtain ⟨made, hbare, hopens⟩ := he.opens span
  rw [hvoid] at hopens
  refine ⟨relocate (·.closedBy endSpan) made, hbare, ?_⟩
  intro offset d hkeys
  have hkey : keyOf made = keyOf e := by rw [← keyOf_bare, hbare, keyOf_bare]
  have hstart : ∀ offset, d.read limit offset (.startTag e.name.toLower false (e.attributes.map Lexer.lowered) span)
      = .ok { d with opened := ⟨made, .nil⟩ :: d.opened } := by
    intro offset
    rw [Draft.read, hkeys, hopens, foldlM_singleton]
    refine perform_insert made ?_
    rwa [← Draft.length_keys, hkeys]
  have hbetween : ∀ offset, ({ d with opened := ⟨made, .nil⟩ :: d.opened } : Draft).readAll limit offset inside
      = .ok { d with opened := ⟨made, f⟩ :: d.opened } := by
    intro offset
    refine hinside offset _ ?_ rfl
    rw [← hkey, ← hkeys]
    rfl
  have hend : ∀ offset, ({ d with opened := ⟨made, f⟩ :: d.opened } : Draft).read limit offset
        (.endTag e.name.toLower endSpan)
      = .ok (d.add (.element (relocate (·.closedBy endSpan) made) f .nil)) := by
    intro offset
    have hopened : ({ d with opened := ⟨made, f⟩ :: d.opened } : Draft).keys = keyOf e :: opened := by
      rw [← hkey, ← hkeys]
      rfl
    rw [Draft.read, hopened, he.closes hvoid endSpan, foldlM_singleton]
    rfl
  -- the start tag opens the element, what is inside is read as assumed, and the end tag closes it
  have hfirst : d.readAll limit offset [.startTag e.name.toLower false (e.attributes.map Lexer.lowered) span] = _ :=
    readAll_one hstart
  refine readAll_trans hfirst fun offset => ?_
  exact readAll_trans (hbetween offset) fun offset => readAll_one hend

/-! ## Pieces of markup -/

namespace Forest

theorem bare_append (f g : Forest) : (f ++ g).bare = f.bare ++ g.bare := by
  induction f with
  | nil => rfl
  | text s rest ih => rw [text_append, bare, ih, bare, text_append]
  | comment data rest ih => rw [comment_append, bare, ih, bare, comment_append]
  | element e inside rest _ ih => rw [element_append, bare, ih, bare, element_append]

theorem bare_eq_nil {f : Forest} : f.bare = nil ↔ f = nil := by
  cases f <;> simp [bare]

theorem endsInText_bare (f : Forest) : f.bare.endsInText = f.endsInText := by
  induction f with
  | nil => rfl
  | text s rest ih =>
    rw [bare, endsInText, endsInText, ih]
    simp only [bare_eq_nil]
  | comment data rest ih => exact ih
  | element e inside rest _ ih => exact ih

theorem elements_bare (f : Forest) : f.bare.elements = f.elements.map Element.bare := by
  induction f with
  | nil => rfl
  | text s rest ih => exact ih
  | comment data rest ih => exact ih
  | element e inside rest ihi ihr =>
    rw [bare, elements_element, elements_element, ihi, ihr, List.map_cons, List.map_append]

end Forest

/-- A piece of markup is read as a forest among some open elements, whatever stands before and behind it. A
text goes on with a text before it. -/
def ReadsAs (limit : Nat) (opened : List Key) (text : List Char) (f : Forest) : Prop :=
  ∀ (ls : Option String) (rest : List Char) (offset : Nat), ∃ (tokens : List Token) (made : Forest) (ls' : Option String),
    Lexer.Reads ⟨text ++ rest, offset, ls, .text .markup⟩ tokens
      ⟨rest, offset + byteLength text, ls', .text .markup⟩ ∧
    made.bare = f.bare ∧
    ∀ offset (d : Draft), d.keys = opened → (f.beginsInText = true → d.current.endsInText = false) →
      d.readAll limit offset tokens = .ok (d.add made)

section ReadsAs

variable {limit : Nat} {opened : List Key} {text text' : List Char} {f g : Forest} {e : Element}

theorem readsAs_nil : ReadsAs limit opened [] .nil := by
  intro ls rest offset
  refine ⟨[], .nil, ls, .refl _, rfl, ?_⟩
  intro offset d _ _
  rw [Draft.add_nil]
  rfl

/-- Pieces of markup are read one after the other, unless two texts meet. -/
theorem readsAs_append (hf : ReadsAs limit opened text f) (hg : ReadsAs limit opened text' g) (hne : f ≠ .nil)
    (hmeet : g.beginsInText = true → f.endsInText = false) : ReadsAs limit opened (text ++ text') (f ++ g) := by
  intro ls rest offset
  obtain ⟨tokens, made, ls', hreads, hbare, hread⟩ := hf ls (text' ++ rest) offset
  obtain ⟨tokens', made', ls'', hreads', hbare', hread'⟩ := hg ls' rest (offset + byteLength text)
  refine ⟨tokens ++ tokens', made ++ made', ls'', ?_, ?_, ?_⟩
  · rw [List.append_assoc, byteLength_append, ← Nat.add_assoc]
    exact hreads.trans hreads'
  · rw [Forest.bare_append, hbare, hbare', Forest.bare_append]
  · intro offset d hkeys hcurrent
    have hmade : made ≠ .nil := by rwa [ne_eq, ← Forest.bare_eq_nil, hbare, Forest.bare_eq_nil]
    have hends : made.endsInText = f.endsInText := by
      rw [← Forest.endsInText_bare, hbare, Forest.endsInText_bare]
    have hfirst : d.readAll limit offset tokens = .ok (d.add made) := by
      refine hread offset d hkeys fun hbegins => hcurrent ?_
      cases f with
      | nil => exact absurd rfl hne
      | text s more => rfl
      | comment data more => exact hbegins
      | element e inside more => exact hbegins
    refine readAll_trans hfirst fun offset => ?_
    rw [← Draft.add_add]
    refine hread' offset _ ((Draft.keys_add d _).trans hkeys) fun hbegins => ?_
    rw [Draft.current_add, Forest.endsInText_append hmade, hends]
    exact hmeet hbegins

theorem readsAs_text {s : String} (hs : s ≠ "") :
    ReadsAs limit opened (escapeText s).toList (.text s .nil) := by
  intro ls rest offset
  refine ⟨_, .text s .nil, ls, Lexer.reads_escapeText (.inl rfl) s rest offset, rfl, ?_⟩
  exact fun offset d _ hcurrent => Draft.readAll_text hs (hcurrent rfl)

theorem readsAs_comment {data : String} (h : CommentText data.toList) :
    ReadsAs limit opened ("<!--" ++ data ++ "-->").toList (.comment data .nil) := by
  intro ls rest offset
  refine ⟨_, .comment data .nil, ls, Lexer.reads_comment h rest offset, rfl, ?_⟩
  exact fun offset d _ _ => readAll_one fun _ => rfl

theorem readsAs_void (he : Plain opened e) (hvoid : e.isVoid = true) (hcontent : contentOf e = .markup) :
    ReadsAs limit opened (writeStartTag e).toList (.element e .nil .nil) := by
  intro ls rest offset
  have hstart := @Lexer.reads_writeStartTag ls e he.legible rest offset
  rw [show Content.ofElement e.name.toLower = .markup from hcontent] at hstart
  obtain ⟨made, hmade, hopens⟩ := he.opens ⟨offset, offset + byteLength (writeStartTag e).toList⟩
  rw [hvoid] at hopens
  refine ⟨_, .element made .nil .nil, _, hstart, ?_, ?_⟩
  · exact congrArg (fun x => Forest.element x .nil .nil) hmade
  · intro offset d hkeys _
    refine readAll_one fun offset => ?_
    rw [Draft.read, hkeys, hopens, foldlM_singleton]
    rfl

/-- What stands between the tags of an element is read as a forest inside it, whatever stands behind it. -/
def ReadsInside (limit : Nat) (opened : List Key) (e : Element) (text : List Char) (f : Forest) : Prop :=
  ∀ (rest : List Char) (offset : Nat), ∃ (tokens : List Token) (made : Forest) (ls : Option String) (span : Span),
    Lexer.Reads ⟨text ++ (("</" ++ e.name ++ ">").toList ++ rest), offset, some e.name.toLower, .text (contentOf e)⟩
      (tokens ++ [.endTag e.name.toLower span])
      ⟨rest, offset + byteLength text + byteLength ("</" ++ e.name ++ ">").toList, ls, .text .markup⟩ ∧
    made.bare = f.bare ∧
    ∀ offset (d : Draft), d.keys = keyOf e :: opened → d.current.endsInText = false →
      d.readAll limit offset tokens = .ok (d.add made)

/-- Markup between the tags. -/
theorem readsInside_markup (hname : TagName e.name.toList) (hcontent : contentOf e = .markup)
    (hinside : ReadsAs limit (keyOf e :: opened) text f) : ReadsInside limit opened e text f := by
  intro rest offset
  obtain ⟨tokens, made, ls, hreads, hbare, hread⟩ := hinside (some e.name.toLower)
    (("</" ++ e.name ++ ">").toList ++ rest) offset
  have hend := @Lexer.reads_endTag ls e.name hname rest (offset + byteLength text)
  rw [hcontent]
  exact ⟨tokens, made, ls, _, hreads.trans hend, hbare, fun offset d hkeys hcurrent => hread offset d hkeys fun _ => hcurrent⟩

/-- Text between the tags. -/
theorem readsInside_text (hname : TagName e.name.toList) (hcontent : contentOf e ≠ .markup) (hf : HoldsText e f) :
    ReadsInside limit opened e (f.write (writesRaw e)).toList f := by
  intro rest offset
  have hend : ∀ offset, Lexer.Reads ⟨("</" ++ e.name ++ ">").toList ++ rest, offset, some e.name.toLower,
      .text (contentOf e)⟩ _ _ := fun offset => Lexer.reads_rawEndTag hname rfl hcontent hf.ends rest offset
  rcases hf.text with rfl | ⟨s, rfl, hs, hraw⟩
  · refine ⟨[], .nil, _, _, hend offset, rfl, ?_⟩
    intro offset d _ _
    rw [Draft.add_nil]
    rfl
  · have htext : Lexer.Reads
        ⟨((Forest.text s .nil).write (writesRaw e)).toList ++ (("</" ++ e.name ++ ">").toList ++ rest), offset,
          some e.name.toLower, .text (contentOf e)⟩
        (s.toList.map .character)
        ⟨("</" ++ e.name ++ ">").toList ++ rest,
          offset + byteLength ((Forest.text s .nil).write (writesRaw e)).toList, some e.name.toLower,
          .text (contentOf e)⟩ := by
      have hwrite : (Forest.text s .nil).write (writesRaw e) = if writesRaw e then s else escapeText s :=
        String.append_empty
      rw [hwrite]
      by_cases hescapable : contentOf e = .escapable
      · rw [if_neg fun h => hf.written.1 h hescapable]
        exact Lexer.reads_escapeText (.inr hescapable) s _ offset
      · rw [if_pos (hf.written.2 hescapable)]
        have htag : ("</" ++ e.name ++ ">").toList ++ rest = '<' :: ("/" ++ e.name ++ ">").toList ++ rest := by
          simp only [String.toList_append]
          rfl
        rw [htag]
        exact Lexer.reads_rawText hcontent hf.ends hescapable (hraw hescapable) _ offset
    refine ⟨s.toList.map .character, .text s .nil, _, _, htext.trans (hend _), rfl, ?_⟩
    exact fun offset d _ hcurrent => Draft.readAll_text hs hcurrent

theorem readsAs_element (he : Plain opened e) (hvoid : e.isVoid = false) (hroom : opened.length < limit)
    (hinside : ReadsInside limit opened e text f) :
    ReadsAs limit opened ((writeStartTag e).toList ++ (text ++ ("</" ++ e.name ++ ">").toList))
      (.element e f .nil) := by
  intro ls rest offset
  have hstart := @Lexer.reads_writeStartTag ls e he.legible (text ++ (("</" ++ e.name ++ ">").toList ++ rest)) offset
  obtain ⟨tokens, made, ls', span, hreads, hbare, hread⟩ := hinside rest (offset + byteLength (writeStartTag e).toList)
  obtain ⟨own, hown, hwhole⟩ := readAll_element he hvoid hroom hread _ span
  refine ⟨_, .element own made .nil, ls', ?_, ?_, fun offset d hkeys _ => hwhole offset d hkeys⟩
  · rw [List.append_assoc, List.append_assoc, byteLength_append, byteLength_append, ← Nat.add_assoc, ← Nat.add_assoc]
    exact hstart.trans hreads
  · rw [Forest.bare, hown, hbare]
    rfl

end ReadsAs

/-- **A forest that can be read back is read as itself**, in whatever text and whatever elements it stands. -/
theorem readsAs_forest {limit : Nat} {opened : List Key} {f : Forest} (hf : Rebuilds limit opened f) :
    ReadsAs limit opened (f.write false).toList f := by
  induction f generalizing opened with
  | nil => exact readsAs_nil
  | text s rest ih =>
    obtain ⟨hs, hnext, hrest⟩ := hf
    rw [Forest.write, if_neg Bool.false_ne_true, String.toList_append]
    refine readsAs_append (readsAs_text hs) (ih hrest) (by rintro ⟨⟩) fun hbegins => ?_
    rw [hnext] at hbegins
    exact absurd hbegins Bool.false_ne_true
  | comment data rest ih =>
    obtain ⟨hdata, hrest⟩ := hf
    rw [Forest.write, String.toList_append]
    exact readsAs_append (readsAs_comment hdata) (ih hrest) (by rintro ⟨⟩) fun _ => rfl
  | element e inside rest ihi ihr =>
    obtain ⟨he, hinside, hrest⟩ := hf
    rw [Forest.write, String.toList_append]
    refine readsAs_append (f := .element e inside .nil) ?_ (ihr hrest) (by rintro ⟨⟩) fun _ => rfl
    cases hvoid : e.isVoid with
    | true =>
      rw [hvoid, if_pos rfl] at hinside
      rw [hinside.2, if_pos rfl]
      exact readsAs_void he hvoid hinside.1
    | false =>
      rw [hvoid, if_neg Bool.false_ne_true] at hinside
      obtain ⟨hroom, hinside⟩ := hinside
      rw [if_neg Bool.false_ne_true, String.append_assoc, String.append_assoc, String.append_assoc,
        String.toList_append, String.toList_append, ← String.append_assoc]
      refine readsAs_element he hvoid hroom ?_
      by_cases hcontent : contentOf e = .markup
      · rw [if_pos hcontent] at hinside
        rw [show (!isTemplate e && rawTextNames.contains e.name) = false from hinside.1]
        exact readsInside_markup he.legible.name hcontent (ihi hinside.2)
      · rw [if_neg hcontent] at hinside
        exact readsInside_text he.legible.name hcontent hinside

/-- A text that is read as a forest from its start has that forest. -/
theorem forestOf_of_readsAs {text : List Char} {f : Forest} (h : ReadsAs maxOpenElements [] text f) :
    ∃ made : Forest, made.bare = f.bare ∧ forestOf (String.ofList text) = .ok made := by
  obtain ⟨tokens, made, ls, hreads, hbare, hread⟩ := h none [] 0
  refine ⟨made, hbare, ?_⟩
  have htokens : tokenize (String.ofList text) = tokens ++ [.endOfFile (0 + byteLength text)] := by
    rw [List.append_nil] at hreads
    rw [tokenize_eq, String.toList_ofList]
    refine (Lexer.tokens_of_reads hreads).trans ?_
    rw [Lexer.tokens_of_none rfl]
    rfl
  rw [forestOf, htokens, grow, Draft.readAll_append, hread 0 .start rfl fun _ => rfl]
  have hadded : Draft.start.add made = ⟨made, []⟩ := congrArg (fun f => (⟨f, []⟩ : Draft)) (Forest.nil_append made)
  rw [hadded]
  rfl

end Html

end LiveMarkup
