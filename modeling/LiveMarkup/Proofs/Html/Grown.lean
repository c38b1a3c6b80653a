/-
What texts grow into.

In the forest of a text every element stands where its start tag puts it, texts do not meet, and an element whose
text only its end tag ends holds one text at most (`Forest.Grown`). Every token keeps this of what is being read
(`grown_read`); the start tag of an element with such a text is read together with the text and its end tag
(`grown_text`). So it holds of every text (`grown_of_text`).
-/
import LiveMarkup.Proofs.Html.Lexing.Valid
import LiveMarkup.Proofs.Html.Remade
import LiveMarkup.Proofs.Html.Standing

set_option autoImplicit false

namespace LiveMarkup.Html

/-! ## Forests of texts -/

/-- What an element can hold. A void element holds nothing, nor does one of another language that closes itself;
an element whose text only its end tag ends holds one text at most. -/
structure Fits (e : Element) (inside : Forest) : Prop where
  childless : e.isVoid = true ∨ e.space ≠ .html ∧ selfCloses e = true → inside = .nil
  text : (contentOf e).endsOwn = true → selfCloses e = false → inside = .nil ∨ ∃ s, inside = .text s .nil ∧ s ≠ "" ∧
    (contentOf e ≠ .escapable → RawText e.name.toLower s.toList)

/-- A forest that a text can grow into among the open elements. -/
def Forest.Grown : List Key → Forest → Prop
  | _, .nil => True
  | opened, .text s rest => s ≠ "" ∧ rest.beginsInText = false ∧ Grown opened rest
  | opened, .comment data rest => CommentText data.toList ∧ Grown opened rest
  | opened, .element e inside rest =>
    (∃ tag, Stands opened tag e) ∧ Fits e inside ∧ Grown (keyOf e :: opened) inside ∧ Grown opened rest

/-- An open element that text can be read in as markup, with what was read inside it. -/
structure Frame.Grown (opened : List Key) (f : Frame) : Prop where
  stands : ∃ tag, Stands opened tag f.element
  stays : f.element.isVoid = false ∧ (f.element.space ≠ .html → selfCloses f.element = false)
  free : (contentOf f.element).endsOwn = true → selfCloses f.element = true
  inside : f.inside.Grown (keyOf f.element :: opened)

/-- The keys of frames. -/
def keysOf (frames : List Frame) : List Key := frames.map fun f => keyOf f.element

/-- Every frame is grown among those around it. -/
def FramesGrown : List Frame → Prop
  | [] => True
  | f :: rest => f.Grown (keysOf rest) ∧ FramesGrown rest

/-- A draft in which nothing but markup is being read. -/
structure Draft.Grown (d : Draft) : Prop where
  done : d.done.Grown []
  frames : FramesGrown d.opened

/-! ## Forests -/

section Forest

variable {opened : List Key} {f g : Forest} {e : Element}

theorem grown_append (hf : f.Grown opened) (hg : g.Grown opened)
    (hmeet : g.beginsInText = true → f.endsInText = false) : (f ++ g).Grown opened := by
  induction f with
  | nil => exact hg
  | text s rest ih =>
    obtain ⟨hs, hnext, hrest⟩ := hf
    cases rest with
    | nil =>
      refine ⟨hs, Bool.eq_false_iff.2 fun hbegins => ?_, hg⟩
      exact absurd (hmeet hbegins) (by simp [Forest.endsInText])
    | text s' more => cases hnext
    | comment data more => exact ⟨hs, rfl, ih hrest fun h => hmeet h⟩
    | element e inside more => exact ⟨hs, rfl, ih hrest fun h => hmeet h⟩
  | comment data rest ih => exact ⟨hf.1, ih hf.2 hmeet⟩
  | element e inside rest _ ih => exact ⟨hf.1, hf.2.1, hf.2.2.1, ih hf.2.2.2 hmeet⟩

theorem push_ne_empty (s : String) (c : Char) : s.push c ≠ "" := by
  intro h
  have hlist := congrArg String.toList h
  rw [String.toList_push] at hlist
  exact List.append_ne_nil_of_right_ne_nil _ (List.cons_ne_nil c []) hlist

theorem grown_pushChar (hf : f.Grown opened) (c : Char) : (f.pushChar c).Grown opened := by
  have hone : c.toString ≠ "" := push_ne_empty "" c
  induction f with
  | nil => exact ⟨hone, rfl, trivial⟩
  | text s rest ih =>
    obtain ⟨hs, hnext, hrest⟩ := hf
    cases rest with
    | nil => exact ⟨push_ne_empty s c, rfl, trivial⟩
    | text s' more => exact absurd hnext nofun
    | comment data more => exact ⟨hs, rfl, ih hrest⟩
    | element e inside more => exact ⟨hs, rfl, ih hrest⟩
  | comment data rest ih => exact ⟨hf.1, ih hf.2⟩
  | element e inside rest _ ih => exact ⟨hf.1, hf.2.1, hf.2.2.1, ih hf.2.2.2⟩

end Forest

/-! ## Elements -/

section Element

variable {opened : List Key} {e : Element} {tag : StartTag} {record : Location → Location}

theorem selfCloses_relocate (hrecord : ∀ l, (record l).selfClosing = l.selfClosing) (e : Element) :
    selfCloses (relocate record e) = selfCloses e := by
  rw [selfCloses, selfCloses, relocate]
  cases e.location with
  | none => rfl
  | some l => exact hrecord l

/-- Where an element ends does not matter to where it stands. -/
theorem stands_relocate (h : Stands opened tag e) : Stands opened tag (relocate record e) :=
  ⟨h.legal, h.name, h.attributes, h.html, h.foreign⟩

theorem toLower_of_stands (h : Stands opened tag e) : e.name.toLower = tag.name := by
  rw [h.name, lower_spellName, toLower_of_lower h.legal.name.lower]

/-- The end tag of an open element closes it. -/
theorem endTag_of_stands (h : Stands opened tag e) (hopen : e.isVoid = false) (span : Span) :
    (Plan.start (keyOf e :: opened)).endTag tag.name span = ⟨opened, [.closeBy span]⟩ := by
  rw [← toLower_of_stands h]
  refine endTag_of_element hopen fun hspace => ?_
  have hname : e.name = tag.name := by rw [h.name, hspace]; rfl
  rw [toLower_of_stands h, hname]
  exact ⟨rfl, ignoredEnd_of_settled (h.html hspace)⟩

/-- The open elements are settled. -/
theorem stack_of_frames {frames : List Frame} (h : FramesGrown frames) : Plan.Stack (keysOf frames) := by
  induction frames with
  | nil => exact trivial
  | cons f rest ih =>
    obtain ⟨hf, hrest⟩ := h
    refine ⟨fun hspace => ?_, ih hrest⟩
    obtain ⟨tag, hstands⟩ := hf.stands
    have hspace : f.element.space = .html := hspace
    have hname : f.element.name = tag.name := by rw [hstands.name, hspace]; rfl
    have hvoid := hf.stays.1
    rw [Element.isVoid, hspace] at hvoid
    refine ⟨?_, hvoid⟩
    change Plan.Settled (keysOf rest) f.element.name
    rw [hname]
    exact hstands.html hspace

end Element

/-! ## Drafts -/

section Draft

variable {d d' : Draft} {record : Location → Location}

/-- What is added among the open elements keeps the draft grown. -/
theorem grown_mapCurrent (hd : d.Grown) {g : Forest → Forest}
    (hg : ∀ f : Forest, f.Grown d.keys → (g f).Grown d.keys) : (d.mapCurrent g).Grown := by
  obtain ⟨done, opened⟩ := d
  cases opened with
  | nil => exact ⟨hg _ hd.done, trivial⟩
  | cons f rest =>
    obtain ⟨hf, hrest⟩ := hd.frames
    exact ⟨hd.done, ⟨hf.stands, hf.stays, hf.free, hg _ hf.inside⟩, hrest⟩

theorem grown_add (hd : d.Grown) {new : Forest} (hnew : new.Grown d.keys) (hbegins : new.beginsInText = false) :
    (d.add new).Grown := by
  refine grown_mapCurrent hd fun f hf => grown_append hf hnew fun h => ?_
  rw [hbegins] at h
  exact absurd h Bool.false_ne_true

/-- An element that is closed is added to what is around it. -/
theorem grown_closeFrame {e : Element} {inside : Forest} {done : Forest} {rest : List Frame}
    (hd : (⟨done, rest⟩ : Draft).Grown) (hrecord : ∀ l, (record l).selfClosing = l.selfClosing)
    (hstands : ∃ tag, Stands (keysOf rest) tag e) (hholds : Fits e inside)
    (hinside : inside.Grown (keyOf e :: keysOf rest)) :
    ((⟨done, ⟨e, inside⟩ :: rest⟩ : Draft).close record).Grown := by
  obtain ⟨tag, hstands⟩ := hstands
  refine grown_add hd ⟨⟨tag, stands_relocate hstands⟩, ⟨?_, ?_⟩, hinside, trivial⟩ rfl
  · rw [selfCloses_relocate hrecord]
    exact hholds.childless
  · rw [selfCloses_relocate hrecord]
    exact hholds.text

theorem grown_close (hd : d.Grown) (hrecord : ∀ l, (record l).selfClosing = l.selfClosing) :
    (d.close record).Grown := by
  obtain ⟨done, opened⟩ := d
  cases opened with
  | nil => exact hd
  | cons f rest =>
    obtain ⟨hf, hrest⟩ := hd.frames
    refine grown_closeFrame ⟨hd.done, hrest⟩ hrecord hf.stands ⟨?_, ?_⟩ hf.inside
    · rintro (hvoid | ⟨hspace, hself⟩)
      · rw [hf.stays.1] at hvoid
        exact absurd hvoid Bool.false_ne_true
      · rw [hf.stays.2 hspace] at hself
        exact absurd hself Bool.false_ne_true
    · intro hends hself
      rw [hf.free hends] at hself
      exact absurd hself.symm Bool.false_ne_true

theorem grown_closeFrames (frames : List Frame) (offset : Nat) (hd : d.Grown) :
    (frames.foldl (fun d _ => d.close (·.closedAt offset)) d).Grown := by
  induction frames generalizing d with
  | nil => exact hd
  | cons f frames ih => exact ih (grown_close hd fun _ => rfl)

/-- An added element after which text is read as markup. -/
structure AddedFree (tag : StartTag) (opened : List Key) (e : Element) (stays : Bool) : Prop where
  added : Added tag opened e stays
  free : (contentOf e).endsOwn = true → selfCloses e = true

theorem grown_insert {limit offset : Nat} {tag : StartTag} {e : Element} {stays : Bool} (hd : d.Grown)
    (he : AddedFree tag d.keys e stays) (h : d.perform limit offset (.insert e stays) = .ok d') : d'.Grown := by
  obtain ⟨⟨hstands, hstays, -⟩, hfree⟩ := he
  rw [Draft.perform] at h
  split at h
  · cases h
  · cases hs : stays with
    | true =>
      rw [hs, if_pos rfl] at h
      obtain rfl := Except.ok.inj h
      rw [hs] at hstays
      have hopen := Bool.not_eq_true' _ ▸ hstays.symm
      rw [Bool.or_eq_false_iff] at hopen
      refine ⟨hd.done, ⟨hstands, ⟨hopen.1, fun hspace => ?_⟩, hfree, trivial⟩, hd.frames⟩
      have hself := hopen.2
      rw [bne_iff_ne.2 hspace, Bool.true_and] at hself
      exact hself
    | false =>
      rw [hs, if_neg Bool.false_ne_true] at h
      obtain rfl := Except.ok.inj h
      exact grown_add hd ⟨hstands, ⟨fun _ => rfl, fun _ _ => .inl rfl⟩, trivial, trivial⟩ rfl

theorem grown_foldlM {limit offset : Nat} {tag : StartTag} {actions : List Action} (hd : d.Grown)
    (hin : Plan.Inserts (AddedFree tag) d.keys actions)
    (h : actions.foldlM (Draft.perform limit offset) d = .ok d') : d'.Grown := by
  induction actions generalizing d with
  | nil =>
    obtain rfl := Except.ok.inj h
    exact hd
  | cons a actions ih =>
    obtain ⟨m, hm, h⟩ := foldlM_cons_ok h
    obtain ⟨ha, hrest⟩ := hin
    rw [← keys_perform hm] at hrest
    refine ih ?_ hrest h
    cases a with
    | note deviation => exact Except.ok.inj hm ▸ hd
    | close => exact Except.ok.inj hm ▸ grown_close hd fun _ => rfl
    | closeBy span => exact Except.ok.inj hm ▸ grown_close hd fun _ => rfl
    | insert e stays => exact grown_insert hd (ha e stays rfl) hm

end Draft

/-! ## Tokens -/

section Token

variable {limit offset : Nat} {d d' : Draft}

theorem inserts_mono {Q R : List Key → Element → Bool → Prop} {opened : List Key} {actions : List Action}
    (h : Plan.Inserts Q opened actions)
    (hQR : ∀ opened e stays, .insert e stays ∈ actions → Q opened e stays → R opened e stays) :
    Plan.Inserts R opened actions := by
  induction actions generalizing opened with
  | nil => exact trivial
  | cons a actions ih =>
    refine ⟨fun e stays heq => hQR _ e stays (heq ▸ List.mem_cons_self) (h.1 e stays heq), ?_⟩
    exact ih h.2 fun opened e stays he => hQR opened e stays (List.mem_cons_of_mem _ he)

theorem inserts_startTag (hd : d.Grown) {tag : StartTag} (hlegal : Legal tag) :
    Plan.Inserts (Added tag) d.keys ((Plan.start d.keys).startTag tag).actions :=
  (Plan.tracked_startTag (Plan.tracked_start (stack_of_frames hd.frames)) hlegal).inserts

/-- A start tag after which text is read as markup, or to the end. -/
theorem grown_startTag (hd : d.Grown) {tag : StartTag} (hlegal : Legal tag)
    (hfree : (Content.ofElement tag.name).endsOwn = true → tag.selfClosing = true)
    (h : ((Plan.start d.keys).startTag tag).actions.foldlM (Draft.perform limit offset) d = .ok d') : d'.Grown := by
  refine grown_foldlM hd (inserts_mono (inserts_startTag hd hlegal) fun opened e stays _ he => ⟨he, ?_⟩) h
  intro hends
  rcases he.content with hmarkup | ⟨hname, hlocation⟩
  · rw [contentOf, hmarkup] at hends
    exact absurd hends nofun
  · rw [contentOf, hname] at hends
    rw [selfCloses, hlocation]
    exact hfree hends

theorem grown_endTag (hd : d.Grown) {name : String} {span : Span}
    (h : ((Plan.start d.keys).endTag name span).actions.foldlM (Draft.perform limit offset) d = .ok d') :
    d'.Grown := by
  have htracked : Plan.Tracked (Added (Plan.lineBreak span)) d.keys ((Plan.start d.keys).endTag name span) :=
    Plan.tracked_endTag (Plan.tracked_start (stack_of_frames hd.frames))
  refine grown_foldlM hd (inserts_mono htracked.inserts fun opened e stays _ he => ⟨he, ?_⟩) h
  have hbr : Content.ofElement "br" = .markup := by decide
  intro hends
  have hmarkup : contentOf e = .markup := by
    rcases he.content with hmarkup | ⟨hname, -⟩
    · exact hmarkup
    · rw [contentOf, hname]
      exact hbr
  rw [hmarkup] at hends
  exact absurd hends nofun

/-- **A token keeps the draft grown**, unless the text of an element follows it that only its end tag ends. -/
theorem grown_read (hd : d.Grown) {token : Token} (hvalid : token.Valid)
    (hfree : ∀ name attributes span, token = .startTag name false attributes span →
      (Content.ofElement name).endsOwn = false)
    (h : d.read limit offset token = .ok d') : d'.Grown := by
  cases token with
  | character c => exact Except.ok.inj h ▸ grown_mapCurrent hd fun f hf => grown_pushChar hf c
  | comment data span => exact Except.ok.inj h ▸ grown_add hd ⟨hvalid, trivial⟩ rfl
  | doctype name span => exact Except.ok.inj h ▸ hd
  | startTag name selfClosing attributes span =>
    refine grown_startTag hd ⟨hvalid.1, hvalid.2.1, hvalid.2.2⟩ (fun hends => ?_) h
    cases selfClosing with
    | true => rfl
    | false =>
      rw [hfree name attributes span rfl] at hends
      exact absurd hends Bool.false_ne_true
  | endTag name span => exact grown_endTag hd h
  | endOfFile n => exact Except.ok.inj h ▸ grown_closeFrames d.opened n hd

/-- The text of a void element would be markup. -/
theorem content_of_void {e : Element} (h : e.isVoid = true) : contentOf e = .markup := by
  have hnames : ∀ name ∈ voidNames, Content.ofElement name.toLower = .markup := by decide +kernel
  rw [Element.isVoid, Bool.and_eq_true, isVoidName, List.any_eq_true] at h
  obtain ⟨-, name, hname, heq⟩ := h
  rw [contentOf, ← eqIgnoreCase_iff.1 heq]
  exact hnames name hname

/-- The start tag of an element with a text of its own is always taken. -/
theorem takes_of_endsOwn {opened : List Key} {tag : StartTag} (h : (Content.ofElement tag.name).endsOwn = true) :
    takes opened tag = true := by
  have hnames : ∀ name ∈ ignoredStartNames ++ tablePartNames, (Content.ofElement name).endsOwn = false := by decide
  have hnot : ∀ names : List String, (∀ name ∈ names, name ∈ ignoredStartNames ++ tablePartNames) →
      names.contains tag.name = false := by
    intro names hsub
    rw [Bool.eq_false_iff]
    intro hc
    rw [hnames _ (hsub _ (List.contains_iff_mem.1 hc))] at h
    exact absurd h Bool.false_ne_true
  have hhtml : ∀ opened, takesHtml opened tag.name = true := by
    intro opened
    rw [takesHtml, hnot _ fun _ hmem => List.mem_append_left _ hmem, hnot _ fun _ hmem => List.mem_append_right _ hmem]
    rfl
  rw [takes, hhtml, hhtml, Bool.or_true, ite_self]

/-- The start tag of an element with a text of its own opens the element. -/
theorem grown_open (hd : d.Grown) {name : String} {attributes : List Attribute} {span : Span}
    (hlegal : Legal ⟨name, false, attributes, span⟩) (hends : (Content.ofElement name).endsOwn = true)
    (h : d.read limit offset (.startTag name false attributes span) = .ok d') :
    ∃ (m : Draft) (e : Element) (tag : StartTag), m.Grown ∧ d' = { m with opened := ⟨e, .nil⟩ :: m.opened } ∧
      Stands m.keys tag e ∧ e.isVoid = false ∧ selfCloses e = false ∧ e.name.toLower = name := by
  let read : StartTag := ⟨name, false, attributes, span⟩
  have hin := inserts_startTag hd hlegal
  change ((Plan.start d.keys).startTag read).actions.foldlM (Draft.perform limit offset) d = .ok d' at h
  obtain ⟨soft, last, hactions, hsoft, hlast⟩ := Plan.actions_startTag d.keys read
  rw [hactions] at hin h
  obtain ⟨hinsoft, hinlast⟩ := Plan.inserts_append.1 hin
  obtain ⟨m, hm, h⟩ := foldlM_append_ok h
  -- what is left out of the text is read as markup
  have hmgrown : m.Grown := by
    refine grown_foldlM hd (inserts_mono hinsoft fun opened e stays he hadded => ⟨hadded, ?_⟩) hm
    intro hends
    obtain ⟨implied, -, rfl⟩ := Plan.insert_soft (hsoft _ he)
    rcases hadded.content with hmarkup | ⟨-, hlocation⟩
    · rw [contentOf, hmarkup] at hends
      cases hends
    · cases hlocation
  rcases hlast with ⟨hnot, -⟩ | ⟨-, e, stays, hown, rfl⟩
  · rw [takes_of_endsOwn hends] at hnot
    exact absurd hnot.symm Bool.false_ne_true
  · rw [← keys_foldlM hm] at hinlast
    have hadded := hinlast.1 e stays rfl
    obtain ⟨tag, hstands⟩ := hadded.stands
    have hself : selfCloses e = false := by
      rw [selfCloses, location_of_own hown]
      rfl
    have hname : e.name.toLower = name := by
      have hlower : name.toLower = name := toLower_of_lower hlegal.name.lower
      cases hown with
      | html => exact hlower
      | image himage =>
        have himage : name = "image" := himage
        rw [himage] at hends
        exact absurd hends (by decide)
      | foreign space => exact (lower_spellName space name).trans hlower
    have hvoid : e.isVoid = false := by
      rw [Bool.eq_false_iff]
      intro hvoid
      have hmarkup := content_of_void hvoid
      rw [contentOf, hname] at hmarkup
      rw [hmarkup] at hends
      cases hends
    have hstays : stays = true := by
      rw [hadded.stays, hvoid, hself, Bool.and_false]
      rfl
    rw [hstays] at h
    refine ⟨m, e, tag, hmgrown, ?_, hstands, hvoid, hself, hname⟩
    have hperform := foldlM_one h
    rw [Draft.perform] at hperform
    split at hperform
    · cases hperform
    · rw [if_pos rfl] at hperform
      exact (Except.ok.inj hperform).symm

theorem readAll_cons_ok {token : Token} {rest : List Token} (h : d.readAll limit offset (token :: rest) = .ok d') :
    ∃ m, d.read limit (offsetAt offset token) token = .ok m ∧
      m.readAll limit (offsetAt offset token) rest = .ok d' := by
  rw [Draft.readAll] at h
  cases hm : d.read limit (offsetAt offset token) token with
  | error e =>
    rw [hm] at h
    cases h
  | ok m =>
    rw [hm] at h
    exact ⟨m, rfl, h⟩

theorem ofList_ne_empty {cs : List Char} (h : cs ≠ []) : String.ofList cs ≠ "" := by
  intro heq
  have hlist := congrArg String.toList heq
  rw [String.toList_ofList] at hlist
  exact h hlist

/-- What is inside an element once its text was read. -/
def textForest (cs : List Char) : Forest := if cs = [] then .nil else .text (String.ofList cs) .nil

theorem readAll_textForest {frame : Frame} {rest : List Frame} {done : Forest} (hframe : frame.inside = .nil)
    (cs : List Char) : (⟨done, frame :: rest⟩ : Draft).readAll limit offset (cs.map .character)
      = .ok ⟨done, { frame with inside := textForest cs } :: rest⟩ := by
  obtain ⟨e, inside⟩ := frame
  obtain rfl : inside = .nil := hframe
  unfold textForest
  split
  · rename_i hnil
    rw [hnil]
    rfl
  · rename_i hne
    have hread : (⟨done, ⟨e, .nil⟩ :: rest⟩ : Draft).readAll limit offset ((String.ofList cs).toList.map .character) = _ :=
      Draft.readAll_text (ofList_ne_empty hne) rfl
    rw [String.toList_ofList] at hread
    exact hread

/-- **The text of an element is read up to its end tag**, which closes the element. -/
theorem grown_text (hd : d.Grown) {name : String} {attributes : List Attribute} {span : Span}
    (hlegal : Legal ⟨name, false, attributes, span⟩) (hends : (Content.ofElement name).endsOwn = true)
    {cs : List Char} (hraw : Content.ofElement name ≠ .escapable → RawText name cs) {rest : List Token}
    (hrest : Lexer.EndsText name rest)
    (h : d.readAll limit offset (.startTag name false attributes span :: (cs.map .character ++ rest)) = .ok d') :
    ∃ (m : Draft) (offset : Nat), m.Grown ∧ m.readAll limit offset rest.tail = .ok d' := by
  -- the start tag, then the text, then what ends it: the end tag or the end of the source
  obtain ⟨opened, hopened, h⟩ := readAll_cons_ok h
  obtain ⟨m, e, tag, hm, rfl, hstands, hvoid, hself, hname⟩ := grown_open hd hlegal hends hopened
  rw [Draft.readAll_append, readAll_textForest rfl] at h
  change (⟨m.done, ⟨e, textForest cs⟩ :: m.opened⟩ : Draft).readAll limit _ rest = .ok d' at h
  have hcontent : contentOf e = Content.ofElement name := by rw [contentOf, hname]
  have hfits : Fits e (textForest cs) := by
    refine ⟨?_, fun _ _ => ?_⟩
    · rintro (h | ⟨-, h⟩)
      · rw [hvoid] at h
        exact absurd h Bool.false_ne_true
      · rw [hself] at h
        exact absurd h Bool.false_ne_true
    · unfold textForest
      split
      · exact .inl rfl
      · rename_i hne
        refine .inr ⟨_, rfl, ofList_ne_empty hne, ?_⟩
        rw [hcontent, hname, String.toList_ofList]
        exact hraw
  have hinside : (textForest cs).Grown (keyOf e :: m.keys) := by
    unfold textForest
    split
    · exact trivial
    · rename_i hne
      exact ⟨ofList_ne_empty hne, rfl, trivial⟩
  have hclosed : ∀ record : Location → Location, (∀ l, (record l).selfClosing = l.selfClosing) →
      ((⟨m.done, ⟨e, textForest cs⟩ :: m.opened⟩ : Draft).close record).Grown := fun record hrecord =>
    grown_closeFrame ⟨hm.done, hm.frames⟩ hrecord ⟨tag, hstands⟩ hfits hinside
  rcases hrest with ⟨n, rfl⟩ | ⟨endSpan, more, rfl⟩
  · obtain ⟨m', hm', h⟩ := readAll_cons_ok h
    refine ⟨m', _, ?_, h⟩
    obtain rfl := Except.ok.inj hm'
    exact grown_closeFrames m.opened n (hclosed (·.closedAt n) fun _ => rfl)
  · obtain ⟨m', hm', h⟩ := readAll_cons_ok h
    refine ⟨m', _, ?_, h⟩
    have hkeys : (⟨m.done, ⟨e, textForest cs⟩ :: m.opened⟩ : Draft).keys = keyOf e :: m.keys := rfl
    have htag : tag.name = name := (toLower_of_stands hstands).symm.trans hname
    rw [Draft.read, hkeys, ← htag, endTag_of_stands hstands hvoid, foldlM_singleton] at hm'
    obtain rfl := Except.ok.inj hm'
    exact hclosed (·.closedBy endSpan) fun _ => rfl

/-- **Every text keeps the draft grown.** -/
theorem grown_readAll {ts : List Token} (hd : d.Grown) (hvalid : ∀ t ∈ ts, t.Valid) (hfollows : TextFollows ts)
    (h : d.readAll limit offset ts = .ok d') : d'.Grown := by
  -- an element that holds only text is taken with its text in one go, so the induction is on the number of tokens
  induction hn : ts.length using Nat.strongRecOn generalizing ts d offset with
  | ind n ih =>
    have hsuffix : ∀ {before after : List Token}, ts = before ++ after → TextFollows after := by
      intro before after hts before' name attributes span after' hafter
      refine hfollows (before ++ before') name attributes span after' ?_
      rw [hts, hafter, List.append_assoc]
    cases ts with
    | nil =>
      obtain rfl := Except.ok.inj h
      exact hd
    | cons token rest =>
      by_cases hstart : ∃ name attributes span, token = .startTag name false attributes span ∧
          (Content.ofElement name).endsOwn = true
      · obtain ⟨name, attributes, span, rfl, hends⟩ := hstart
        obtain ⟨cs, more, rfl, hmore, hraw⟩ := hfollows [] name attributes span rest rfl hends
        obtain ⟨hname, hattributes, hdistinct⟩ := hvalid _ List.mem_cons_self
        obtain ⟨m, offset', hm, h⟩ := grown_text hd ⟨hname, hattributes, hdistinct⟩ hends hraw hmore h
        have htail : ∃ before, (Token.startTag name false attributes span :: (cs.map .character ++ more))
            = before ++ more.tail := by
          rcases hmore with ⟨k, rfl⟩ | ⟨endSpan, after, rfl⟩
          · exact ⟨_, (List.append_nil _).symm⟩
          · refine ⟨.startTag name false attributes span :: (cs.map .character ++ [.endTag name endSpan]), ?_⟩
            rw [List.cons_append, List.append_assoc]
            rfl
        obtain ⟨before, hbefore⟩ := htail
        refine ih more.tail.length ?_ hm (fun t ht => hvalid t ?_) (hsuffix hbefore) h rfl
        · rw [← hn, List.length_cons, List.length_append, List.length_tail]
          omega
        · rw [hbefore]
          exact List.mem_append_right _ ht
      · obtain ⟨m, hm, h⟩ := readAll_cons_ok h
        refine ih rest.length ?_ (grown_read hd (hvalid _ List.mem_cons_self) ?_ hm)
          (fun t ht => hvalid t (List.mem_cons_of_mem _ ht)) (hsuffix (List.singleton_append (l := rest)).symm) h rfl
        · rw [← hn, List.length_cons]
          exact Nat.lt_succ_self _
        · intro name attributes span htoken
          exact Bool.eq_false_iff.2 fun hends => hstart ⟨name, attributes, span, htoken, hends⟩

end Token

/-- **Every text grows into a forest whose elements stand where their tags put them.** -/
theorem grown_of_text {text : String} {f : Forest} (h : forestOf text = .ok f) : f.Grown [] := by
  obtain ⟨d, hd, rfl⟩ := readAll_of_grow h
  have hstart : Draft.start.Grown := ⟨trivial, trivial⟩
  exact (grown_readAll hstart (fun t ht => valid_tokenize ht) (textFollows_tokenize text) hd).done

end LiveMarkup.Html
