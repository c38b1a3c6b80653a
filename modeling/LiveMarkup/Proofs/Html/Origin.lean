/-
The tag that adds an element.

The element that stands at a tag was added when that tag was read: it is what the rules of markup make of
the tag among the elements that were open then (`inserted_of_text`).
-/
import LiveMarkup.Proofs.Html.Reading

set_option autoImplicit false

namespace LiveMarkup.Html

open Plan

/-- What a token does to the open elements. -/
def actionsOf (opened : List Key) : Token → List Action
  | .startTag name selfClosing attributes span =>
    ((start opened).startTag ⟨name, selfClosing, attributes, span⟩).actions
  | .endTag name span => ((start opened).endTag name span).actions
  | _ => []

theorem read_of_isTag {token : Token} (h : token.isTag = true) (limit offset : Nat) (d : Draft) :
    d.read limit offset token = (actionsOf d.keys token).foldlM (Draft.perform limit offset) d := by
  cases token <;> first | rfl | exact absurd h Bool.false_ne_true

/-- What a token adds is an element of its tag, or one that the text leaves out. -/
theorem own_of_insert {token : Token} {opened : List Key} {e : Element} {stays : Bool}
    (h : .insert e stays ∈ actionsOf opened token) :
    (∃ name ∈ leftOutNames, e = .ofName name) ∨ ∃ tag, Opens token tag ∧ Own tag e := by
  cases token with
  | startTag name selfClosing attributes span =>
    rcases insert_startTag h with himplied | hown
    · exact .inl himplied
    · exact .inr ⟨_, .startTag .., hown⟩
  | endTag name span =>
    rcases insert_endTag h with himplied | ⟨rfl, hown⟩
    · exact .inl himplied
    · exact .inr ⟨_, .lineBreak span, hown⟩
  | _ => exact absurd h List.not_mem_nil

theorem reopened_of_own {tag : StartTag} {e : Element} (h : Own tag e) : reopened e = e := by
  cases h <;> rfl

section Each

variable {P : Element → Prop} {limit offset : Nat}

/-- Actions keep a property of all elements that the elements that they add have. -/
theorem each_foldlM {actions : List Action} (hinsert : ∀ e stays, .insert e stays ∈ actions → P e)
    (hrelocate : ∀ record : Location → Location,
      (∀ l, (record l).startTag = l.startTag ∧ (record l).selfClosing = l.selfClosing) →
      ∀ e, P e → P (relocate record e))
    {d d' : Draft} (hd : d.Each P) (h : actions.foldlM (Draft.perform limit offset) d = .ok d') : d'.Each P := by
  induction actions generalizing d with
  | nil =>
    obtain rfl := Except.ok.inj h
    exact hd
  | cons a actions ih =>
    obtain ⟨m, hm, h⟩ := foldlM_cons_ok h
    refine ih (fun e stays he => hinsert e stays (List.mem_cons_of_mem _ he)) ?_ h
    cases a with
    | note deviation => exact Except.ok.inj hm ▸ hd
    | close => exact Except.ok.inj hm ▸ each_close hd fun e _ => hrelocate (·.closedAt offset) (fun _ => ⟨rfl, rfl⟩) e
    | closeBy endTag => exact Except.ok.inj hm ▸ each_close hd fun e _ => hrelocate (·.closedBy endTag) (fun _ => ⟨rfl, rfl⟩) e
    | insert e stays => exact each_insert hd (hinsert e stays List.mem_cons_self) hm

end Each

/-! ## Another tag in the place of one -/

/-- A start tag that does the same in the place of a token, up to notes: the tag itself, the tag of the
picture that a misspelled tag asks for, or that of the line break that a stray end tag asks for. -/
inductive Replaces : StartTag → Token → Prop
  | self (tag : StartTag) : Replaces tag (.startTag tag.name tag.selfClosing tag.attributes tag.span)
  | image (selfClosing : Bool) (attributes : List Attribute) (span : Span) :
      Replaces ⟨"img", selfClosing, attributes, span⟩ (.startTag "image" selfClosing attributes span)
  | lineBreak (span : Span) : Replaces ⟨"br", false, [], span⟩ (.endTag "br" span)

theorem startHtml_img (p : Plan) (selfClosing : Bool) (attributes : List Attribute) (span : Span) :
    p.startHtml ⟨"img", selfClosing, attributes, span⟩ = p.insertHtml ⟨"img", selfClosing, attributes, span⟩ := by
  simp [startHtml, ignoredStartNames, blockStartNames, headings, tablePartNames]

theorem startHtml_br (p : Plan) (span : Span) :
    p.startHtml ⟨"br", false, [], span⟩ = p.insertHtml ⟨"br", false, [], span⟩ := by
  simp [startHtml, ignoredStartNames, blockStartNames, headings, tablePartNames]

/-- A misspelled picture is one of HTML, or an element of another language. -/
theorem startTag_image (opened : List Key) (selfClosing : Bool) (attributes : List Attribute) (span : Span) :
    let tag : StartTag := ⟨"image", selfClosing, attributes, span⟩
    ((start opened).startTag tag).actions
        = [.note .imageAsImg] ++ ((start opened).startTag { tag with name := "img" }).actions ∨
      ((start opened).startTag tag).actions = [.insert (foreignElement (start opened).currentSpace tag) !selfClosing] := by
  intro tag
  unfold startTag
  split
  · exact .inr rfl
  · left
    rw [startHtml_image rfl, startHtml_img]
    rfl

/-- A stray end tag of a line break does what the start tag does. -/
theorem endTag_br (opened : List Key) (span : Span) :
    ((start opened).endHtml "br" span).actions
      = [.note .breakEndTag] ++ ((start opened).startTag ⟨"br", false, [], span⟩).actions := by
  have hbreaks : breaksOut "br" [] = true := rfl
  have hend : (start opened).endHtml "br" span
      = ((start opened).note .breakEndTag).startTag ⟨"br", false, [], span⟩ := by
    simp [endHtml, ignoredEndNames]
  have hforeign : ((start opened).note .breakEndTag).inForeign = (start opened).inForeign := rfl
  rw [hend, startTag, startTag, hforeign, startHtml_br, startHtml_br, startHtml_br, startHtml_br]
  simp only [hbreaks, if_true]
  split <;> rfl

/-- Closing elements by an end tag adds left-out elements at most. -/
theorem insert_closeThrough {opened : List Key} {f : Key → Bool} {span : Span} {e : Element} {stays : Bool}
    (h : .insert e stays ∈ ((start opened).closeThrough f (some span)).actions) :
    ∃ name ∈ leftOutNames, e = .ofName name := by
  unfold closeThrough at h
  have hclosed := soft_popWhile (soft_start opened) fun k => !f k
  dsimp only at h
  split at h
  · exact insert_soft (hclosed.actions _ h)
  · rcases List.mem_append.1 h with h | h
    · exact insert_soft (hclosed.actions _ h)
    · exact absurd (List.mem_singleton.1 h) nofun
  · exact absurd ‹some _ = none› (Option.some_ne_none _)

/-- **The tag of an element can be replaced by a start tag of the element.** -/
theorem replaced_of_insert {token : Token} {opened : List Key} {e : Element} {l : Location} {stays : Bool}
    (h : .insert e stays ∈ actionsOf opened token) (hl : e.location = some l) :
    ∃ tag notes, Replaces tag token ∧ Own tag e ∧ e.name = spellName e.space tag.name ∧
      (∀ a ∈ notes, ∃ deviation, a = .note deviation) ∧
      actionsOf opened token = notes ++ ((start opened).startTag tag).actions := by
  have hnone : ∀ a ∈ ([] : List Action), ∃ deviation, a = .note deviation := fun _ ha => absurd ha List.not_mem_nil
  -- an element that has a location is not one that the text leaves out
  cases token with
  | startTag name selfClosing attributes span =>
    rcases insert_startTag h with ⟨name, -, rfl⟩ | hown
    · exact absurd hl nofun
    · cases hown with
      | html => exact ⟨_, [], .self ⟨name, selfClosing, attributes, span⟩, .html, rfl, hnone, rfl⟩
      | foreign space => exact ⟨_, [], .self ⟨name, selfClosing, attributes, span⟩, .foreign space, rfl, hnone, rfl⟩
      | image hname =>
        obtain rfl : name = "image" := hname
        rcases startTag_image opened selfClosing attributes span with hactions | hactions
        · refine ⟨_, _, .image selfClosing attributes span, .html, rfl, ?_, hactions⟩
          intro a ha
          exact ⟨_, List.mem_singleton.1 ha⟩
        · -- in another language the tag keeps its name
          change _ ∈ ((start opened).startTag ⟨"image", selfClosing, attributes, span⟩).actions at h
          rw [hactions] at h
          have hname : "img" = spellName (start opened).currentSpace "image" :=
            congrArg Element.name (Action.insert.inj (List.mem_singleton.1 h)).1
          generalize (start opened).currentSpace = space at hname
          cases space <;> exact absurd hname (by decide)
  | endTag name span =>
    rcases insert_endTag h with ⟨name, -, rfl⟩ | ⟨rfl, hown⟩
    · exact absurd hl nofun
    · have hname : e.name = spellName e.space "br" := by
        cases hown with
        | html => rfl
        | foreign space => rfl
        | image himage =>
          have himage : "br" = "image" := himage
          exact absurd himage (by decide)
      refine ⟨_, [.note .breakEndTag], .lineBreak span, hown, hname, ?_, ?_⟩
      · intro a ha
        exact ⟨_, List.mem_singleton.1 ha⟩
      · rw [← endTag_br]
        change .insert e stays ∈ ((start opened).endTag "br" span).actions at h
        change ((start opened).endTag "br" span).actions = _
        revert h
        unfold endTag
        split
        · exact fun _ => rfl
        · split
          · split
            · exact fun _ => rfl
            · intro h
              obtain ⟨name, -, rfl⟩ := insert_closeThrough h
              exact absurd hl nofun
          · intro h
            exact absurd (List.mem_singleton.1 h) nofun
  | _ => exact absurd h List.not_mem_nil

theorem laid_le {lo : Nat} {ts : List Token} (h : Lexer.Laid lo ts) {t : Token} (ht : t ∈ ts) {span : Span}
    (hspan : t.span? = some span) : lo ≤ span.start := by
  induction ts generalizing lo with
  | nil => exact absurd ht List.not_mem_nil
  | cons token ts ih =>
    rw [Lexer.Laid] at h
    rcases List.mem_cons.1 ht with rfl | ht
    · rw [hspan] at h
      exact h.1
    · cases hs : token.span? with
      | none =>
        rw [hs] at h
        exact ih h ht
      | some s =>
        rw [hs] at h
        obtain ⟨hlo, hle, -, hrest⟩ := h
        exact Nat.le_trans hlo (Nat.le_trans hle (ih hrest ht))

/-- The elements of a draft start before the place up to which the text was read. -/
theorem invariant_startsBefore (limit : Nat) (tokens : List Token) :
    Invariant limit tokens fun pos d => d.Each fun e => ∀ l, e.location = some l → l.startTag.start < pos := by
  have kept : ∀ {pos} (record : Location → Location), (∀ l, (record l).startTag = l.startTag) → ∀ e : Element,
      (∀ l, e.location = some l → l.startTag.start < pos) →
      ∀ l, (relocate record e).location = some l → l.startTag.start < pos := by
    intro pos record hrecord e he l hl
    obtain ⟨l', hl', rfl⟩ := Option.map_eq_some_iff.1 hl
    rw [hrecord]
    exact he l' hl'
  have mono : ∀ {pos pos' : Nat} {d : Draft}, pos ≤ pos' →
      d.Each (fun e => ∀ l, e.location = some l → l.startTag.start < pos) →
      d.Each fun e => ∀ l, e.location = some l → l.startTag.start < pos' := by
    intro pos pos' d hle hd
    refine ⟨?_, ?_, ?_⟩
    · exact fun e he l hl => Nat.lt_of_lt_of_le (hd.done e he l hl) hle
    · exact fun f hf l hl => Nat.lt_of_lt_of_le (hd.opened f hf l hl) hle
    · exact fun f hf e he l hl => Nat.lt_of_lt_of_le (hd.inside f hf e he l hl) hle
  -- only a tag adds a located element, and it starts before the place where the tag ends
  refine ⟨mono, fun c hd => ?_, fun data hd => ?_, fun _ ha hd h => ?_, ?_, ?_⟩
  · exact each_mapCurrent hd fun f hf e he => hf e (Forest.elements_pushChar f c ▸ he)
  · exact each_add hd fun e he => absurd he List.not_mem_nil
  · cases ha with
    | note => exact Except.ok.inj h ▸ hd
    | close => exact Except.ok.inj h ▸ each_close hd fun e _ => kept (·.closedAt _) (fun _ => rfl) e
    | implied name => exact each_insert hd (fun l hl => absurd hl.symm (Option.some_ne_none _)) h
  · intro token tag e stays d d' _ _ he hlt hd h
    refine each_insert (mono (Nat.le_of_lt hlt) hd) ?_ h
    intro l hl
    obtain rfl := Option.some.inj ((location_of_own he).symm.trans hl)
    exact hlt
  · intro name span d d' _ hlt _ hd h
    exact Except.ok.inj h ▸ each_close (mono (Nat.le_of_lt hlt) hd) fun e _ => kept (·.closedBy span) (fun _ => rfl) e

/-- **An element was added when the tag was read that it stands at.** -/
theorem inserted_of_text {text : String} {f : Forest} (hf : forestOf text = .ok f) {e : Element}
    (he : e ∈ f.elements) {l : Location} (hl : e.location = some l) {before after : List Token} {token : Token}
    (htokens : tokenize text = before ++ token :: after) (htag : token.isTag = true)
    (hspan : token.span? = some l.startTag) {d : Draft}
    (hd : Draft.start.readAll maxOpenElements 0 before = .ok d) :
    ∃ stays, .insert (reopened e) stays ∈ actionsOf d.keys token := by
  -- an element that starts at the tag is what the tag added
  let P (x : Element) : Prop := ∀ lx, x.location = some lx → lx.startTag.start = l.startTag.start →
    ∃ stays, .insert (reopened x) stays ∈ actionsOf d.keys token
  have hrelocate : ∀ record : Location → Location,
      (∀ l, (record l).startTag = l.startTag ∧ (record l).selfClosing = l.selfClosing) →
      ∀ x, P x → P (relocate record x) := by
    intro record hrecord x hx lx hlx hstart
    obtain ⟨lx', hlx', rfl⟩ := Option.map_eq_some_iff.1 hlx
    rw [reopened_relocate hrecord]
    refine hx lx' hlx' ?_
    rw [← hstart, (hrecord lx').1]
  have hlaid := laid_tokenize text
  rw [htokens, laid_append, Lexer.Laid, hspan] at hlaid
  obtain ⟨hbefore, hstart, -, hlt, hafter⟩ := hlaid
  have hlt : l.startTag.start < l.startTag.stop := hlt (by cases token <;> first | rfl | exact absurd htag Bool.false_ne_true)
  obtain ⟨r, hr, rfl⟩ := readAll_of_grow hf
  rw [htokens, Draft.readAll_append, hd] at hr
  change (d.readAll maxOpenElements _ (token :: after)) = .ok r at hr
  rw [Draft.readAll] at hr
  cases hm : d.read maxOpenElements (offsetAt (before.foldl offsetAt 0) token) token with
  | error x =>
    rw [hm] at hr
    cases hr
  | ok m =>
    rw [hm] at hr
    have hdP : d.Each P := by
      have hstarts := invariant_readAll (invariant_startsBefore maxOpenElements before) (fun t ht => ht) hbefore
        each_start hd
      refine ⟨?_, ?_, ?_⟩
      · intro x hx lx hlx heq
        have := hstarts.done x hx lx hlx
        omega
      · intro fr hfr lx hlx heq
        have := hstarts.opened fr hfr lx hlx
        omega
      · intro fr hfr x hx lx hlx heq
        have := hstarts.inside fr hfr x hx lx hlx
        omega
    have hmP : m.Each P := by
      rw [read_of_isTag htag] at hm
      refine each_foldlM ?_ hrelocate hdP hm
      intro x stays hx lx hlx _
      rcases own_of_insert hx with ⟨name, -, rfl⟩ | ⟨tag, -, hown⟩
      · cases hlx
      · rw [reopened_of_own hown]
        exact ⟨stays, hx⟩
    have hI : Invariant maxOpenElements after fun _ d => d.Each P := by
      refine invariant_each ?_ ?_ (fun offset _ => hrelocate _ fun _ => ⟨rfl, rfl⟩)
        fun name span _ e _ => hrelocate (·.closedBy span) (fun _ => ⟨rfl, rfl⟩) e
      · exact fun name _ lx hlx => by cases hlx
      · intro token' htoken' tag x hopens hown lx hlx heq
        obtain ⟨hspan', -⟩ := span?_of_opens hopens
        have hle := laid_le hafter htoken' hspan'
        obtain rfl := Option.some.inj ((location_of_own hown).symm.trans hlx)
        change tag.span.start = l.startTag.start at heq
        omega
    exact (invariant_readAll hI (fun t ht => ht) hafter hmP hr).done e he l hl rfl

end LiveMarkup.Html
