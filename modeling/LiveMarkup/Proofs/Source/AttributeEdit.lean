/-
Editing the start tag of an element.

A start tag is written anew with other attributes, the names as the language of the element spells them and
an attribute without a value as its name alone. The lexer reads the tag back with its names in lower case
(`reads_render`). It comes to it in the same state as to the old one and goes on in the same state after it
(`tokenize_tag`), and the builder does the same at the new tag (`like_tag`). So an edit of attributes keeps
every token, moves the bytes that come after the tag, and can be read back (`editAttributes_reads_back`).
-/
import LiveMarkup.Proofs.Html.Lexing.Mode
import LiveMarkup.Proofs.Html.Lexing.Spelling
import LiveMarkup.Proofs.Html.Lexing.Valid
import LiveMarkup.Proofs.Html.Origin
import LiveMarkup.Proofs.Identity.Kept
import LiveMarkup.Proofs.Source.Cut
import LiveMarkup.Source.Edit

set_option autoImplicit false

namespace LiveMarkup.Source

open Html Html.Plan Identity Text

/-! ## A tag that can be written -/

namespace OpeningTag

/-- All attributes in the order in which they are written. -/
def written (tag : OpeningTag) : List Attribute := tag.attributes ++ tag.identity.toList

/-- A tag that is read as it is written. -/
structure Writable (tag : OpeningTag) : Prop where
  name : TagName tag.name.toList
  attributes : ∀ a ∈ tag.written, Html.Writable a
  distinct : (tag.written.map fun a => a.name.toLower).Nodup

end OpeningTag

theorem toList_render (tag : OpeningTag) :
    tag.render.toList = '<' :: (tag.name.toList
      ++ (tag.written.flatMap fun a => (OpeningTag.renderAttribute a).toList) ++ Lexer.tagEnd tag.selfClosing) := by
  unfold OpeningTag.render Lexer.tagEnd
  rw [String.toList_append, String.toList_append, String.toList_append, String.toList_join, List.flatMap_map]
  cases tag.selfClosing <;> rfl

/-- An attribute that is written is read; one without a value is written as its name. -/
theorem passes_renderAttribute {ls : Option String} {draft : TagDraft} {s : State} (hs : Lexer.Ready draft s)
    {a : Attribute} (h : Html.Writable a) :
    ∃ s', Lexer.Ready (draft.add (Lexer.lowered a)) s' ∧
      Lexer.Passes ls s (OpeningTag.renderAttribute a).toList s' := by
  by_cases hempty : a.value.isEmpty = true
  · refine ⟨_, .attributeName, ?_⟩
    have hwrite : (OpeningTag.renderAttribute a).toList = ' ' :: a.name.toList := by
      rw [OpeningTag.renderAttribute, if_pos hempty]
      simp
    have hvalue : a.value = "" := by
      rw [String.isEmpty_iff] at hempty
      exact hempty
    rw [hwrite, Lexer.lowered_eq, hvalue]
    exact Lexer.passes_attributeName hs h.name fun _ => h.equals
  · refine ⟨_, .afterQuotedValue, ?_⟩
    have hwrite : OpeningTag.renderAttribute a = writeAttribute a := by
      rw [OpeningTag.renderAttribute, if_neg hempty, writeAttribute]
      simp only [String.append_assoc]
    rw [hwrite]
    refine Lexer.passes_quoted hs h.name (fun _ => h.equals) ?_
    rintro d hd rfl
    exact h.value hd

/-- **A start tag that is written anew is read as the tag, with its names in lower case.** -/
theorem reads_render {tag : OpeningTag} (h : tag.Writable) (ls : Option String) (rest : List Char) (offset : Nat) :
    Lexer.Reads ⟨tag.render.toList ++ rest, offset, ls, .text .markup⟩
      [.startTag tag.name.toLower tag.selfClosing (tag.written.map Lexer.lowered)
        ⟨offset, offset + byteLength tag.render.toList⟩]
      ⟨rest, offset + byteLength tag.render.toList, some tag.name.toLower,
        .text (if tag.selfClosing then .markup else Content.ofElement tag.name.toLower)⟩ := by
  have hdistinct : ((tag.written.map Lexer.lowered).map (·.name)).Nodup := by
    rw [List.map_map]
    exact h.distinct
  have hreads := @Lexer.reads_startTag ls Lexer.Ready (fun _ _ hs => hs) (fun _ => .tagName) _ h.name
    OpeningTag.renderAttribute tag.written (fun a ha _ _ hs => passes_renderAttribute hs (h.attributes a ha))
    hdistinct tag.selfClosing rest offset
  rw [toList_render, toLower_eq]
  exact hreads

/-! ## A tag in the place of another -/

/-- A tag in the place of a token has a name and attributes that the lexer reads. -/
theorem valid_of_replaces {tag : StartTag} {token : Token} (h : Replaces tag token) (hv : token.Valid) :
    LowerTag tag.name ∧ (∀ a ∈ tag.attributes, LowerAttribute a) := by
  have himg : LowerTag "img" := lowerTag_of_letters (by decide) (List.all_iff_forall_prop.1 rfl)
  have hbr : LowerTag "br" := lowerTag_of_letters (by decide) (List.all_iff_forall_prop.1 rfl)
  cases h with
  | self => exact ⟨hv.1, hv.2.1⟩
  | image selfClosing attributes span => exact ⟨himg, hv.2.1⟩
  | lineBreak span => exact ⟨hbr, fun a ha => absurd ha List.not_mem_nil⟩

theorem isTag_of_replaces {tag : StartTag} {token : Token} (h : Replaces tag token) : token.isTag = true := by
  cases h <;> rfl

section Occurs

variable {source : String} {before : List Token} {token : Token} {m k n : Lexer} {tag : StartTag}

/-- The lexer comes in markup to a tag that can be replaced. -/
theorem markup_of_replaces (hocc : Lexer.Occurs (.start source.toList) before token m k n)
    (h : Replaces tag token) : m.state = .text .markup := by
  have hcontent : m.state.content = .markup := by
    by_contra hc
    obtain ⟨name, span, rfl, hname⟩ := Lexer.endTag_of_raw (.inl rfl) hocc (isTag_of_replaces h) hc
    cases h with
    | lineBreak => exact hc hname.symm
  rw [hocc.begins.1, hcontent]

/-- The lexer goes on after a tag as after the tag in its place. -/
theorem content_of_replaces (hocc : Lexer.Occurs (.start source.toList) before token m k n)
    (h : Replaces tag token) :
    n.state = .text (if tag.selfClosing then .markup else Content.ofElement tag.name) ∧
      (n.lastStart = some tag.name ∨ n.state.content = .markup) := by
  rw [hocc.state]
  cases h with
  | self =>
    obtain ⟨hlast, hcontent⟩ := hocc.content _ _ _ _ rfl
    exact ⟨congrArg State.text hcontent, .inl hlast⟩
  | image selfClosing attributes span =>
    obtain ⟨-, hcontent⟩ := hocc.content _ _ _ _ rfl
    have himage : (if selfClosing then Content.markup else Content.ofElement "image") = .markup := by
      cases selfClosing <;> rfl
    have himg : (if selfClosing then Content.markup else Content.ofElement "img") = .markup := by
      cases selfClosing <;> rfl
    rw [himage] at hcontent
    exact ⟨by rw [hcontent, himg], .inr hcontent⟩
  | lineBreak span =>
    have hcontent := hocc.closing _ _ rfl
    exact ⟨by rw [hcontent]; rfl, .inr hcontent⟩

/-- The source is cut before and after a tag. -/
theorem cut_of_occurs (hocc : Lexer.Occurs (.start source.toList) before token m k n) :
    ∃ head middle, Cut source ⟨m.offset, n.offset⟩ head middle n.rest ∧ m.rest = middle ++ n.rest := by
  obtain ⟨head, hwhole, hoffset⟩ := reads_start hocc.reads
  obtain ⟨middle, hrest, hlength⟩ := (hocc.inside.trans (.one hocc.next hocc.reports)).moves
  refine ⟨head, middle, ⟨?_, ?_, ?_⟩, hrest⟩
  · rw [hwhole, hrest]
  · exact hoffset.symm
  · rw [hlength, hoffset]

/-- **A start tag that is written in the place of a tag is read there, and the tokens after it only
move.** -/
theorem tokenize_tag (hocc : Lexer.Occurs (.start source.toList) before token m k n) (h : Replaces tag token)
    {head middle : List Char} (hcut : Cut source ⟨m.offset, n.offset⟩ head middle n.rest)
    {new : OpeningTag} (hnew : new.Writable) (hname : new.name.toLower = tag.name)
    (hsc : new.selfClosing = tag.selfClosing) :
    ∃ after : List Token,
      tokenize source = before ++ ([token] ++ after.map (.shift n.offset)) ∧
      tokenize (String.ofList (head ++ (new.render.toList ++ n.rest))) =
        before ++ ([.startTag tag.name tag.selfClosing (new.written.map Lexer.lowered)
          ⟨m.offset, m.offset + byteLength new.render.toList⟩] ++
          after.map (.shift (m.offset + byteLength new.render.toList))) := by
  obtain ⟨hstate, hlast⟩ := content_of_replaces hocc h
  -- what follows the tag is read as if it stood alone
  let alone : Lexer := ⟨n.rest, 0, n.lastStart, n.state⟩
  have hshift : ∀ offset, (⟨n.rest, offset, n.lastStart, n.state⟩ : Lexer) = Lexer.shift offset alone := by
    intro offset
    rw [Lexer.shift, Nat.zero_add, hstate]
    rfl
  refine ⟨alone.tokens, ?_, ?_⟩
  · have hreads := hocc.reads.trans (hocc.inside.trans (.one hocc.next hocc.reports))
    rw [tokenize_eq, Lexer.tokens_of_reads hreads, List.nil_append, List.append_assoc, ← Lexer.tokens_shift,
      ← hshift]
  · obtain ⟨rest, hrest⟩ := List.head?_eq_some_iff.1 hocc.begins.2
    obtain ⟨upTo, hwhole, hoffset⟩ := reads_start hocc.reads
    have hhead : head = upTo := by
      refine (append_inj_of_byteLength (hcut.whole.symm.trans hwhole) ?_).1
      exact hcut.start.trans hoffset
    subst hhead
    have hopen : new.render.toList ++ n.rest = '<' :: (new.render.toList.tail ++ n.rest) := by
      rw [toList_render]
      rfl
    rw [hrest] at hwhole
    have hbefore := hocc.reads.replace (new.render.toList.tail ++ n.rest) (.inl rfl) hwhole hrest
    have hreads := reads_render hnew m.lastStart n.rest m.offset
    rw [hname, hsc, ← hstate] at hreads
    rw [← hopen, markup_of_replaces hocc h] at hbefore
    have hafter : (⟨n.rest, m.offset + byteLength new.render.toList, some tag.name, n.state⟩ : Lexer).tokens
        = alone.tokens.map (.shift (m.offset + byteLength new.render.toList)) := by
      rw [← Lexer.tokens_shift, ← hshift]
      rcases hlast with hlast | hmarkup
      · rw [hlast]
      · -- in markup the name of the last start tag does not matter
        have hin : Lexer.InMarkup n.state := ⟨hmarkup, by rw [hstate]; rfl⟩
        exact @Lexer.tokens_relast ⟨n.rest, m.offset + byteLength new.render.toList, n.lastStart, n.state⟩
          (some tag.name) hin
    rw [tokenize_eq, String.toList_ofList, ← hafter]
    exact Lexer.tokens_of_reads (hbefore.trans hreads) |>.trans (by rw [List.append_assoc])

end Occurs

/-! ## Attributes that were written and read -/

/-- An attribute as an element has it after the attribute was written and read. -/
def rewritten (space : Namespace) (a : Attribute) : Attribute := spellAttribute space (Lexer.lowered a)

theorem value_rewritten (space : Namespace) (a : Attribute) : (rewritten space a).value = a.value :=
  value_spellAttribute space _

/-- Writing and reading a name changes its case only. -/
theorem eqIgnoreCase_rewritten (space : Namespace) (a : Attribute) (name : String) :
    eqIgnoreCase (rewritten space a).name name = eqIgnoreCase a.name name := by
  have hlower : (rewritten space a).name.toLower = a.name.toLower :=
    (lower_spellAttribute space _).trans (toLower_idem a.name)
  rw [Bool.eq_iff_iff, eqIgnoreCase_iff, eqIgnoreCase_iff, hlower]

/-- What an element has is read as it is. -/
theorem rewritten_spellAttribute (space : Namespace) {a : Attribute} (h : LowerAttribute a) :
    rewritten space (spellAttribute space a) = spellAttribute space a := by
  rw [rewritten, lowered_spellAttribute space h]

section Parts

variable {key : String} {tag : OpeningTag} (space : Namespace)

/-- The attributes of a written tag without that of the identity. -/
theorem filter_rewritten (hkept : ∀ a ∈ tag.attributes, eqIgnoreCase a.name key = false)
    (hidentity : ∀ a ∈ tag.identity, eqIgnoreCase a.name key = true) :
    (tag.written.map (rewritten space)).filter (fun a => !eqIgnoreCase a.name key)
      = tag.attributes.map (rewritten space) := by
  have hlast : tag.identity.toList.filter (fun a => !eqIgnoreCase a.name key) = [] := by
    refine List.filter_eq_nil_iff.2 fun a ha => ?_
    rw [hidentity a (Option.mem_toList.1 ha)]
    exact Bool.false_ne_true
  have hfirst : tag.attributes.filter (fun a => !eqIgnoreCase a.name key) = tag.attributes := by
    refine List.filter_eq_self.2 fun a ha => ?_
    rw [hkept a ha]
    rfl
  rw [List.filter_map, Function.comp_def]
  simp only [eqIgnoreCase_rewritten]
  rw [OpeningTag.written, List.filter_append, hfirst, hlast, List.append_nil]

/-- The attribute of the identity of a written tag. -/
theorem find?_rewritten (hkept : ∀ a ∈ tag.attributes, eqIgnoreCase a.name key = false)
    (hidentity : ∀ a ∈ tag.identity, eqIgnoreCase a.name key = true ∧ rewritten space a = a) :
    (tag.written.map (rewritten space)).find? (fun a => eqIgnoreCase a.name key) = tag.identity := by
  have hfirst : tag.attributes.find? (fun a => eqIgnoreCase a.name key) = none := by
    refine List.find?_eq_none.2 fun a ha => ?_
    rw [hkept a ha]
    exact Bool.false_ne_true
  rw [List.find?_map, Function.comp_def]
  simp only [eqIgnoreCase_rewritten]
  rw [OpeningTag.written, List.find?_append, hfirst, Option.none_or]
  cases hid : tag.identity with
  | none => rfl
  | some a =>
    obtain ⟨hkey, hsame⟩ := hidentity a hid
    rw [Option.toList_some, List.find?_singleton, if_pos hkey, Option.map_some, hsame]

end Parts

/-! ## The change that an edit of a tag is -/

/-- Another tag of a length in the place of a span, which gives the element that starts there attributes. -/
def tagChange (r : Span) (length : Nat) (attributes : Namespace → List Attribute) : Change :=
  ⟨r.start, r.stop, r.start + length, fun e =>
    if e.location.any (fun l => l.startTag.start == r.start) then attributes e.space else e.attributes⟩

variable {r : Span} {length : Nat} {attributes : Namespace → List Attribute}

theorem attributes_tagChange {e : Element} {l : Location} (hl : e.location = some l)
    (hstart : l.startTag.start = r.start) :
    (tagChange r length attributes).attributes e = attributes e.space := by
  have hat : e.location.any (fun l => l.startTag.start == r.start) = true := by
    rw [hl, Option.any_some, hstart, beq_self_eq_true]
  exact if_pos hat

theorem attributes_tagChange_other {e : Element}
    (h : ∀ l, e.location = some l → l.startTag.start ≠ r.start) :
    (tagChange r length attributes).attributes e = e.attributes := by
  refine if_neg fun hat => ?_
  obtain ⟨l, hl, hstart⟩ := (Option.any_eq_true _ _).1 hat
  exact h l hl (beq_iff_eq.1 hstart)

theorem sound_tagChange (hr : r.start < r.stop) : (tagChange r length attributes).Sound where
  le := Nat.le_of_lt hr
  le' := Nat.le_add_right _ _
  implied e he := attributes_tagChange_other fun l hl => absurd (he.symm.trans hl) nofun
  outside e l hl h := by
    refine attributes_tagChange_other fun l' hl' => ?_
    obtain rfl := Option.some.inj (hl.symm.trans hl')
    change l.startTag.start < r.start ∨ r.stop ≤ l.startTag.start at h
    omega
  relocate record e hrecord := by
    unfold tagChange relocate
    simp only [Option.any_map, hrecord]

/-- The start tag of the element is the one that was written. -/
theorem startTag_like {l l' : Location} (hr : r.start < r.stop)
    (h : (tagChange r length attributes).MovedLocation l l') (hl : l.startTag = r) :
    l'.startTag = ⟨r.start, r.start + length⟩ := by
  have htag := h.startTag
  generalize l.startTag = tag at htag hl
  generalize l'.startTag = tag' at htag
  cases htag with
  | before hlo hhi =>
    change tag.stop ≤ r.start at hhi
    rw [hl] at hhi
    omega
  | edited => rfl
  | after s =>
    have hstart : s.start + r.stop = r.start := congrArg Span.start hl
    omega

/-- **The builder does the same at a tag that was written anew.** -/
theorem like_tag {c : Change} (hc : c.Sound) {limit offset : Nat} {token : Token} {tag : StartTag} (tag' : StartTag)
    {notes : List Action} {d r : Draft} (htoken : token.isTag = true) (hspan : token.span? = some tag.span)
    (hactions : actionsOf d.keys token = notes ++ ((start d.keys).startTag tag).actions)
    (hnotes : ∀ a ∈ notes, ∃ deviation, a = .note deviation) (hname : tag'.name = tag.name)
    (hsc : tag'.selfClosing = tag.selfClosing) (hfont : tag.name ≠ "font") (hmoved : c.MovedTag tag.span tag'.span)
    (hattr : ∀ e, Own tag e → c.attributes e = spellAttributes e.space tag'.attributes)
    (hd : c.LikeDraft d d) (h : d.readAll limit offset [token] = .ok r) :
    ∃ r', d.readAll limit offset [.startTag tag'.name tag'.selfClosing tag'.attributes tag'.span] = .ok r' ∧
      c.LikeDraft r r' := by
  -- only the attributes of one name matter to the rules
  have hbreaks : breaksOut tag'.name tag'.attributes = breaksOut tag.name tag.attributes := by
    rw [breaksOut, breaksOut, hname, beq_eq_false_iff_ne.2 hfont, Bool.false_and, Bool.false_and]
  have hat : offsetAt offset token = tag.span.start := by rw [offsetAt, hspan]
  rw [Draft.readAll, hat, read_of_isTag htoken, hactions, Change.foldlM_notes hnotes] at h
  cases hm : ((start d.keys).startTag tag).actions.foldlM (Draft.perform limit tag.span.start) d with
  | error e =>
    rw [hm] at h
    cases h
  | ok m =>
    rw [hm] at h
    obtain rfl := Except.ok.inj h
    obtain ⟨r', hr', hlike⟩ := Change.like_startTag hc tag tag' hname hsc hbreaks hmoved hattr hd hm
    refine ⟨r', ?_, hlike⟩
    rw [Draft.readAll, read_of_isTag rfl]
    change ((((start d.keys).startTag tag').actions.foldlM (Draft.perform limit tag'.span.start) d).bind fun read =>
      read.readAll limit _ []) = _
    rw [hr']
    rfl

/-- The ends of a source before and after an edit. -/
theorem moved_of_cut {c : Change} {source edited : String} {head head' middle middle' tail : List Char}
    (hcut : Cut source ⟨c.lo, c.hi⟩ head middle tail) (hcut' : Cut edited ⟨c.lo, c.hi'⟩ head' middle' tail) :
    c.Moved source.utf8ByteSize edited.utf8ByteSize := by
  have hend : ∀ {text : String} {r : Span} {head middle : List Char}, Cut text r head middle tail →
      text.utf8ByteSize = byteLength tail + r.stop := by
    intro text r head middle h
    rw [utf8ByteSize_eq, h.whole, byteLength_append, byteLength_append, ← Nat.add_assoc, h.stop]
    exact Nat.add_comm _ _
  exact .inr ⟨byteLength tail, hend hcut, hend hcut'⟩

/-! ## Editing attributes -/

/-- What an edit of attributes does when it is not refused. -/
theorem editAttributes_eq_ok {s : Scheme} {source token edited : String} {new : List Attribute}
    (h : editAttributes s source token new = .ok edited) :
    (∀ a ∈ new, isAttributeName a.name = true) ∧
      ∃ r isVoid tag, openingTag? s source token = some (r, isVoid, tag) ∧
        r.splice? source { tag with attributes := new.filter fun a => !eqIgnoreCase a.name s.key }.render
          = some edited := by
  unfold editAttributes at h
  split at h
  · exact absurd h nofun
  · rename_i hnone
    refine ⟨fun a ha => ?_, ?_⟩
    · have := List.find?_eq_none.1 hnone a ha
      rwa [Bool.not_eq_true, Bool.not_eq_false'] at this
    · dsimp only at h
      split at h
      · rename_i found hfound
        obtain rfl := Except.ok.inj h
        obtain ⟨⟨r, isVoid, tag⟩, htag, hsplice⟩ := Option.bind_eq_some_iff.1 hfound
        exact ⟨r, isVoid, tag, htag, hsplice⟩
      · exact absurd h nofun

/-- The element that a token names, in the forest of the source, when its start tag can be edited. -/
theorem seek?_of_openingTag? {s : Scheme} {source token : String} {x : Span × Bool × OpeningTag}
    (h : openingTag? s source token = some x) :
    ∃ f n, forestOf source = .ok f ∧ seek? s source.utf8ByteSize f token = some n ∧ tagOf? s n = some x := by
  rcases parse_cases source with ⟨e, hp, -⟩ | ⟨t, f, hp, hf, hd⟩
  · unfold openingTag? locate? at h
    rw [hp] at h
    exact absurd h nofun
  · rw [openingTag?_eq hp hd] at h
    obtain ⟨n, hn, h⟩ := Option.bind_eq_some_iff.1 h
    exact ⟨f, n, hf, hn, h⟩

/-- What the lexer and the builder make of a tag. -/
structure Made (tag : StartTag) (e : Element) : Prop where
  name : e.name = spellName e.space tag.name
  attributes : e.attributes = spellAttributes e.space tag.attributes
  lowerName : LowerTag tag.name
  lowerAttributes : ∀ a ∈ tag.attributes, LowerAttribute a

/-- **The lexer comes to the start tag of an element, and the builder adds the element there.** -/
theorem replaced_of_text {source : String} {f : Forest} {e : Element} {l : Location} (hf : forestOf source = .ok f)
    (he : e ∈ f.elements) (hl : e.location = some l) :
    ∃ before token m k n d tag notes, Lexer.Occurs (.start source.toList) before token m k n ∧
      Draft.start.readAll maxOpenElements 0 before = .ok d ∧ Replaces tag token ∧ Made tag e ∧
      tag.span = l.startTag ∧ tag.selfClosing = l.selfClosing ∧
      (∀ a ∈ notes, ∃ deviation, a = .note deviation) ∧
      actionsOf d.keys token = notes ++ ((start d.keys).startTag tag).actions ∧
      m.offset = l.startTag.start ∧ n.offset = l.startTag.stop := by
  obtain ⟨before, token, m, k, n, tag', hocc, htokens, hopens, -, -, -, hstart, hstop⟩ := occurs_startTag hf he hl
  have hspan := hocc.span
  rw [hstart, hstop] at hspan
  obtain ⟨r, hr, -⟩ := readAll_of_grow hf
  rw [htokens] at hr
  obtain ⟨d, hd, -⟩ := Change.readAll_append_ok hr
  obtain ⟨stays, hinsert⟩ := inserted_of_text hf he hl htokens (span?_of_opens hopens).2 hspan hd
  have hlocation : (reopened e).location = some (.opened l.startTag l.selfClosing) := by
    rw [reopened, relocate, hl, Option.map_some]
  obtain ⟨tag, notes, hreplaces, hown, hname, hnotes, hactions⟩ := replaced_of_insert hinsert hlocation
  have htoken : token ∈ tokenize source := by
    rw [htokens]
    exact List.mem_append_right _ List.mem_cons_self
  obtain ⟨hlowerTag, hlower⟩ := valid_of_replaces hreplaces (valid_tokenize htoken)
  obtain ⟨htag, -, -, hsc⟩ := Location.mk.inj (Option.some.inj ((location_of_own hown).symm.trans hlocation))
  have hattributes : e.attributes = spellAttributes e.space tag.attributes := Change.attributes_of_own (e := reopened e) hown
  exact ⟨before, token, m, k, n, d, tag, notes, hocc, hd, hreplaces, ⟨hname, hattributes, hlowerTag, hlower⟩, htag, hsc,
    hnotes, hactions, hstart, hstop⟩

/-- The tag of an element with other attributes. The identity stays. -/
def retag (s : Scheme) (e : Element) (l : Location) (new : List Attribute) : OpeningTag :=
  ⟨e.name, new.filter fun a => !eqIgnoreCase a.name s.key, e.attributes.find? fun a => eqIgnoreCase a.name s.key,
    l.selfClosing⟩

section Retag

variable {s : Scheme} {tag : StartTag} {e : Element} {l : Location} {new : List Attribute}

/-- The identity of an element is one of the attributes that were read for it. -/
theorem identity_of_made (h : Made tag e) {a : Attribute} (ha : a ∈ (retag s e l new).identity) :
    eqIgnoreCase a.name s.key = true ∧ ∃ b, LowerAttribute b ∧ a = spellAttribute e.space b := by
  refine ⟨List.find?_some (p := fun a : Attribute => eqIgnoreCase a.name s.key) ha, ?_⟩
  have hmem := List.mem_of_find?_eq_some ha
  rw [h.attributes, spellAttributes_eq] at hmem
  obtain ⟨b, hb, rfl⟩ := List.mem_map.1 hmem
  exact ⟨b, h.lowerAttributes b hb, rfl⟩

theorem not_identity_of_retag {a : Attribute} (ha : a ∈ (retag s e l new).attributes) :
    eqIgnoreCase a.name s.key = false := by
  have hother := (List.mem_filter.1 ha).2
  rwa [Bool.not_eq_true'] at hother

/-- The tag of an element can be written with other attributes. -/
theorem writable_retag (hs : s.key.toList.head? ≠ some '=') (h : Made tag e)
    (hnames : ∀ a ∈ new, isAttributeName a.name = true) (hvalues : ∀ a ∈ new, '\x00' ∉ a.value.toList)
    (hdistinct : (new.map fun a => a.name.toLower).Nodup) : (retag s e l new).Writable := by
  refine ⟨tagName_of_lower ?_, ?_, ?_⟩
  · rw [← toList_toLower, retag, h.name, lower_spellName, toLower_of_lower h.lowerName.lower]
    exact h.lowerName.chars
  · intro a ha
    rcases List.mem_append.1 ha with ha | ha
    · have hmem := (List.mem_filter.1 ha).1
      exact writable_of_isAttributeName (hnames a hmem) (hvalues a hmem)
    · obtain ⟨hkey, b, hb, rfl⟩ := identity_of_made h (Option.mem_toList.1 ha)
      refine ⟨attributeName_of_lower ?_, head?_ne_of_toLower (eqIgnoreCase_iff.1 hkey) hs, ?_⟩
      · rw [← toList_toLower, lower_spellAttribute, toLower_of_lower hb.lower]
        exact hb.chars
      · rw [value_spellAttribute]
        exact hb.value
  · -- the new attributes differ from each other, and none of them is the identity
    rw [OpeningTag.written, List.map_append, List.nodup_append]
    refine ⟨hdistinct.sublist (List.filter_sublist.map _), ?_, ?_⟩
    · cases (retag s e l new).identity with
      | none => exact List.nodup_nil
      | some a => exact List.nodup_singleton _
    · intro x hx y hy hxy
      obtain ⟨a, ha, rfl⟩ := List.mem_map.1 hx
      obtain ⟨b, hb, rfl⟩ := List.mem_map.1 hy
      obtain ⟨hkey, -⟩ := identity_of_made h (Option.mem_toList.1 hb)
      have hother := not_identity_of_retag ha
      rw [Bool.eq_false_iff] at hother
      exact hother (eqIgnoreCase_iff.2 (hxy.trans (eqIgnoreCase_iff.1 hkey)))

/-- The attributes of an element after its tag was written anew and read. -/
def retagged (s : Scheme) (e : Element) (l : Location) (new : List Attribute) (space : Namespace) : List Attribute :=
  (retag s e l new).written.map (rewritten space)

/-- The attributes that are read besides the identity are those that were written. -/
theorem filter_retagged (h : Made tag e) :
    (retagged s e l new e.space).filter (fun a => !eqIgnoreCase a.name s.key)
      = (new.filter fun a => !eqIgnoreCase a.name s.key).map (rewritten e.space) :=
  filter_rewritten e.space (fun _ ha => not_identity_of_retag ha) fun _ ha => (identity_of_made h ha).1

/-- The identity that is read is the one that was written. -/
theorem find?_retagged (h : Made tag e) :
    (retagged s e l new e.space).find? (fun a => eqIgnoreCase a.name s.key)
      = e.attributes.find? fun a => eqIgnoreCase a.name s.key := by
  refine find?_rewritten e.space (fun _ ha => not_identity_of_retag ha) fun a ha => ?_
  obtain ⟨hkey, b, hb, rfl⟩ := identity_of_made h ha
  exact ⟨hkey, rewritten_spellAttribute _ hb⟩

/-- The change that writing the tag of an element anew is. -/
def retagChange (s : Scheme) (e : Element) (l : Location) (new : List Attribute) : Change :=
  tagChange l.startTag (byteLength (retag s e l new).render.toList) (retagged s e l new)

/-- **A source in which a tag was written anew has a like forest.** -/
theorem alike_retag {source : String} {f : Forest} (hf : forestOf source = .ok f) (he : e ∈ f.elements)
    (hl : e.location = some l) (hr : l.startTag.start < l.startTag.stop) (hfont : e.name ≠ "font")
    (hwritable : ∀ {tag : StartTag}, Made tag e → (retag s e l new).Writable) :
    ∃ head middle tail f' tag, Cut source l.startTag head middle tail ∧ Made tag e ∧
      forestOf (String.ofList (head ++ ((retag s e l new).render.toList ++ tail))) = .ok f' ∧
      (retagChange s e l new).Alike f f' := by
  obtain ⟨before, token, m, k, n, d, tag, notes, hocc, hd, hreplaces, hmade, hspan, hsc, hnotes, hactions, hstart,
    hstop⟩ := replaced_of_text hf he hl
  have hname : (retag s e l new).name.toLower = tag.name := by
    rw [retag, hmade.name, lower_spellName, toLower_of_lower hmade.lowerName.lower]
  obtain ⟨head, middle, hcut, -⟩ := cut_of_occurs hocc
  -- the source is cut around the tag, and only the tag is written anew
  obtain ⟨after, hold, hnew⟩ := tokenize_tag hocc hreplaces hcut (hwritable hmade) hname hsc.symm
  rw [hstart, hstop] at hcut
  rw [hstart] at hnew
  rw [hstop] at hold
  have hfirst : before.foldl endAt 0 ≤ (retagChange s e l new).lo := by
    have hlaid := laid_tokenize source
    rw [hold, laid_append, List.singleton_append, Lexer.Laid, hocc.span, hstart] at hlaid
    exact hlaid.2.1
  have hc : (retagChange s e l new).Sound := sound_tagChange hr
  obtain ⟨f', hf', halike⟩ := Change.forestOf_like hc hold hnew hfirst hf (by
    intro offset d' r hd' hlike hread
    obtain rfl := Except.ok.inj (hd.symm.trans hd')
    let tag' : StartTag := ⟨tag.name, tag.selfClosing, (retag s e l new).written.map Lexer.lowered,
      ⟨l.startTag.start, l.startTag.start + byteLength (retag s e l new).render.toList⟩⟩
    have hnotFont : tag.name ≠ "font" := by
      intro heq
      refine hfont ?_
      rw [hmade.name, heq]
      cases e.space <;> rfl
    have hmoved : (retagChange s e l new).MovedTag tag.span tag'.span := by
      rw [hspan]
      exact .edited
    refine like_tag hc tag' (isTag_of_replaces hreplaces) ?_ hactions hnotes rfl rfl hnotFont hmoved ?_
      hlike hread
    · rw [hocc.span, hstart, hstop, hspan]
    · intro x hx
      rw [spellAttributes_eq, List.map_map]
      exact attributes_tagChange (location_of_own hx) (congrArg Span.start hspan))
  exact ⟨head, middle, n.rest, f', tag, hcut, hmade, hf', halike⟩

/-- Writing a tag anew keeps the tokens that elements carry. -/
theorem written?_retag {length : Nat} {f : Forest} (hnested : f.Nested 0 length) {inside : Forest}
    (he : (e, inside) ∈ f.nodes) (hl : e.location = some l) (h : Made tag e) {x x' : Element} (hx : x ∈ f.elements)
    (hlike : (retagChange s e l new).Like x x') : written? s x' = written? s x := by
  refine written?_of_find? ?_
  rw [hlike.attributes]
  by_cases hat : ∃ lx, x.location = some lx ∧ lx.startTag.start = l.startTag.start
  · -- the element that starts at the tag is the one whose tag is written
    obtain ⟨lx, hlx, heq⟩ := hat
    obtain ⟨y, hy, rfl⟩ := List.mem_map.1 hx
    have hsame : y.1 = e := congrArg Prod.fst (Forest.eq_of_start hnested hy he hlx hl heq)
    rw [hsame, retagChange, attributes_tagChange hl rfl]
    exact find?_retagged h
  · rw [retagChange, attributes_tagChange_other fun lx hlx heq => hat ⟨lx, hlx, heq⟩]

end Retag

/-- **An edit of attributes can be read back.** When the attributes of an element are replaced by others with
different names and without null characters, the source stays as it is around the start tag; every token is
kept, and its bytes move with the text after the tag; and the element that the token names has the same name
and identity and the new attributes in order, with the same values. The rules of markup look at the attributes
of one element only, which is left out. The attribute of the identity does not begin with an equals sign, as no
name does that can be written. -/
theorem editAttributes_reads_back {s : Scheme} {source token edited : String} {new : List Attribute}
    (hs : s.key.toList.head? ≠ some '=') (hdistinct : (new.map fun a => a.name.toLower).Nodup)
    (hvalues : ∀ a ∈ new, '\x00' ∉ a.value.toList)
    (hfont : ∀ x, openingTag? s source token = some x → x.2.2.name ≠ "font")
    (h : editAttributes s source token new = .ok edited) :
    ∃ r isVoid tag, openingTag? s source token = some (r, isVoid, tag) ∧
      ∃ head middle tail written found,
        Cut source r head middle tail ∧
        Cut edited ⟨r.start, r.start + byteLength written⟩ head written tail ∧
        (canonicalize s edited).isDegraded = false ∧
        (canonicalize s edited).map = (canonicalize s source).map.map (fun x =>
          (x.1, shiftSpanAfter r.start (byteLength middle) (byteLength written) x.2)) ∧
        openingTag? s edited token =
          some (⟨r.start, r.start + byteLength written⟩, isVoid, { tag with attributes := found }) ∧
        List.Forall₂ (fun a b => eqIgnoreCase b.name a.name = true ∧ b.value = a.value)
          (new.filter fun a => !eqIgnoreCase a.name s.key) found := by
  obtain ⟨hnames, r, isVoid, parts, hparts, hsplice⟩ := editAttributes_eq_ok h
  obtain ⟨f, n, hf, hn, htagOf⟩ := seek?_of_openingTag? hparts
  obtain ⟨l, hl, hread⟩ := Option.map_eq_some_iff.1 htagOf
  obtain ⟨rfl, rfl, rfl⟩ : l.startTag = r ∧ n.element.isVoid = isVoid ∧ _ = parts := by
    obtain ⟨hr, hrest⟩ := Prod.mk.inj hread
    exact ⟨hr, Prod.mk.inj hrest⟩
  have hnode : (n.element, n.inside) ∈ f.nodes :=
    Forest.node_of_spot (spot_of_nameAll (List.mem_of_find?_eq_some hn))
  have hnested := nested_of_text hf
  obtain ⟨-, hplaced, -, -⟩ := Forest.bounds_of_nested hnested hnode hl
  have hr : l.startTag.start < l.startTag.stop := hplaced.opening
  -- the forests of the two sources
  obtain ⟨head, middle, tail, f', tag, hcut, hmade, hf', halike⟩ := alike_retag hf (List.mem_map_of_mem hnode) hl hr
    (hfont _ hparts) fun hmade => writable_retag hs hmade hnames hvalues hdistinct
  have hc : (retagChange s n.element l new).Sound := sound_tagChange hr
  obtain rfl := Option.some.inj ((splice?_of_cut hcut (retag s n.element l new).render).symm.trans hsplice)
  have hedited := cut_edited hcut (retag s n.element l new).render.toList
  have hw : ∀ e ∈ f.elements, ∀ e', (retagChange s n.element l new).Like e e' → written? s e' = written? s e :=
    fun e he e' hlike => written?_retag hnested hnode hl hmade he hlike
  have hmoved := moved_of_cut (c := retagChange s n.element l new) hcut hedited
  obtain ⟨hdegraded, hmap⟩ := canonicalize_like hc.le hc.le' hf hf' halike hw hmoved fun _ _ _ => hr
  have hold : (retagChange s n.element l new).hi - (retagChange s n.element l new).lo = byteLength middle := by
    have := hcut.start
    have := hcut.stop
    change l.startTag.stop - l.startTag.start = _
    omega
  have hnew : (retagChange s n.element l new).hi' - (retagChange s n.element l new).lo
      = byteLength (retag s n.element l new).render.toList := Nat.add_sub_cancel_left _ _
  rw [hold, hnew] at hmap
  -- the element after the edit
  obtain ⟨n', hn', hlike⟩ := seek?_like halike hw hmoved hn
  obtain ⟨t', hp', hd'⟩ := parse_of_forest hf'
  have hlocation := hlike.element.location
  rw [hl] at hlocation
  generalize hl' : n'.element.location = location' at hlocation
  cases hlocation with
  | @some _ l' hlocation =>
    have hattributes := hlike.element.attributes
    rw [retagChange, attributes_tagChange hl rfl] at hattributes
    refine ⟨_, _, _, hparts, head, middle, tail, _, (new.filter fun a => !eqIgnoreCase a.name s.key).map
      (rewritten n.element.space), hcut, hedited, hdegraded, hmap, ?_, ?_⟩
    · rw [openingTag?_eq hp' hd', hn', Option.bind_some, tagOf?, hl', Option.map_some,
        startTag_like hr hlocation rfl, hlocation.selfClosing, isVoid_like hlike.element, hlike.element.name,
        hattributes, filter_retagged hmade, find?_retagged hmade]
    · rw [List.forall₂_map_right_iff]
      refine List.forall₂_same.2 fun a _ => ⟨?_, value_rewritten _ a⟩
      rw [eqIgnoreCase_rewritten]
      exact eqIgnoreCase_iff.2 rfl

/-- The attribute of a paragraph is replaced by another one. -/
theorem editAttributes_of_paragraph :
    let new : List Attribute := [⟨"title", "a & b"⟩]
    let edited := "<p title=\"a &amp; b\" data-vellum-id=\"x\">one</p>"
    editAttributes .default "<p data-vellum-id=x class=c>one</p>" "x" new = .ok edited ∧
      ∃ r isVoid tag, openingTag? .default "<p data-vellum-id=x class=c>one</p>" "x" = some (r, isVoid, tag) ∧
        ∃ head middle tail written found,
          Cut "<p data-vellum-id=x class=c>one</p>" r head middle tail ∧
          Cut edited ⟨r.start, r.start + byteLength written⟩ head written tail ∧
          (canonicalize .default edited).isDegraded = false ∧
          (canonicalize .default edited).map =
            (canonicalize .default "<p data-vellum-id=x class=c>one</p>").map.map (fun x =>
              (x.1, shiftSpanAfter r.start (byteLength middle) (byteLength written) x.2)) ∧
          openingTag? .default edited "x" =
            some (⟨r.start, r.start + byteLength written⟩, isVoid, { tag with attributes := found }) ∧
          List.Forall₂ (fun a b => eqIgnoreCase b.name a.name = true ∧ b.value = a.value)
            (new.filter fun a => !eqIgnoreCase a.name Scheme.default.key) found := by
  intro new edited
  have htag : openingTag? .default "<p data-vellum-id=x class=c>one</p>" "x" =
      some (⟨0, 28⟩, false, ⟨"p", [⟨"class", "c"⟩], some ⟨"data-vellum-id", "x"⟩, false⟩) := by cbv
  have hfont : ∀ x, openingTag? .default "<p data-vellum-id=x class=c>one</p>" "x" = some x →
      x.2.2.name ≠ "font" := by
    intro x hx
    rw [htag] at hx
    obtain rfl := Option.some.inj hx
    decide
  have hedit : editAttributes .default "<p data-vellum-id=x class=c>one</p>" "x" new = .ok edited := by cbv
  exact ⟨hedit, editAttributes_reads_back (by decide) (List.nodup_singleton _) (by decide) hfont hedit⟩

end LiveMarkup.Source
