/-
Elements that their own tags make again.

A settled element is added by its start tag, which does nothing else (`startHtml_of_settled`); only a list item may
end one that it was inside of. The end tag of the innermost element closes that element and does nothing else
(`endHtml_of_head`). So an element that is settled where it stands can be read back there (`plain_of_renewable`).
-/
import LiveMarkup.Proofs.Html.Rebuild
import LiveMarkup.Proofs.Html.Settled

set_option autoImplicit false

namespace LiveMarkup.Html

open Plan

variable {opened : List Key} {k : Key} {tag : StartTag} {name : String} {span : Span}

/-! ## Start tags -/

/-- Whether a start tag of a name ends no list item. -/
def endsNoItem (opened : List Key) (name : String) : Bool :=
  if name == "li" then (openListItem? ["li"] opened).isNone
  else if name == "dd" || name == "dt" then (openListItem? ["dd", "dt"] opened).isNone
  else true

theorem closeParagraph_of_none (h : NoParagraph opened) : (start opened).closeParagraph = start opened :=
  if_neg (Bool.eq_false_iff.1 h)

theorem closeListItem_of_none {names : List String} (h : (openListItem? names opened).isNone = true) :
    (start opened).closeListItem names = start opened := by
  unfold closeListItem
  rw [show openListItem? names (start opened).opened = none from Option.isNone_iff_eq_none.1 h]

/-- Nothing is closed when the innermost element is not to be closed. -/
theorem popWhile_of_head {f : Key → Bool} (h : f k = false) (actions : List Action) :
    popWhile ⟨k :: opened, actions⟩ f = ⟨k :: opened, actions⟩ := by
  rw [popWhile, List.dropWhile_cons_of_neg (by rw [h]; exact Bool.false_ne_true),
    List.takeWhile_cons_of_neg (by rw [h]; exact Bool.false_ne_true), List.map_nil, List.append_nil]

theorem closeImplied_of_notIn {except : Option String}
    (h : NotIn (impliedEndNames.filter fun name => except != some name) opened) :
    (start opened).closeImplied except = start opened := by
  cases opened with
  | nil => rfl
  | cons k rest =>
    have hhead : k.isHtml (impliedEndNames.filter fun name => except != some name) = false := h
    exact popWhile_of_head hhead []

theorem clearBackTo_of_head {names : List String} (h : opened.head?.any (Key.isHtml names) = true) :
    (start opened).clearBackTo names = start opened := by
  cases opened with
  | nil => exact absurd h nofun
  | cons k rest =>
    rw [List.head?_cons, Option.any_some] at h
    refine popWhile_of_head ?_ []
    rw [h]
    rfl

/-- The innermost element is of one of some names, so it is none of others. -/
theorem currentIs_of_head {names others : List String} (h : opened.head?.any (Key.isHtml names) = true)
    (hapart : ∀ name ∈ names, name ∉ others) : (start opened).currentIs others = false := by
  cases opened with
  | nil => rfl
  | cons k rest =>
    rw [List.head?_cons, Option.any_some] at h
    rw [currentIs, start, List.head?_cons, Option.any_some, Bool.eq_false_iff]
    exact fun hc => hapart _ (isHtml_iff.1 h).2 (isHtml_iff.1 hc).2

theorem head_mono {names others : List String} (h : opened.head?.any (Key.isHtml names) = true)
    (hsub : ∀ name ∈ names, name ∈ others) : opened.head?.any (Key.isHtml others) = true := by
  cases opened with
  | nil => exact absurd h nofun
  | cons k rest =>
    rw [List.head?_cons, Option.any_some] at h ⊢
    obtain ⟨hspace, hmem⟩ := isHtml_iff.1 h
    exact isHtml_iff.2 ⟨hspace, hsub _ hmem⟩

/-- **A settled part of a table is added by its start tag.** -/
theorem startTablePart_of_settled (hin : InTable opened)
    (hparent : opened.head?.any (Key.isHtml (tableParents tag.name)) = true) :
    (start opened).startTablePart tag = (start opened).insertHtml tag := by
  unfold startTablePart
  have htable : (start opened).inTableScope "table" = true := hin.table
  have hcells : ((start opened).inTableScope "td" || (start opened).inTableScope "th") = false := by
    rw [show (start opened).inTableScope "td" = false from hin.data,
      show (start opened).inTableScope "th" = false from hin.header, Bool.or_self]
  have hcaption : (start opened).inTableScope "caption" = false := hin.caption
  rw [htable, Bool.not_true, if_neg Bool.false_ne_true]
  dsimp only
  rw [hcells, if_neg Bool.false_ne_true, hcaption, if_neg Bool.false_ne_true]
  -- nothing had to be closed, and the element that the part belongs in is already the innermost
  unfold tableParents at hparent
  by_cases hcol : (tag.name == "col") = true
  · rw [if_pos hcol] at hparent ⊢
    exact if_pos hparent
  rw [if_neg hcol] at hparent ⊢
  by_cases hrow : (tag.name == "tr") = true
  · rw [if_pos hrow] at hparent ⊢
    rw [clearBackTo_of_head (head_mono hparent (by decide)),
      currentIs_of_head hparent (by decide), if_neg Bool.false_ne_true]
  rw [if_neg hrow] at hparent ⊢
  by_cases hcell : (tag.name == "td" || tag.name == "th") = true
  · rw [if_pos hcell] at hparent ⊢
    rw [clearBackTo_of_head (head_mono hparent (by decide)), currentIs_of_head hparent (by decide),
      if_neg Bool.false_ne_true, currentIs_of_head hparent (by decide), if_neg Bool.false_ne_true]
  · rw [if_neg hcell] at hparent ⊢
    rw [clearBackTo_of_head (head_mono hparent (by decide))]

/-- **A settled element is added by its start tag**, which does nothing else. -/
theorem startHtml_of_settled (h : Settled opened tag.name) (hitem : endsNoItem opened tag.name = true) :
    (start opened).startHtml tag = (start opened).insertHtml tag := by
  obtain ⟨howned, -, hby⟩ := h
  have hnot : ∀ name ∈ unownedNames, tag.name ≠ name := by
    rintro name hname rfl
    rw [List.contains_iff_mem.2 hname] at howned
    exact absurd howned nofun
  have hignored : ignoredStartNames.contains tag.name = false := by
    rw [Bool.eq_false_iff]
    exact fun hc => hnot _ (List.mem_append_left _ (List.contains_iff_mem.1 hc)) rfl
  have hsvg : (tag.name == "svg") = false := beq_eq_false_iff_ne.2 (hnot _ (by decide))
  have hmath : (tag.name == "math") = false := beq_eq_false_iff_ne.2 (hnot _ (by decide))
  have himage : (tag.name == "image") = false := beq_eq_false_iff_ne.2 (hnot _ (by decide))
  unfold startHtml
  dsimp only
  rw [hignored, if_neg Bool.false_ne_true, hsvg, if_neg Bool.false_ne_true, hmath, if_neg Bool.false_ne_true]
  -- one rule after the other, and what it asks of the open elements along with it
  unfold SettledBy at hby
  by_cases h : blockStartNames.contains tag.name = true
  · rw [if_pos h] at hby ⊢
    rw [closeParagraph_of_none hby]
  rw [if_neg h] at hby ⊢
  by_cases h : headings.contains tag.name = true
  · rw [if_pos h] at hby ⊢
    obtain ⟨hparagraph, hheading⟩ := hby
    have hcurrent : (start opened).currentIs headings = false := hheading
    rw [closeParagraph_of_none hparagraph, hcurrent, if_neg Bool.false_ne_true]
  rw [if_neg h] at hby ⊢
  unfold endsNoItem at hitem
  by_cases h : (tag.name == "li") = true
  · rw [if_pos h] at hby hitem ⊢
    rw [closeListItem_of_none hitem, closeParagraph_of_none hby]
  rw [if_neg h] at hby hitem ⊢
  by_cases h : (tag.name == "dd" || tag.name == "dt") = true
  · rw [if_pos h] at hby hitem ⊢
    rw [closeListItem_of_none hitem, closeParagraph_of_none hby]
  rw [if_neg h] at hby ⊢
  by_cases h : (tag.name == "button") = true
  · rw [if_pos h] at hby ⊢
    have hscope : (start opened).inScope "button" = false := hby
    rw [hscope, if_neg Bool.false_ne_true]
  rw [if_neg h] at hby ⊢
  by_cases h : (tag.name == "a") = true
  · rw [if_pos h] at hby ⊢
    have hscope : (start opened).inScope "a" = false := hby
    rw [hscope, if_neg Bool.false_ne_true]
  rw [if_neg h] at hby ⊢
  by_cases h : (tag.name == "option" || tag.name == "optgroup") = true
  · rw [if_pos h] at hby ⊢
    have hcurrent : (start opened).currentIs ["option"] = false := hby
    rw [hcurrent, if_neg Bool.false_ne_true]
  rw [if_neg h] at hby ⊢
  by_cases h : (tag.name == "rb" || tag.name == "rtc") = true
  · rw [if_pos h] at hby ⊢
    by_cases hruby : (start opened).inScope "ruby" = true
    · rw [if_pos hruby, closeImplied_of_notIn (hby hruby)]
    · rw [if_neg hruby]
  rw [if_neg h] at hby ⊢
  by_cases h : (tag.name == "rp" || tag.name == "rt") = true
  · rw [if_pos h] at hby ⊢
    by_cases hruby : (start opened).inScope "ruby" = true
    · rw [if_pos hruby, closeImplied_of_notIn (hby hruby)]
    · rw [if_neg hruby]
  rw [if_neg h] at hby ⊢
  rw [himage, if_neg Bool.false_ne_true]
  by_cases h : tablePartNames.contains tag.name = true
  · rw [if_pos h] at hby ⊢
    exact startTablePart_of_settled hby.1 hby.2
  · rw [if_neg h]

theorem startTag_of_settled (h : Settled opened tag.name) (hitem : endsNoItem opened tag.name = true) :
    (start opened).startTag tag = (start opened).insertHtml tag := by
  have houtside : (start opened).inForeign = false := h.outside
  rw [startTag, houtside, if_neg Bool.false_ne_true, startHtml_of_settled h hitem]

/-- **A settled element of another language is added by its start tag**, which does nothing else. -/
theorem startTag_of_settledForeign {space : Namespace} (h : SettledForeign opened space tag) :
    (start opened).startTag tag = (start opened).insertForeign tag space := by
  unfold startTag
  rcases h with ⟨hforeign, hspace, hbreaks⟩ | ⟨houtside, hroot⟩
  · rw [show (start opened).inForeign = true from hforeign, if_pos rfl, hbreaks, if_neg Bool.false_ne_true, hspace]
  · rw [show (start opened).inForeign = false from houtside, if_neg Bool.false_ne_true]
    obtain ⟨name, selfClosing, attributes, span⟩ := tag
    rcases hroot with ⟨hname, rfl⟩ | ⟨hname, rfl⟩
    · obtain rfl : name = "svg" := hname
      rfl
    · obtain rfl : name = "math" := hname
      rfl

/-! ## End tags -/

/-- The innermost element is closed when it is the one to be closed. -/
theorem closeThrough_of_head {f : Key → Bool} (h : f k = true) (actions : List Action) :
    closeThrough ⟨k :: opened, actions⟩ f (some span) = ⟨opened, actions ++ [.closeBy span]⟩ := by
  have hstays : popWhile ⟨k :: opened, actions⟩ (fun k => !f k) = ⟨k :: opened, actions⟩ :=
    popWhile_of_head (by rw [h]; rfl) actions
  unfold closeThrough
  dsimp only
  rw [hstays]

/-- The end tag of the innermost element closes nothing else first. -/
theorem closeImplied_of_head {except : Option String} (h : k.name ∈ impliedEndNames → except = some k.name) :
    (start (k :: opened)).closeImplied except = start (k :: opened) := by
  refine popWhile_of_head ?_ []
  rw [Bool.eq_false_iff]
  intro hc
  obtain ⟨hmem, hne⟩ := List.mem_filter.1 (isHtml_iff.1 hc).2
  rw [h hmem] at hne
  exact absurd rfl (bne_iff_ne.1 hne)

theorem endInScope_of_head {scope : Bool} {except : Option String} {names : List String} (hscope : scope = true)
    (hk : k.isHtml names = true) (himplied : k.name ∈ impliedEndNames → except = some k.name) :
    (start (k :: opened)).endInScope scope name except names span = ⟨opened, [.closeBy span]⟩ := by
  have hany : (start (k :: opened)).opened.any (Key.isHtml names) = true := by
    rw [start, List.any_cons, hk, Bool.true_or]
  rw [endInScope, if_pos hscope, closeImplied_of_head himplied, closeNamed, if_pos hany]
  exact closeThrough_of_head hk []

/-- An end tag without a rule closes the innermost element when it is of its name. -/
theorem endOther_of_head (h : k.isHtml [name] = true) :
    (start (k :: opened)).endOther name span = ⟨opened, [.closeBy span]⟩ := by
  have hname : k.name = name := List.mem_singleton.1 (isHtml_iff.1 h).2
  have hnamed : isNamedOpen name (k :: opened) = true := by rw [isNamedOpen, h, Bool.true_or]
  rw [endOther, if_pos (show isNamedOpen name (start (k :: opened)).opened = true from hnamed), closeImplied_of_head fun _ => by rw [hname]]
  exact closeThrough_of_head h []

/-- An element is in scope in itself. -/
theorem inScopeOf_head {barriers : List String} {foreign : Bool} (h : k.space = .html) :
    inScopeOf k.name barriers foreign (k :: opened) = true := by
  rw [inScopeOf_html h, beq_self_eq_true, Bool.true_or]

/-- **The end tag of the innermost element closes it**, and does nothing else. -/
theorem endHtml_of_head (hspace : k.space = .html) (hignored : ignoredEndNames.contains k.name = false)
    (hvoid : isVoidName k.name = false) : (start (k :: opened)).endHtml k.name span = ⟨opened, [.closeBy span]⟩ := by
  have hown : k.isHtml [k.name] = true := isHtml_iff.2 ⟨hspace, List.mem_cons_self⟩
  have hnot : ∀ name, isVoidName name = true → (k.name == name) = false := by
    intro name hname
    rw [beq_eq_false_iff_ne]
    rintro heq
    rw [heq, hname] at hvoid
    exact absurd hvoid nofun
  have hapart : ∀ {names : List String}, names.contains k.name = true → (∀ name ∈ names, name ∉ impliedEndNames) →
      k.name ∈ impliedEndNames → none = some k.name :=
    fun h hnames himplied => absurd himplied (hnames _ (List.contains_iff_mem.1 h))
  -- the rules are gone through in their order; the one that applies finds the element at once
  unfold endHtml
  rw [hignored, if_neg Bool.false_ne_true, hnot "br" (by cbv), if_neg Bool.false_ne_true]
  by_cases h : (k.name == "p") = true
  · have hname := eq_of_beq h
    rw [if_pos h, hname]
    refine endInScope_of_head ?_ (hname ▸ hown) fun _ => by rw [hname]
    exact hname ▸ inScopeOf_head hspace
  rw [if_neg h]
  by_cases h : (k.name == "li") = true
  · have hname := eq_of_beq h
    rw [if_pos h, hname]
    refine endInScope_of_head ?_ (hname ▸ hown) fun _ => by rw [hname]
    exact hname ▸ inScopeOf_head hspace
  rw [if_neg h]
  by_cases h : (k.name == "dd" || k.name == "dt") = true
  · rw [if_pos h]
    exact endInScope_of_head (inScopeOf_head hspace) hown fun _ => rfl
  rw [if_neg h]
  by_cases h : headings.contains k.name = true
  · rw [if_pos h]
    refine endInScope_of_head ?_ (isHtml_iff.2 ⟨hspace, List.contains_iff_mem.1 h⟩) (hapart h (by decide))
    exact List.any_eq_true.2 ⟨k.name, List.contains_iff_mem.1 h, inScopeOf_head hspace⟩
  rw [if_neg h]
  by_cases h : (k.name == "template") = true
  · have hname := eq_of_beq h
    have htemplate : k.isHtml ["template"] = true := hname ▸ hown
    rw [if_pos h, hname]
    refine endInScope_of_head ?_ htemplate fun himplied => ?_
    · exact List.any_eq_true.2 ⟨k, List.mem_cons_self, htemplate⟩
    · rw [hname] at himplied
      exact absurd himplied (by decide)
  rw [if_neg h]
  by_cases h : tableEndNames.contains k.name = true
  · rw [if_pos h]
    exact endInScope_of_head (inScopeOf_head hspace) hown (hapart h (by decide))
  rw [if_neg h, hnot "col" (by cbv), if_neg Bool.false_ne_true]
  by_cases h : blockEndNames.contains k.name = true
  · rw [if_pos h]
    exact endInScope_of_head (inScopeOf_head hspace) hown (hapart h (by decide))
  · rw [if_neg h]
    exact endOther_of_head hown

/-- The end tag of the innermost element closes it when the element is one of another language. -/
theorem endTag_of_foreignHead (hspace : k.space ≠ .html) (hname : Text.eqIgnoreCase k.name name = true) :
    (start (k :: opened)).endTag name span = ⟨opened, [.closeBy span]⟩ := by
  have hhtml : (k.space == Namespace.html) = false := beq_eq_false_iff_ne.2 hspace
  have hends : k.endsForeign name = true := by rw [Key.endsForeign, hhtml, hname, Bool.or_true]
  have hcurrent : (start (k :: opened)).currentSpace = k.space := rfl
  have hfind : (start (k :: opened)).opened.find? (Key.endsForeign name) = some k := List.find?_cons_of_pos hends
  rw [endTag, hcurrent, hhtml, if_neg Bool.false_ne_true, hfind]
  dsimp only
  rw [hhtml, if_neg Bool.false_ne_true]
  exact closeThrough_of_head hends []

/-- **The end tag of an element closes it when it is innermost**, and does nothing else. -/
theorem endTag_of_element {e : Element} (hopen : e.isVoid = false)
    (hhtml : e.space = .html → e.name.toLower = e.name ∧ ignoredEndNames.contains e.name = false) :
    (start (keyOf e :: opened)).endTag e.name.toLower span = ⟨opened, [.closeBy span]⟩ := by
  by_cases hspace : e.space = .html
  · obtain ⟨hname, hignored⟩ := hhtml hspace
    have hcurrent : (start (keyOf e :: opened)).currentSpace = .html := hspace
    have hvoid : e.isVoid = isVoidName e.name := by
      rw [Element.isVoid, hspace]
      rfl
    rw [hvoid] at hopen
    rw [hname, endTag, hcurrent, if_pos (beq_self_eq_true _)]
    exact endHtml_of_head (k := keyOf e) hspace hignored hopen
  · exact endTag_of_foreignHead (k := keyOf e) hspace (eqIgnoreCase_iff.2 (toLower_idem e.name).symm)

/-! ## Elements -/

/-- An element that is spelled as its language spells it, and settled where it stands. -/
structure Renewable (opened : List Key) (e : Element) : Prop where
  legible : Lexer.Legible e
  name : spellName e.space e.name.toLower = e.name
  attributes : spellAttributes e.space (e.attributes.map Lexer.lowered) = e.attributes
  html : e.space = .html → Settled opened e.name.toLower ∧ endsNoItem opened e.name.toLower = true
  foreign : e.space ≠ .html → ∀ span,
    SettledForeign opened e.space ⟨e.name.toLower, false, e.attributes.map Lexer.lowered, span⟩

/-- A settled element is not one that a fragment does not take. -/
theorem ignoredEnd_of_settled (h : Settled opened name) : ignoredEndNames.contains name = false := by
  have hsub : ∀ other ∈ ignoredEndNames, other ∈ unownedNames := by decide
  rw [Bool.eq_false_iff]
  intro hc
  have hmem := List.contains_iff_mem.2 (hsub _ (List.contains_iff_mem.1 hc))
  rw [h.owned] at hmem
  exact absurd hmem nofun

/-- **An element that is settled where it stands is made again by its own tags.** -/
theorem plain_of_renewable {e : Element} (h : Renewable opened e) : Plain opened e := by
  have hlower : e.space = .html → e.name.toLower = e.name := by
    intro hspace
    have hspelled := h.name
    rw [hspace] at hspelled
    exact hspelled
  -- its start tag adds it, and its end tag closes it when it stays open
  refine ⟨h.legible, fun span => ?_, fun hopen span => ?_⟩
  · by_cases hspace : e.space = .html
    · obtain ⟨hsettled, hitem⟩ := h.html hspace
      have hattributes : e.attributes.map Lexer.lowered = e.attributes := by
        have hspelled := h.attributes
        rw [hspace] at hspelled
        exact hspelled
      have hvoid : e.isVoid = isVoidName e.name := by
        rw [Element.isVoid, hspace]
        rfl
      rw [hlower hspace] at hsettled hitem
      let tag : StartTag := ⟨e.name, false, e.attributes, span⟩
      refine ⟨htmlElement tag, ?_, ?_⟩
      · rw [Element.bare, Element.bare, hspace]
        rfl
      · have hstart : (start opened).startTag tag = _ := startTag_of_settled hsettled hitem
        rw [hlower hspace, hattributes, hstart, hvoid]
        rfl
    · have hvoid : e.isVoid = false := by
        rw [Element.isVoid, beq_eq_false_iff_ne.2 hspace, Bool.false_and]
      let tag : StartTag := ⟨e.name.toLower, false, e.attributes.map Lexer.lowered, span⟩
      refine ⟨foreignElement e.space tag, ?_, ?_⟩
      · have hname : (foreignElement e.space tag).name = e.name := h.name
        have hattributes : (foreignElement e.space tag).attributes = e.attributes := h.attributes
        rw [Element.bare, Element.bare, hname, hattributes]
        rfl
      · have hstart : (start opened).startTag tag = _ := startTag_of_settledForeign (h.foreign hspace span)
        rw [hstart, hvoid]
        rfl
  · refine congrArg Plan.actions (endTag_of_element hopen fun hspace => ⟨hlower hspace, ?_⟩)
    obtain ⟨hsettled, -⟩ := h.html hspace
    exact hlower hspace ▸ ignoredEnd_of_settled hsettled

end LiveMarkup.Html
