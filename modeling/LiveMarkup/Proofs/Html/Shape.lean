/-
The shape of a plan.

Whatever a tag does, it does in one order: it closes elements where the tag starts and adds elements that
the text leaves out, and after that it does at most one thing that the tag itself stands for. A start tag
that is taken adds its element (`actions_startTag`), and an end tag records that it closes the element that
it names (`actions_endTag`). What a tag can add, and which end tags it can record, follows from this.
-/
import LiveMarkup.Html.Plan
import Mathlib.Data.List.TakeWhile

set_option autoImplicit false

namespace LiveMarkup.Html

/-- The names of the elements that a text leaves out. -/
def leftOutNames : List String := ["tbody", "tr", "colgroup"]

namespace Action

/-- The actions that do not stand for the tag itself. -/
inductive Soft : Action → Prop
  | note (deviation : Deviation) : Soft (.note deviation)
  | close : Soft .close
  | implied (name : String) (leftOut : name ∈ leftOutNames) : Soft (.insert (.ofName name) true)

/-- The elements that are open after an action. -/
def keysAfter (opened : List Key) : Action → List Key
  | .note _ => opened
  | .close => opened.tail
  | .closeBy _ => opened.tail
  | .insert e stays => if stays then keyOf e :: opened else opened

theorem keysAfter_closes (f : Key → Bool) (opened : List Key) :
    ((opened.takeWhile f).map fun _ => Action.close).foldl keysAfter opened = opened.dropWhile f := by
  induction opened with
  | nil => rfl
  | cons k rest ih =>
    rw [List.takeWhile_cons, List.dropWhile_cons]
    split
    · exact ih
    · rfl

end Action

/-! ## What tags stand for -/

/-- The elements that a start tag stands for: an element of HTML, one of another language, or the
picture that a misspelled tag asks for. -/
inductive Plan.Own (tag : StartTag) : Element → Prop
  | html : Own tag (htmlElement tag)
  | image : tag.name = "image" → Own tag (htmlElement { tag with name := "img" })
  | foreign (space : Namespace) : Own tag (foreignElement space tag)

/-- Whether the rules of HTML take a start tag: a fragment does not take the tags of a whole document, and
a part of a table needs an open table. -/
def takesHtml (opened : List Key) (name : String) : Bool :=
  !ignoredStartNames.contains name &&
    (!tablePartNames.contains name || Plan.inScopeOf "table" tableScopeNames false opened)

/-- Whether a start tag is taken. A tag of another language always is; one that ends foreign content is
taken as the rules of HTML take it outside of that. -/
def takes (opened : List Key) (tag : StartTag) : Bool :=
  if opened.head?.any Key.isForeign then
    !breaksOut tag.name tag.attributes || takesHtml (opened.dropWhile Key.isForeign) tag.name
  else takesHtml opened tag.name

/-- An end tag of a name closes elements of that name in any case; one of a heading closes any heading. -/
def Ended (name : String) (k : Key) : Prop :=
  Text.eqIgnoreCase k.name name = true ∨ name ∈ headings ∧ k.name ∈ headings

theorem ended_of_isHtml {name : String} {k : Key} (h : k.isHtml [name] = true) : Ended name k := by
  have hname : k.name = name := by
    rw [Key.isHtml, Bool.and_eq_true] at h
    exact List.mem_singleton.1 (List.contains_iff_mem.1 h.2)
  rw [Ended, hname]
  exact .inl (beq_self_eq_true _)

theorem ended_of_isHeading {name : String} {k : Key} (hname : headings.contains name = true)
    (h : k.isHtml headings = true) : Ended name k := by
  rw [Key.isHtml, Bool.and_eq_true] at h
  exact .inr ⟨List.contains_iff_mem.1 hname, List.contains_iff_mem.1 h.2⟩

namespace Plan

/-- Nothing is done that stands for the tag itself, and the plan knows which elements are open after it
when those of `before` were open. -/
structure Soft (before : List Key) (p : Plan) : Prop where
  actions : ∀ a ∈ p.actions, a.Soft
  tracks : p.actions.foldl Action.keysAfter before = p.opened

variable {before : List Key} {p : Plan} {tag : StartTag} {span : Span}

/-! ## Closing and adding left-out elements -/

theorem soft_start (opened : List Key) : Soft opened (start opened) :=
  ⟨fun _ ha => absurd ha List.not_mem_nil, rfl⟩

theorem soft_append {opened : List Key} {actions : List Action} (hp : p.Soft before)
    (ha : ∀ a ∈ actions, a.Soft) (ht : actions.foldl Action.keysAfter p.opened = opened) :
    Soft before ⟨opened, p.actions ++ actions⟩ := by
  refine ⟨?_, ?_⟩
  · intro a hmem
    rcases List.mem_append.1 hmem with hmem | hmem
    · exact hp.actions a hmem
    · exact ha a hmem
  · rw [List.foldl_append, hp.tracks, ht]

theorem soft_one {a : Action} (hp : p.Soft before) (ha : a.Soft) :
    Soft before ⟨a.keysAfter p.opened, p.actions ++ [a]⟩ := by
  refine soft_append hp ?_ rfl
  intro b hb
  rw [List.mem_singleton.1 hb]
  exact ha

theorem soft_note (hp : p.Soft before) (deviation : Deviation) : (p.note deviation).Soft before :=
  soft_one hp (.note deviation)

theorem soft_pop (hp : p.Soft before) : p.pop.Soft before := by
  unfold pop
  split
  · exact hp
  · rename_i hopened
    have hclosed := soft_one hp .close
    rwa [Action.keysAfter, hopened] at hclosed

theorem soft_popWhile (hp : p.Soft before) (f : Key → Bool) : (p.popWhile f).Soft before := by
  refine soft_append hp ?_ (Action.keysAfter_closes f p.opened)
  intro a ha
  obtain ⟨k, -, rfl⟩ := List.mem_map.1 ha
  exact .close

theorem soft_popThrough (hp : p.Soft before) (names : List String) : (p.popThrough names).Soft before :=
  soft_pop (soft_popWhile hp _)

theorem soft_closeImplied (hp : p.Soft before) (except : Option String) : (p.closeImplied except).Soft before :=
  soft_popWhile hp _

theorem soft_clearBackTo (hp : p.Soft before) (names : List String) : (p.clearBackTo names).Soft before :=
  soft_popWhile hp _

theorem soft_ite {c : Prop} [Decidable c] {q : Plan} (hp : p.Soft before) (hq : q.Soft before) :
    (if c then p else q).Soft before := by
  split
  · exact hp
  · exact hq

theorem soft_closeParagraph (hp : p.Soft before) : p.closeParagraph.Soft before :=
  soft_ite (soft_popThrough (soft_closeImplied hp _) _) hp

theorem soft_closeListItem (hp : p.Soft before) (names : List String) : (p.closeListItem names).Soft before := by
  unfold closeListItem
  split
  · exact hp
  · rename_i name _
    have hclosed := soft_popWhile (soft_closeImplied hp (some name)) fun k => !k.isHtml [name]
    unfold closeThrough
    dsimp only
    split
    · exact hclosed
    · exact absurd ‹none = some _› (Option.some_ne_none _).symm
    · exact soft_pop hclosed

theorem soft_insertImplied (hp : p.Soft before) {name : String} (hname : name ∈ leftOutNames) :
    (p.insertImplied name).Soft before :=
  soft_one (soft_note hp _) (.implied name hname)

/-! ## Start tags -/

/-- A plan that closes and adds left-out elements, and adds the element of the tag after that when the tag
is taken. -/
def Starts (before : List Key) (tag : StartTag) (taken : Bool) (p : Plan) : Prop :=
  if taken then ∃ (q : Plan) (e : Element) (stays : Bool), q.Soft before ∧ Own tag e ∧ p = q.insert e stays
  else p.Soft before

theorem starts_insertHtml (hp : p.Soft before) : Starts before tag true (p.insertHtml tag) :=
  ⟨p, _, _, hp, .html, rfl⟩

theorem starts_insertForeign (hp : p.Soft before) (space : Namespace) :
    Starts before tag true (p.insertForeign tag space) :=
  ⟨p, _, _, hp, .foreign space, rfl⟩

theorem starts_ite {c : Prop} [Decidable c] {taken : Bool} {q : Plan} (hp : c → Starts before tag taken p)
    (hq : Starts before tag taken q) : Starts before tag taken (if c then p else q) := by
  split
  · exact hp ‹_›
  · exact hq

theorem starts_startTablePart (hp : p.Soft before) :
    Starts before tag (p.inTableScope "table") (p.startTablePart tag) := by
  unfold startTablePart
  cases p.inTableScope "table" with
  | false => exact soft_note hp _
  | true =>
    rw [Bool.not_true, if_neg Bool.false_ne_true]
    -- what is closed or added before does not matter, so the plans in between are only named
    have hcell := soft_ite (c := p.inTableScope "td" || p.inTableScope "th")
      (soft_popThrough (soft_closeImplied hp none) ["td", "th"]) hp
    revert hcell
    generalize (if p.inTableScope "td" || p.inTableScope "th" then _ else p) = q
    intro hq
    have hcaption := soft_ite (c := q.inTableScope "caption")
      (soft_popThrough (soft_closeImplied hq none) ["caption"]) hq
    revert hcaption
    dsimp only
    generalize (if q.inTableScope "caption" then _ else q) = r
    intro hr
    have hbody : ∀ {x : Plan}, x.Soft before →
        (if x.currentIs ["table"] then x.insertImplied "tbody" else x).Soft before :=
      fun hx => soft_ite (soft_insertImplied hx (by decide)) hx
    have hrow : ∀ {x : Plan}, x.Soft before →
        (if x.currentIs rowGroupNames then x.insertImplied "tr" else x).Soft before :=
      fun hx => soft_ite (soft_insertImplied hx (by decide)) hx
    refine starts_ite (fun _ => starts_ite (fun _ => starts_insertHtml hr) ?_) ?_
    · exact starts_insertHtml (soft_insertImplied (soft_clearBackTo hr _) (by decide))
    · refine starts_ite (fun _ => starts_insertHtml (hbody (soft_clearBackTo hr _))) ?_
      refine starts_ite (fun _ => starts_insertHtml (hrow (hbody (soft_clearBackTo hr _)))) ?_
      exact starts_insertHtml (soft_clearBackTo hr _)

/-- The parts of a table have no other rule. -/
theorem startHtml_tablePart (p : Plan) (h : tablePartNames.contains tag.name = true) :
    p.startHtml tag = p.startTablePart tag := by
  have halone : ∀ name ∈ tablePartNames, !(ignoredStartNames ++ blockStartNames ++ headings ++ ["svg", "math",
      "li", "dd", "dt", "button", "a", "option", "optgroup", "rb", "rtc", "rp", "rt", "image"]).contains name := by
    decide
  have hname := halone _ (List.contains_iff_mem.1 h)
  simp only [List.contains_eq_mem, List.mem_append, List.mem_cons, List.not_mem_nil, or_false,
    Bool.not_eq_true', decide_eq_false_iff_not, not_or] at hname
  obtain ⟨⟨⟨hignored, hblock⟩, hheading⟩, hrest⟩ := hname
  have hcontains : ∀ {l : List String}, tag.name ∉ l → l.contains tag.name = false := fun hl =>
    Bool.eq_false_iff.2 fun hc => hl (List.contains_iff_mem.1 hc)
  unfold startHtml
  simp only [hcontains hignored, hcontains hblock, hcontains hheading, h, beq_eq_false_iff_ne.2, hrest, ne_eq,
    not_false_eq_true, Bool.false_eq_true, Bool.or_self, if_false, if_true]

/-- A start tag that misspells the name of a picture. -/
theorem startHtml_image (h : tag.name = "image") :
    p.startHtml tag = (p.note .imageAsImg).insertHtml { tag with name := "img" } := by
  obtain ⟨name, selfClosing, attributes, span⟩ := tag
  subst h
  rfl

theorem starts_startHtml (hp : p.Soft before) :
    Starts before tag (takesHtml p.opened tag.name) (p.startHtml tag) := by
  by_cases hpart : tablePartNames.contains tag.name = true
  · have hignored : ignoredStartNames.contains tag.name = false := by
      have halone : ∀ name ∈ tablePartNames, ignoredStartNames.contains name = false := by decide
      exact halone _ (List.contains_iff_mem.1 hpart)
    rw [startHtml_tablePart p hpart, takesHtml, hignored, hpart]
    exact starts_startTablePart hp
  · have hpart := Bool.eq_false_iff.2 hpart
    rw [takesHtml, hpart, Bool.not_false, Bool.true_or, Bool.and_true]
    -- whatever a rule closes or adds, the element of the tag comes last
    unfold startHtml
    dsimp only
    by_cases hignored : ignoredStartNames.contains tag.name = true
    · rw [if_pos hignored, hignored]
      exact soft_note hp _
    · rw [if_neg hignored, Bool.eq_false_iff.2 hignored, Bool.not_false]
      refine starts_ite (fun _ => starts_insertForeign hp _) ?_
      refine starts_ite (fun _ => starts_insertForeign hp _) ?_
      have hparagraph := soft_closeParagraph hp
      refine starts_ite (fun _ => starts_insertHtml hparagraph) ?_
      refine starts_ite (fun _ => starts_insertHtml (soft_ite (soft_pop (soft_note hparagraph _)) hparagraph)) ?_
      refine starts_ite (fun _ => starts_insertHtml (soft_closeParagraph (soft_closeListItem hp _))) ?_
      refine starts_ite (fun _ => starts_insertHtml (soft_closeParagraph (soft_closeListItem hp _))) ?_
      refine starts_ite (fun _ => starts_insertHtml
        (soft_ite (soft_popThrough (soft_closeImplied (soft_note hp _) _) _) hp)) ?_
      refine starts_ite (fun _ => starts_insertHtml (soft_ite (soft_popThrough (soft_note hp _) _) hp)) ?_
      refine starts_ite (fun _ => starts_insertHtml (soft_ite (soft_pop hp) hp)) ?_
      refine starts_ite (fun _ => starts_insertHtml (soft_ite (soft_closeImplied hp _) hp)) ?_
      refine starts_ite (fun _ => starts_insertHtml (soft_ite (soft_closeImplied hp _) hp)) ?_
      refine starts_ite (fun himage => ?_) ?_
      · exact ⟨_, _, _, soft_note hp _, .image (eq_of_beq himage), rfl⟩
      · rw [if_neg (by rw [hpart]; exact Bool.false_ne_true)]
        exact starts_insertHtml hp

/-- **A start tag that is taken adds its element last.** -/
theorem starts_startTag (hp : p.Soft before) (tag : StartTag) :
    Starts before tag (takes p.opened tag) (p.startTag tag) := by
  rw [startTag, takes, inForeign]
  cases p.opened.head?.any Key.isForeign with
  | false => exact starts_startHtml hp
  | true =>
    rw [if_pos rfl, if_pos rfl]
    cases breaksOut tag.name tag.attributes with
    | false => exact starts_insertForeign hp _
    | true => exact starts_startHtml (soft_popWhile (soft_note hp _) _)

/-! ## End tags -/

/-- A plan that closes elements, and records after that that the end tag closes the element that it names, or
adds a line break. -/
def Ends (before : List Key) (name : String) (span : Span) (p : Plan) : Prop :=
  p.Soft before ∨
    (∃ (q : Plan) (k : Key) (rest : List Key), q.Soft before ∧ q.opened = k :: rest ∧ Ended name k ∧
      p = ⟨rest, q.actions ++ [.closeBy span]⟩) ∨
    name = "br" ∧ Starts before ⟨"br", false, [], span⟩ true p

variable {name : String}

theorem ends_closeThrough (hp : p.Soft before) {f : Key → Bool}
    (hf : ∀ k, p.opened.find? f = some k → Ended name k) :
    Ends before name span (p.closeThrough f (some span)) := by
  have hclosed := soft_popWhile hp fun k => !f k
  have hfound : (p.popWhile fun k => !f k).opened.head? = p.opened.find? f :=
    (List.find?_eq_head?_dropWhile_not f p.opened).symm
  unfold closeThrough
  dsimp only
  split
  · exact .inl hclosed
  · rename_i k rest _ hopened heq
    obtain rfl := Option.some.inj heq
    rw [hopened] at hfound
    exact .inr (.inl ⟨_, k, rest, hclosed, hopened, hf k hfound.symm, rfl⟩)
  · exact absurd ‹some _ = none› (Option.some_ne_none _)

theorem ends_ite {c : Prop} [Decidable c] {q : Plan} (hp : c → Ends before name span p)
    (hq : Ends before name span q) : Ends before name span (if c then p else q) := by
  split
  · exact hp ‹_›
  · exact hq

theorem ends_endInScope (hp : p.Soft before) (inScope : Bool) (except : Option String) {names : List String}
    (hnames : ∀ k : Key, k.isHtml names = true → Ended name k) :
    Ends before name span (p.endInScope inScope name except names span) := by
  have hclosed := soft_closeImplied hp except
  refine ends_ite (fun _ => ends_ite (fun _ => ends_closeThrough hclosed ?_) (.inl hclosed)) (.inl (soft_note hp _))
  exact fun k hk => hnames k (List.find?_some hk)

theorem ends_endHtml (hp : p.Soft before) : Ends before name span (p.endHtml name span) := by
  -- an end tag that closes elements of its own name only
  have hown : ∀ (inScope : Bool) (except : Option String),
      Ends before name span (p.endInScope inScope name except [name] span) :=
    fun inScope except => ends_endInScope hp inScope except fun _ => ended_of_isHtml
  unfold endHtml
  refine ends_ite (fun _ => .inl (soft_note hp _)) ?_
  refine ends_ite (fun hbr => ?_) ?_
  · refine .inr (.inr ⟨eq_of_beq hbr, ?_⟩)
    have hstarts := starts_startTag (soft_note hp .breakEndTag) ⟨"br", false, [], span⟩
    have htaken : ∀ opened, takes opened ⟨"br", false, [], span⟩ = true := by
      intro opened
      unfold takes
      split <;> rfl
    rwa [htaken] at hstarts
  · refine ends_ite (fun hname => ?_) ?_
    · obtain rfl := eq_of_beq hname
      exact hown _ _
    · refine ends_ite (fun hname => ?_) ?_
      · obtain rfl := eq_of_beq hname
        exact hown _ _
      · refine ends_ite (fun _ => hown _ _) ?_
        refine ends_ite (fun hheading => ends_endInScope hp _ _ fun _ => ended_of_isHeading hheading) ?_
        refine ends_ite (fun hname => ?_) ?_
        · obtain rfl := eq_of_beq hname
          exact hown _ _
        · refine ends_ite (fun _ => hown _ _) ?_
          refine ends_ite (fun _ => .inl (soft_note hp _)) ?_
          refine ends_ite (fun _ => hown _ _) ?_
          refine ends_ite (fun _ => ends_closeThrough (soft_closeImplied hp _) ?_) (.inl (soft_note hp _))
          exact fun k hk => ended_of_isHtml (List.find?_some hk)

/-- **An end tag is recorded last.** -/
theorem ends_endTag (hp : p.Soft before) (name : String) (span : Span) :
    Ends before name span (p.endTag name span) := by
  unfold endTag
  refine ends_ite (fun _ => ends_endHtml hp) ?_
  split
  · rename_i k hfound
    split
    · exact ends_endHtml hp
    · rename_i hforeign
      refine ends_closeThrough hp ?_
      intro k' hk'
      obtain rfl := Option.some.inj (hfound.symm.trans hk')
      have hends := List.find?_some hfound
      rw [Key.endsForeign, Bool.or_eq_true] at hends
      exact .inl (hends.resolve_left hforeign)
  · exact .inl (soft_note hp _)

/-! ## What the actions are -/

/-- **What a start tag does, in order.** -/
theorem actions_startTag (opened : List Key) (tag : StartTag) :
    ∃ soft last, ((start opened).startTag tag).actions = soft ++ last ∧ (∀ a ∈ soft, a.Soft) ∧
      (takes opened tag = false ∧ last = [] ∨
        takes opened tag = true ∧ ∃ e stays, Own tag e ∧ last = [.insert e stays]) := by
  have hstarts := starts_startTag (soft_start opened) tag
  change Starts opened tag (takes opened tag) _ at hstarts
  cases htaken : takes opened tag with
  | false =>
    rw [htaken] at hstarts
    exact ⟨_, [], (List.append_nil _).symm, Soft.actions hstarts, .inl ⟨rfl, rfl⟩⟩
  | true =>
    rw [htaken] at hstarts
    obtain ⟨q, e, stays, hq, he, hp⟩ := hstarts
    exact ⟨q.actions, _, by rw [hp]; rfl, hq.actions, .inr ⟨rfl, e, stays, he, rfl⟩⟩

/-- **What an end tag does, in order.** -/
theorem actions_endTag (opened : List Key) (name : String) (span : Span) :
    ∃ soft last, ((start opened).endTag name span).actions = soft ++ last ∧ (∀ a ∈ soft, a.Soft) ∧
      (last = [] ∨
        (∃ k ∈ (soft.foldl Action.keysAfter opened).head?, Ended name k ∧ last = [.closeBy span]) ∨
        name = "br" ∧ ∃ e stays, Own ⟨"br", false, [], span⟩ e ∧ last = [.insert e stays]) := by
  rcases ends_endTag (soft_start opened) name span with
    hsoft | ⟨q, k, rest, hq, hopened, hk, hp⟩ | ⟨hbr, q, e, stays, hq, he, hp⟩
  · exact ⟨_, [], (List.append_nil _).symm, hsoft.actions, .inl rfl⟩
  · refine ⟨q.actions, _, by rw [hp], hq.actions, .inr (.inl ⟨k, ?_, hk, rfl⟩)⟩
    rw [hq.tracks, hopened]
    exact rfl
  · exact ⟨q.actions, _, by rw [hp]; rfl, hq.actions, .inr (.inr ⟨hbr, e, stays, he, rfl⟩)⟩

theorem insert_soft {e : Element} {stays : Bool} (h : (Action.insert e stays).Soft) :
    ∃ name ∈ leftOutNames, e = .ofName name := by
  cases h with
  | implied name hname => exact ⟨name, hname, rfl⟩

/-- A start tag adds its own element and left-out ones. -/
theorem insert_startTag {opened : List Key} {e : Element} {stays : Bool}
    (hi : .insert e stays ∈ ((start opened).startTag tag).actions) :
    (∃ name ∈ leftOutNames, e = .ofName name) ∨ Own tag e := by
  obtain ⟨soft, last, heq, hsoft, hlast⟩ := actions_startTag opened tag
  rw [heq] at hi
  rcases List.mem_append.1 hi with hi | hi
  · exact .inl (insert_soft (hsoft _ hi))
  · rcases hlast with ⟨-, rfl⟩ | ⟨-, e', stays', he, rfl⟩
    · exact absurd hi List.not_mem_nil
    · obtain ⟨rfl, -⟩ := Action.insert.inj (List.mem_singleton.1 hi)
      exact .inr he

/-- An end tag adds left-out elements, and a line break at most. -/
theorem insert_endTag {opened : List Key} {e : Element} {stays : Bool}
    (hi : .insert e stays ∈ ((start opened).endTag name span).actions) :
    (∃ implied ∈ leftOutNames, e = .ofName implied) ∨ name = "br" ∧ Own ⟨"br", false, [], span⟩ e := by
  obtain ⟨soft, last, heq, hsoft, hlast⟩ := actions_endTag opened name span
  rw [heq] at hi
  rcases List.mem_append.1 hi with hi | hi
  · exact .inl (insert_soft (hsoft _ hi))
  · rcases hlast with rfl | ⟨k, -, -, rfl⟩ | ⟨hbr, e', stays', he, rfl⟩
    · exact absurd hi List.not_mem_nil
    · exact absurd (List.mem_singleton.1 hi) nofun
    · obtain ⟨rfl, -⟩ := Action.insert.inj (List.mem_singleton.1 hi)
      exact .inr ⟨hbr, he⟩

end Plan

end LiveMarkup.Html
