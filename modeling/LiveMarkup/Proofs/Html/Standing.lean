/-
What tags add to the open elements.

Whatever a tag closes first, the element that it adds is settled where it is added, and so are the elements that
the text leaves out (`tracked_startTag`, `tracked_endTag`). So all elements that are ever open are settled among
those around them.
-/
import LiveMarkup.Proofs.Html.Lexing.Spelling
import LiveMarkup.Proofs.Html.Settled

set_option autoImplicit false

namespace LiveMarkup.Html

/-! ## What a tag adds -/

/-- A tag as the lexer reads it. -/
structure Legal (tag : StartTag) : Prop where
  name : LowerTag tag.name
  attributes : ∀ a ∈ tag.attributes, LowerAttribute a
  distinct : (tag.attributes.map (·.name)).Nodup

/-- Whether the tag of an element ends with a slash. -/
def selfCloses (e : Element) : Bool := e.location.any (·.selfClosing)

/-- An element stands among the open elements as a start tag puts it there. -/
structure Stands (opened : List Key) (tag : StartTag) (e : Element) : Prop where
  legal : Legal tag
  name : e.name = spellName e.space tag.name
  attributes : e.attributes = spellAttributes e.space tag.attributes
  html : e.space = .html → Plan.Settled opened tag.name
  foreign : e.space ≠ .html → Plan.SettledForeign opened e.space tag

/-- What a tag adds: an element that stands there. It stays open unless it can hold nothing. When its text is not
read as markup, it is the element of the tag itself. -/
structure Added (tag : StartTag) (opened : List Key) (e : Element) (stays : Bool) : Prop where
  stands : ∃ tag, Stands opened tag e
  stays : stays = !(e.isVoid || e.space != .html && selfCloses e)
  content : Content.ofElement e.name.toLower = .markup ∨
    e.name.toLower = tag.name ∧ e.location = some (.opened tag.span tag.selfClosing)

namespace Plan

section Start

variable {before : List Key} {p : Plan} {tag read : StartTag}

/-- No other language begins at the innermost element. -/
def Outside (opened : List Key) : Prop := opened.head?.any Key.isForeign = false

/-- Closing elements leaves the open ones tracked, outside of other languages, and with a property. -/
structure Leaves (Q : List Key → Element → Bool → Prop) (before : List Key) (S : List Key → Prop) (p : Plan) : Prop where
  tracked : Tracked Q before p
  outside : Outside p.opened
  left : S p.opened

theorem leaves_ite {Q : List Key → Element → Bool → Prop} {S : List Key → Prop} {c : Prop} [Decidable c] {q : Plan}
    (hp : c → Leaves Q before S p) (hq : ¬ c → Leaves Q before S q) : Leaves Q before S (if c then p else q) := by
  split
  · exact hp ‹_›
  · exact hq ‹_›

/-- An element of HTML is added where it is settled. -/
theorem tracked_insertHtml (hp : Tracked (Added read) before p) (hlegal : Legal tag) (h : Settled p.opened tag.name)
    (hcontent : Content.ofElement tag.name = .markup ∨ tag = read) :
    Tracked (Added read) before (p.insertHtml tag) := by
  have hlower : tag.name.toLower = tag.name := toLower_of_lower hlegal.name.lower
  have hvoid : (htmlElement tag).isVoid = isVoidName tag.name := by
    rw [Element.isVoid]
    exact Bool.true_and _
  refine tracked_insert hp ⟨⟨tag, hlegal, rfl, rfl, fun _ => h, fun hspace => absurd rfl hspace⟩, ?_, ?_⟩ ?_
  · rw [hvoid]
    exact congrArg _ (Bool.or_false _).symm
  · rcases hcontent with hcontent | rfl
    · left
      change Content.ofElement tag.name.toLower = _
      rw [hlower, hcontent]
    · exact .inr ⟨hlower, rfl⟩
  · intro hstays
    rw [Bool.not_eq_true'] at hstays
    exact ⟨fun _ => ⟨h, hstays⟩, hp.stack⟩

/-- An element of another language is added where its tag belongs to the language. -/
theorem tracked_insertForeign {space : Namespace} (hp : Tracked (Added tag) before p) (hlegal : Legal tag)
    (hspace : space ≠ .html) (h : SettledForeign p.opened space tag) :
    Tracked (Added tag) before (p.insertForeign tag space) := by
  have hlower : (spellName space tag.name).toLower = tag.name := by
    rw [lower_spellName, toLower_of_lower hlegal.name.lower]
  refine tracked_insert hp ⟨⟨tag, hlegal, rfl, rfl, fun heq => absurd heq hspace, fun _ => h⟩, ?_, ?_⟩ ?_
  · have hhtml : (space == .html) = false := beq_eq_false_iff_ne.2 hspace
    change (!tag.selfClosing) = !((space == .html && _) || space != .html && tag.selfClosing)
    rw [bne, hhtml]
    rfl
  · exact .inr ⟨hlower, rfl⟩
  · exact fun _ => ⟨fun heq => absurd heq hspace, hp.stack⟩

/-- An element that the text leaves out is added where it is settled. -/
theorem tracked_insertImplied {name : String} (hp : Tracked (Added read) before p) (hlegal : LowerTag name)
    (hvoid : isVoidName name = false) (hcontent : Content.ofElement name = .markup) (h : Settled p.opened name) :
    Tracked (Added read) before (p.insertImplied name) := by
  have hlower : name.toLower = name := toLower_of_lower hlegal.lower
  let tag : StartTag := ⟨name, false, [], ⟨0, 0⟩⟩
  have htag : Legal tag := ⟨hlegal, fun _ ha => absurd ha List.not_mem_nil, List.nodup_nil⟩
  refine tracked_insert (tracked_note hp _)
    ⟨⟨tag, htag, rfl, rfl, fun _ => h, fun hspace => absurd rfl hspace⟩, ?_, .inl ?_⟩ fun _ => ⟨fun _ => ⟨h, hvoid⟩, hp.stack⟩
  · have hopen : (Element.ofName name).isVoid = false := by
      rw [Element.isVoid]
      exact (Bool.true_and _).trans hvoid
    rw [hopen]
    rfl
  · change Content.ofElement name.toLower = _
    rw [hlower, hcontent]

/-! ## Parts of a table -/

section Table

variable {opened rest : List Key} {k : Key} {names : List String} {name : String}

theorem inTable_cons (hk : k.space = .html)
    (hname : k.name ∉ ["table", "td", "th", "caption", "html", "template"]) (h : InTable opened) :
    InTable (k :: opened) := by
  simp only [List.mem_cons, List.not_mem_nil, or_false, not_or] at hname
  have hbarrier : tableScopeNames.contains k.name = false := by
    rw [Bool.eq_false_iff]
    intro hc
    have hmem := List.contains_iff_mem.1 hc
    simp only [tableScopeNames, List.mem_cons, List.not_mem_nil, or_false] at hmem
    rcases hmem with heq | heq | heq
    · exact hname.2.2.2.2.1 heq
    · exact hname.1 heq
    · exact hname.2.2.2.2.2 heq
  refine ⟨?_, ?_, ?_, ?_⟩
  · rw [inScopeOf_html hk, hbarrier, h.table, Bool.not_false, Bool.and_true, Bool.or_true]
  · rw [inScopeOf_html hk, hbarrier, h.data, Bool.and_false, Bool.or_false, beq_eq_false_iff_ne]
    exact hname.2.1
  · rw [inScopeOf_html hk, hbarrier, h.header, Bool.and_false, Bool.or_false, beq_eq_false_iff_ne]
    exact hname.2.2.1
  · rw [inScopeOf_html hk, hbarrier, h.caption, Bool.and_false, Bool.or_false, beq_eq_false_iff_ne]
    exact hname.2.2.2.1

/-- What an element that is no table was opened in is in the table that the element is in. -/
theorem inTable_of_cons (hk : k.space ≠ .html ∨ k.name ≠ "table") (h : InTable (k :: opened)) :
    InTable opened ∧ (k.space = .html → k.name ≠ "template") := by
  by_cases hspace : k.space = .html
  · obtain ⟨htable, hdata, hheader, hcaption⟩ := h
    rw [inScopeOf_html hspace, beq_eq_false_iff_ne.2 (hk.resolve_left fun hne => hne hspace), Bool.false_or,
      Bool.and_eq_true, Bool.not_eq_true'] at htable
    obtain ⟨hbarrier, htable⟩ := htable
    rw [inScopeOf_html hspace, hbarrier, Bool.or_eq_false_iff, Bool.not_false, Bool.true_and] at hdata hheader hcaption
    refine ⟨⟨htable, hdata.2, hheader.2, hcaption.2⟩, ?_⟩
    rintro - heq
    rw [heq] at hbarrier
    exact absurd hbarrier (by decide)
  · obtain ⟨htable, hdata, hheader, hcaption⟩ := h
    rw [inScopeOf_foreign hspace] at htable hdata hheader hcaption
    exact ⟨⟨htable, hdata, hheader, hcaption⟩, fun heq => absurd heq hspace⟩

/-- **Elements are closed up to a part of the table, or the table.** -/
theorem inTable_dropWhile (htable : "table" ∈ names) (h : InTable opened) :
    ∃ k rest, opened.dropWhile (fun k => !k.isHtml names) = k :: rest ∧ k.space = .html ∧ k.name ∈ names ∧
      k.name ≠ "template" ∧ InTable (k :: rest) := by
  induction opened with
  | nil => exact absurd h.table Bool.false_ne_true
  | cons k rest ih =>
    rw [List.dropWhile_cons]
    cases hk : k.isHtml names with
    | true =>
      obtain ⟨hspace, hmem⟩ := isHtml_iff.1 hk
      refine ⟨k, rest, rfl, hspace, hmem, ?_, h⟩
      by_cases hname : k.name = "table"
      · rw [hname]
        decide
      · exact (inTable_of_cons (.inr hname) h).2 hspace
    | false =>
      rw [Bool.not_false, if_pos rfl]
      -- what is passed is not the table, so the table is still to come
      refine ih (inTable_of_cons ?_ h).1
      by_cases hspace : k.space = .html
      · refine .inr fun hname => ?_
        rw [isHtml_iff.2 ⟨hspace, hname ▸ htable⟩] at hk
        exact absurd hk nofun
      · exact .inl hspace

theorem outside_of_html (hk : k.space = .html) : Outside (k :: rest) := by
  rw [Outside, List.head?_cons, Option.any_some, Key.isForeign, hk]
  rfl

end Table

/-- A part of a table is settled in its parent. -/
theorem settled_tablePart {opened rest : List Key} {k : Key} {name : String} (hpart : tablePartNames.contains name = true)
    (hopened : opened = k :: rest) (hspace : k.space = .html) (hparent : k.name ∈ tableParents name)
    (h : InTable opened) : Settled opened name := by
  have hparent' : opened.head?.any (Key.isHtml (tableParents name)) = true := by
    rw [hopened, List.head?_cons, Option.any_some]
    exact isHtml_iff.2 ⟨hspace, hparent⟩
  have houtside : Outside opened := by
    rw [hopened]
    exact outside_of_html hspace
  have hname := List.contains_iff_mem.1 hpart
  simp only [tablePartNames, List.mem_cons, List.not_mem_nil, or_false] at hname
  rcases hname with rfl | rfl | rfl | rfl | rfl | rfl | rfl | rfl | rfl <;>
    exact ⟨by decide, houtside, h, hparent'⟩

/-- The cell that is open is closed. -/
theorem closeCell_spec {Q : List Key → Element → Bool → Prop} (hp : Tracked Q before p)
    (htable : p.inTableScope "table" = true) {q : Plan}
    (hq : q = if p.inTableScope "td" || p.inTableScope "th" then (p.closeImplied none).popThrough ["td", "th"] else p) :
    Tracked Q before q ∧ q.inTableScope "table" = true ∧ q.inTableScope "td" = false ∧ q.inTableScope "th" = false := by
  rw [hq]
  split
  · rename_i hscope
    have hcells : ∃ other ∈ ["td", "th"], Settled ((p.closeImplied none).popThrough ["td", "th"]).opened other := by
      rw [Bool.or_eq_true] at hscope
      rcases hscope with hscope | hscope
      · exact settled_closeImplied_popThrough _ none hp.stack hscope List.mem_cons_self (by decide)
      · exact settled_closeImplied_popThrough _ none hp.stack hscope (List.mem_cons_of_mem _ List.mem_cons_self)
          (by decide)
    obtain ⟨other, hmem, hsettled⟩ := hcells
    have hin : InTable ((p.closeImplied none).popThrough ["td", "th"]).opened := by
      rcases List.mem_cons.1 hmem with rfl | hmem
      · exact hsettled.byName.1
      · obtain rfl := List.mem_singleton.1 hmem
        exact hsettled.byName.1
    exact ⟨tracked_popThrough (tracked_closeImplied hp _) _, hin.table, hin.data, hin.header⟩
  · rename_i hscope
    rw [Bool.not_eq_true, Bool.or_eq_false_iff] at hscope
    exact ⟨hp, htable, hscope.1, hscope.2⟩

/-- The caption that is open is closed. -/
theorem closeCaption_spec {Q : List Key → Element → Bool → Prop} (hp : Tracked Q before p)
    (htable : p.inTableScope "table" = true) (hdata : p.inTableScope "td" = false)
    (hheader : p.inTableScope "th" = false) {q : Plan}
    (hq : q = if p.inTableScope "caption" then (p.closeImplied none).popThrough ["caption"] else p) :
    Tracked Q before q ∧ InTable q.opened := by
  rw [hq]
  split
  · rename_i hscope
    obtain ⟨other, hmem, hsettled⟩ := settled_closeImplied_popThrough ["caption"] none hp.stack hscope
      List.mem_cons_self (by decide)
    obtain rfl := List.mem_singleton.1 hmem
    exact ⟨tracked_popThrough (tracked_closeImplied hp _) _, hsettled.byName.1⟩
  · rename_i hscope
    exact ⟨hp, htable, hdata, hheader, Bool.eq_false_iff.2 hscope⟩

/-- The names of the parts of a table that may be left out. -/
theorem lowerTag_implied {name : String} (h : name ∈ leftOutNames) :
    LowerTag name ∧ isVoidName name = false ∧ Content.ofElement name = .markup := by
  simp only [leftOutNames, List.mem_cons, List.not_mem_nil, or_false] at h
  rcases h with rfl | rfl | rfl
  · exact ⟨lowerTag_of_letters (by decide) (List.all_iff_forall_prop.1 rfl), by cbv, by decide⟩
  · exact ⟨lowerTag_of_letters (by decide) (List.all_iff_forall_prop.1 rfl), by cbv, by decide⟩
  · exact ⟨lowerTag_of_letters (by decide) (List.all_iff_forall_prop.1 rfl), by cbv, by decide⟩

/-- The innermost element is a part of a table, or a table, of one of some names. -/
def CurrentIn (names : List String) (opened : List Key) : Prop :=
  ∃ k rest, opened = k :: rest ∧ k.space = .html ∧ k.name ∈ names ∧ InTable opened

theorem currentIs_iff {names : List String} (others : List String) (h : CurrentIn names p.opened) :
    ∃ k rest, p.opened = k :: rest ∧ k.space = .html ∧ k.name ∈ names ∧ InTable p.opened ∧
      (p.currentIs others = true ↔ k.name ∈ others) := by
  obtain ⟨k, rest, hopened, hspace, hmem, hin⟩ := h
  refine ⟨k, rest, hopened, hspace, hmem, hin, ?_⟩
  rw [currentIs, hopened, List.head?_cons, Option.any_some, isHtml_iff, and_iff_right hspace]

theorem currentIn_of_currentIs {names : List String} (h : p.currentIs names = true) (hin : InTable p.opened) :
    CurrentIn names p.opened := by
  unfold currentIs at h
  cases hopened : p.opened with
  | nil =>
    rw [hopened] at h
    exact absurd h nofun
  | cons k rest =>
    rw [hopened, List.head?_cons, Option.any_some] at h
    obtain ⟨hspace, hmem⟩ := isHtml_iff.1 h
    exact ⟨k, rest, rfl, hspace, hmem, hopened ▸ hin⟩

theorem clearBackTo_spec {Q : List Key → Element → Bool → Prop} (names kept : List String) (hp : Tracked Q before p)
    (hin : InTable p.opened) (htable : "table" ∈ names) (hkept : ∀ name ∈ names, name ≠ "template" → name ∈ kept) :
    Tracked Q before (p.clearBackTo names) ∧ CurrentIn kept (p.clearBackTo names).opened := by
  obtain ⟨k, rest, hdrop, hspace, hmem, hne, hrest⟩ := inTable_dropWhile htable hin
  have hopened : (p.clearBackTo names).opened = k :: rest := hdrop
  exact ⟨tracked_clearBackTo hp _, k, rest, hopened, hspace, hkept _ hmem hne, by rwa [hopened]⟩

/-- A part of a table that the text leaves out is added in its parent. -/
theorem insertImplied_spec (name : String) (hp : Tracked (Added read) before p)
    (himplied : name ∈ leftOutNames) (h : CurrentIn (tableParents name) p.opened) :
    Tracked (Added read) before (p.insertImplied name) ∧ CurrentIn [name] (p.insertImplied name).opened := by
  obtain ⟨k, rest, hopened, hspace, hmem, hin⟩ := h
  obtain ⟨hlegal, hvoid, hcontent⟩ := lowerTag_implied himplied
  have hpart : tablePartNames.contains name = true ∧
      name ∉ ["table", "td", "th", "caption", "html", "template"] := by
    simp only [leftOutNames, List.mem_cons, List.not_mem_nil, or_false] at himplied
    rcases himplied with rfl | rfl | rfl <;> decide
  have hsettled := settled_tablePart hpart.1 hopened hspace hmem hin
  refine ⟨tracked_insertImplied hp hlegal hvoid hcontent hsettled, ⟨.html, name⟩, p.opened, rfl, rfl,
    List.mem_cons_self, ?_⟩
  exact inTable_cons rfl hpart.2 hin

/-- The group that the text leaves out is added. -/
theorem insertBody_spec {others : List String} (hp : Tracked (Added read) before p)
    (h : CurrentIn ("table" :: others) p.opened) (hbody : "tbody" ∈ others) {q : Plan}
    (hq : q = if p.currentIs ["table"] then p.insertImplied "tbody" else p) :
    Tracked (Added read) before q ∧ CurrentIn others q.opened := by
  obtain ⟨k, rest, hopened, hspace, hmem, hin, hiff⟩ := currentIs_iff ["table"] h
  rw [hq]
  split
  · rename_i hcurrent
    obtain ⟨htracked, k', rest', hopened', hspace', hmem', hin'⟩ := insertImplied_spec _ hp List.mem_cons_self
      ⟨k, rest, hopened, hspace, hiff.1 hcurrent, hin⟩
    refine ⟨htracked, k', rest', hopened', hspace', ?_, hin'⟩
    rw [List.mem_singleton.1 hmem']
    exact hbody
  · rename_i hcurrent
    refine ⟨hp, k, rest, hopened, hspace, ?_, hin⟩
    refine (List.mem_cons.1 hmem).resolve_left fun heq => hcurrent (hiff.2 ?_)
    rw [heq]
    exact List.mem_cons_self

/-- The row that the text leaves out is added. -/
theorem insertRow_spec (hp : Tracked (Added read) before p) (h : CurrentIn ("tr" :: rowGroupNames) p.opened) {q : Plan}
    (hq : q = if p.currentIs rowGroupNames then p.insertImplied "tr" else p) :
    Tracked (Added read) before q ∧ CurrentIn ["tr"] q.opened := by
  obtain ⟨k, rest, hopened, hspace, hmem, hin, hiff⟩ := currentIs_iff rowGroupNames h
  rw [hq]
  split
  · rename_i hcurrent
    exact insertImplied_spec _ hp (List.mem_cons_of_mem _ List.mem_cons_self)
      ⟨k, rest, hopened, hspace, hiff.1 hcurrent, hin⟩
  · rename_i hcurrent
    refine ⟨hp, k, rest, hopened, hspace, ?_, hin⟩
    rw [(List.mem_cons.1 hmem).resolve_right fun hgroup => hcurrent (hiff.2 hgroup)]
    exact List.mem_cons_self

/-- **A part of a table is added where it is settled.** -/
theorem tracked_startTablePart (hp : Tracked (Added read) before p) (hlegal : Legal tag)
    (hpart : tablePartNames.contains tag.name = true) : Tracked (Added read) before (p.startTablePart tag) := by
  have hcontent : Content.ofElement tag.name = .markup := by
    have hall : ∀ name ∈ tablePartNames, Content.ofElement name = .markup := by decide
    exact hall _ (List.contains_iff_mem.1 hpart)
  have hinsert : ∀ {x : Plan}, Tracked (Added read) before x → CurrentIn (tableParents tag.name) x.opened →
      Tracked (Added read) before (x.insertHtml tag) := by
    rintro x hx ⟨k, rest, hopened, hspace, hmem, hin⟩
    exact tracked_insertHtml hx hlegal (settled_tablePart hpart hopened hspace hmem hin) (.inl hcontent)
  -- in the order of the rule: a cell is closed, then a caption, then what is left out is added
  unfold startTablePart
  refine tracked_ite (fun _ => tracked_note hp _) fun htable => ?_
  rw [Bool.not_eq_true', Bool.not_eq_false] at htable
  dsimp only
  generalize hq : (if p.inTableScope "td" || p.inTableScope "th" then _ else p) = q
  obtain ⟨hq, hqtable, hqdata, hqheader⟩ := closeCell_spec hp htable hq.symm
  generalize hr : (if q.inTableScope "caption" then _ else q) = r
  obtain ⟨hr, hin⟩ := closeCaption_spec hq hqtable hqdata hqheader hr.symm
  refine tracked_ite (fun hcol => ?_) fun hcol => ?_
  · have hparents : tableParents tag.name = ["colgroup"] := if_pos hcol
    refine tracked_ite (fun hcurrent => hinsert hr ?_) fun _ => ?_
    · rw [hparents]
      exact currentIn_of_currentIs hcurrent hin
    · obtain ⟨hx, hxin⟩ := clearBackTo_spec ["table", "template"] ["table"] hr hin
        List.mem_cons_self (by decide)
      obtain ⟨hy, hyin⟩ := insertImplied_spec "colgroup" hx (by decide) hxin
      exact hinsert hy (by rwa [hparents])
  refine tracked_ite (fun hrow => ?_) fun hrow => ?_
  · have hparents : tableParents tag.name = rowGroupNames := (if_neg hcol).trans (if_pos hrow)
    obtain ⟨hx, hxin⟩ := clearBackTo_spec (rowGroupNames ++ ["table", "template"])
      ("table" :: rowGroupNames) hr hin (by decide) (by decide)
    generalize hy : (if Plan.currentIs _ ["table"] then _ else _ : Plan) = y
    obtain ⟨hy, hyin⟩ := insertBody_spec hx hxin (by decide) hy.symm
    exact hinsert hy (by rwa [hparents])
  refine tracked_ite (fun hcell => ?_) fun hcell => ?_
  · have hparents : tableParents tag.name = ["tr"] := ((if_neg hcol).trans (if_neg hrow)).trans (if_pos hcell)
    obtain ⟨hx, hxin⟩ := clearBackTo_spec ("tr" :: rowGroupNames ++ ["table", "template"])
      ("table" :: "tr" :: rowGroupNames) hr hin (by decide) (by decide)
    generalize hy : (if Plan.currentIs _ ["table"] then _ else _ : Plan) = y
    obtain ⟨hy, hyin⟩ := insertBody_spec hx hxin (by decide) hy.symm
    generalize hz : (if y.currentIs rowGroupNames then _ else _ : Plan) = z
    obtain ⟨hz, hzin⟩ := insertRow_spec hy hyin hz.symm
    exact hinsert hz (by rwa [hparents])
  · have hparents : tableParents tag.name = ["table"] := ((if_neg hcol).trans (if_neg hrow)).trans (if_neg hcell)
    obtain ⟨hx, hxin⟩ := clearBackTo_spec ["table", "template"] ["table"] hr hin
      List.mem_cons_self (by decide)
    exact hinsert hx (by rwa [hparents])

/-! ## What start tags close -/

section Closing

variable {Q : List Key → Element → Bool → Prop}

/-- The list item that a new one ends is open. -/
theorem exists_of_openListItem? {names : List String} {opened : List Key} {name : String}
    (h : openListItem? names opened = some name) : name ∈ names ∧ ∃ k ∈ opened, k.isHtml [name] = true := by
  induction opened with
  | nil => exact absurd h nofun
  | cons k rest ih =>
    rw [openListItem?] at h
    split at h
    · rename_i hk
      obtain ⟨hspace, hmem⟩ := isHtml_iff.1 hk
      obtain rfl := Option.some.inj h
      exact ⟨hmem, k, List.mem_cons_self, isHtml_iff.2 ⟨hspace, List.mem_cons_self⟩⟩
    · split at h
      · exact absurd h nofun
      · obtain ⟨hmem, k', hk', hname⟩ := ih h
        exact ⟨hmem, k', List.mem_cons_of_mem _ hk', hname⟩

/-- A list item that is ended is closed with all that is open inside it. -/
theorem opened_closeListItem {names : List String} {name : String} (h : openListItem? names p.opened = some name) :
    ∃ k rest, p.opened.dropWhile (fun k => !k.isHtml [name]) = k :: rest ∧ k.isHtml [name] = true ∧
      (p.closeListItem names).opened = rest := by
  obtain ⟨k, rest, hdrop, hk⟩ := dropWhile_of_exists (exists_of_openListItem? h).2
  have hclosed : ((p.closeImplied (some name)).popWhile fun k => !k.isHtml [name]).opened = k :: rest := by
    change (p.opened.dropWhile _).dropWhile _ = _
    rw [dropWhile_dropWhile, hdrop]
    intro k hk
    obtain ⟨-, hmem⟩ := isHtml_iff.1 hk
    have hne := (List.mem_filter.1 hmem).2
    rw [Bool.not_eq_true', Bool.eq_false_iff]
    intro hc
    rw [List.mem_singleton.1 (isHtml_iff.1 hc).2] at hne
    exact absurd rfl (bne_iff_ne.1 hne)
  refine ⟨k, rest, hdrop, hk, ?_⟩
  unfold closeListItem
  rw [h]
  unfold closeThrough
  dsimp only
  rw [hclosed, pop, hclosed]

/-- No paragraph is left open. -/
theorem leaves_closeParagraph (hp : Tracked Q before p) (ho : Outside p.opened) :
    Leaves Q before NoParagraph p.closeParagraph := by
  refine leaves_ite (fun hscope => ?_) fun hscope => ⟨hp, ho, Bool.eq_false_iff.2 hscope⟩
  obtain ⟨other, hmem, hsettled⟩ := settled_closeImplied_popThrough ["p"] (some "p") hp.stack hscope
    List.mem_cons_self (by decide)
  obtain rfl := List.mem_singleton.1 hmem
  exact ⟨tracked_popThrough (tracked_closeImplied hp _) _, hsettled.outside, hsettled.byName⟩

/-- A list item that is ended leaves what it was opened in. -/
theorem leaves_closeListItem (hp : Tracked Q before p) (ho : Outside p.opened) (names : List String) :
    Leaves Q before (fun _ => True) (p.closeListItem names) := by
  cases hitem : openListItem? names p.opened with
  | none =>
    have hsame : p.closeListItem names = p := by rw [closeListItem, hitem]
    rw [hsame]
    exact ⟨hp, ho, trivial⟩
  | some name =>
    obtain ⟨k, rest, hdrop, hk, hopened⟩ := opened_closeListItem hitem
    have hstack := stack_dropWhile hp.stack fun k => !k.isHtml [name]
    rw [hdrop] at hstack
    refine ⟨?_, ?_, trivial⟩
    · unfold closeListItem
      rw [hitem]
      exact tracked_closeThrough (tracked_closeImplied hp _) _ _
    · rw [hopened]
      exact (hstack.1 (isHtml_iff.1 hk).1).1.outside

/-- An element that is closed when it is innermost was settled in what it was opened in. -/
theorem settled_pop {names : List String} (hstack : Stack p.opened) (h : p.currentIs names = true) :
    ∃ other ∈ names, Settled p.pop.opened other := by
  unfold currentIs at h
  unfold pop
  cases hopened : p.opened with
  | nil =>
    rw [hopened] at h
    exact absurd h nofun
  | cons k rest =>
    rw [hopened, List.head?_cons, Option.any_some] at h
    obtain ⟨hspace, hmem⟩ := isHtml_iff.1 h
    rw [hopened] at hstack
    exact ⟨k.name, hmem, (hstack.1 hspace).1⟩

/-- A heading that a heading ends leaves no heading and no paragraph. -/
theorem leaves_heading (hp : Leaves Q before NoParagraph p) (deviation : Deviation) :
    Leaves Q before (fun opened => NoParagraph opened ∧ NotIn headings opened)
      (if p.currentIs headings then (p.note deviation).pop else p) := by
  refine leaves_ite (fun hcurrent => ?_) fun hcurrent =>
    ⟨hp.tracked, hp.outside, hp.left, Bool.eq_false_iff.2 hcurrent⟩
  have hnoted := tracked_note hp.tracked deviation
  obtain ⟨other, hmem, hsettled⟩ := settled_pop hnoted.stack hcurrent
  refine ⟨tracked_pop hnoted, hsettled.outside, ?_⟩
  simp only [headings, List.mem_cons, List.not_mem_nil, or_false] at hmem
  rcases hmem with rfl | rfl | rfl | rfl | rfl | rfl <;> exact hsettled.byName

/-- A button that a button ends leaves no button. -/
theorem leaves_button (hp : Tracked Q before p) (ho : Outside p.opened) (deviation : Deviation) :
    Leaves Q before (fun opened => inScopeOf "button" scopeNames true opened = false)
      (if p.inScope "button" then ((p.note deviation).closeImplied none).popThrough ["button"] else p) := by
  refine leaves_ite (fun hscope => ?_) fun hscope => ⟨hp, ho, Bool.eq_false_iff.2 hscope⟩
  have hnoted := tracked_note hp deviation
  obtain ⟨other, hmem, hsettled⟩ := settled_closeImplied_popThrough ["button"] none hnoted.stack hscope
    List.mem_cons_self (by decide)
  obtain rfl := List.mem_singleton.1 hmem
  exact ⟨tracked_popThrough (tracked_closeImplied hnoted _) _, hsettled.outside, hsettled.byName⟩

/-- A link that a link ends leaves no link. -/
theorem leaves_link (hp : Tracked Q before p) (ho : Outside p.opened) (deviation : Deviation) :
    Leaves Q before (fun opened => inScopeOf "a" scopeNames true opened = false)
      (if p.inScope "a" then (p.note deviation).popThrough ["a"] else p) := by
  refine leaves_ite (fun hscope => ?_) fun hscope => ⟨hp, ho, Bool.eq_false_iff.2 hscope⟩
  have hnoted := tracked_note hp deviation
  obtain ⟨other, hmem, hsettled⟩ := settled_popThrough ["a"] hnoted.stack hscope List.mem_cons_self
  obtain rfl := List.mem_singleton.1 hmem
  exact ⟨tracked_popThrough hnoted _, hsettled.outside, hsettled.byName⟩

/-- An option that an option ends leaves no option. -/
theorem leaves_option (hp : Tracked Q before p) (ho : Outside p.opened) :
    Leaves Q before (NotIn ["option"]) (if p.currentIs ["option"] then p.pop else p) := by
  refine leaves_ite (fun hcurrent => ?_) fun hcurrent => ⟨hp, ho, Bool.eq_false_iff.2 hcurrent⟩
  obtain ⟨other, hmem, hsettled⟩ := settled_pop hp.stack hcurrent
  obtain rfl := List.mem_singleton.1 hmem
  exact ⟨tracked_pop hp, hsettled.outside, hsettled.byName⟩

/-- In ruby text, an element that is ended because its end tag may be left out leaves none like it. -/
theorem leaves_ruby (hp : Tracked Q before p) (ho : Outside p.opened) (except : Option String) :
    Leaves Q before (fun opened => inScopeOf "ruby" scopeNames true opened = true →
        NotIn (impliedEndNames.filter fun name => except != some name) opened)
      (if p.inScope "ruby" then p.closeImplied except else p) := by
  refine leaves_ite (fun _ => ⟨tracked_closeImplied hp _, ?_, fun _ => ?_⟩)
    fun hscope => ⟨hp, ho, fun hc => absurd hc hscope⟩
  · exact outside_dropWhile (fun k hk => (isHtml_iff.1 hk).1) hp.stack ho
  · have hhead := List.head?_dropWhile_not (Key.isHtml (impliedEndNames.filter fun name => except != some name)) p.opened
    unfold NotIn closeImplied popWhile
    dsimp only
    cases hdrop : p.opened.dropWhile _ with
    | nil => rfl
    | cons k rest =>
      rw [hdrop] at hhead
      exact hhead

end Closing

/-! ## Start tags -/

theorem lowerTag_img : LowerTag "img" := lowerTag_of_letters (by decide) (List.all_iff_forall_prop.1 rfl)

theorem settled_img {opened : List Key} (ho : Outside opened) : Settled opened "img" := ⟨by decide, ho, trivial⟩

/-- **An element of HTML is added where it is settled**, whatever its tag closes first. -/
theorem tracked_startHtml (hp : Tracked (Added tag) before p) (hlegal : Legal tag) (ho : Outside p.opened) :
    Tracked (Added tag) before (p.startHtml tag) := by
  by_cases himage : tag.name = "image"
  · rw [startHtml_image himage]
    have hcontent : Content.ofElement "img" = .markup := by decide
    exact tracked_insertHtml (tracked_note hp _) ⟨lowerTag_img, hlegal.attributes, hlegal.distinct⟩ (settled_img ho)
      (.inl hcontent)
  unfold startHtml
  refine tracked_ite (fun _ => tracked_note hp _) fun hignored => ?_
  refine tracked_ite (fun hsvg => ?_) fun hsvg => ?_
  · exact tracked_insertForeign hp hlegal nofun (.inr ⟨ho, .inl ⟨eq_of_beq hsvg, rfl⟩⟩)
  refine tracked_ite (fun hmath => ?_) fun hmath => ?_
  · exact tracked_insertForeign hp hlegal nofun (.inr ⟨ho, .inr ⟨eq_of_beq hmath, rfl⟩⟩)
  have howned : unownedNames.contains tag.name = false := by
    rw [Bool.eq_false_iff, unownedNames]
    intro hc
    rcases List.mem_append.1 (List.contains_iff_mem.1 hc) with hc | hc
    · exact hignored (List.contains_iff_mem.2 hc)
    · simp only [List.mem_cons, List.not_mem_nil, or_false] at hc
      rcases hc with hc | hc | hc
      · exact hsvg (beq_iff_eq.2 hc)
      · exact hmath (beq_iff_eq.2 hc)
      · exact himage hc
  -- one rule after the other, and what it asks of the open elements along with it
  have hinsert : ∀ {q : Plan}, Leaves (Added tag) before (fun opened => SettledBy opened tag.name) q →
      Tracked (Added tag) before (q.insertHtml tag) :=
    fun hq => tracked_insertHtml hq.tracked hlegal ⟨howned, hq.outside, hq.left⟩ (.inr rfl)
  unfold SettledBy at hinsert
  refine tracked_ite (fun h => ?_) fun h => ?_
  · simp only [if_pos h] at hinsert
    exact hinsert (leaves_closeParagraph hp ho)
  simp only [if_neg h] at hinsert
  refine tracked_ite (fun h => ?_) fun h => ?_
  · simp only [if_pos h] at hinsert
    exact hinsert (leaves_heading (leaves_closeParagraph hp ho) _)
  simp only [if_neg h] at hinsert
  refine tracked_ite (fun h => ?_) fun h => ?_
  · simp only [if_pos h] at hinsert
    have hitem := leaves_closeListItem hp ho ["li"]
    exact hinsert (leaves_closeParagraph hitem.tracked hitem.outside)
  simp only [if_neg h] at hinsert
  refine tracked_ite (fun h => ?_) fun h => ?_
  · simp only [if_pos h] at hinsert
    have hitem := leaves_closeListItem hp ho ["dd", "dt"]
    exact hinsert (leaves_closeParagraph hitem.tracked hitem.outside)
  simp only [if_neg h] at hinsert
  refine tracked_ite (fun h => ?_) fun h => ?_
  · simp only [if_pos h] at hinsert
    exact hinsert (leaves_button hp ho _)
  simp only [if_neg h] at hinsert
  refine tracked_ite (fun h => ?_) fun h => ?_
  · simp only [if_pos h] at hinsert
    exact hinsert (leaves_link hp ho _)
  simp only [if_neg h] at hinsert
  refine tracked_ite (fun h => ?_) fun h => ?_
  · simp only [if_pos h] at hinsert
    exact hinsert (leaves_option hp ho)
  simp only [if_neg h] at hinsert
  refine tracked_ite (fun h => ?_) fun h => ?_
  · simp only [if_pos h] at hinsert
    exact hinsert (leaves_ruby hp ho none)
  simp only [if_neg h] at hinsert
  refine tracked_ite (fun h => ?_) fun h => ?_
  · simp only [if_pos h] at hinsert
    exact hinsert (leaves_ruby hp ho (some "rtc"))
  simp only [if_neg h] at hinsert
  refine tracked_ite (fun h => absurd (eq_of_beq h) himage) fun _ => ?_
  refine tracked_ite (fun h => ?_) fun h => ?_
  · exact tracked_startTablePart hp hlegal h
  · simp only [if_neg h] at hinsert
    exact hinsert ⟨hp, ho, trivial⟩

/-- Elements of other languages that a tag breaks out of are left. -/
theorem leaves_breakOut {Q : List Key → Element → Bool → Prop} (hp : Tracked Q before p) (deviation : Deviation) :
    Leaves Q before (fun _ => True) ((p.note deviation).popWhile Key.isForeign) := by
  refine ⟨tracked_popWhile (tracked_note hp _) _, ?_, trivial⟩
  have hhead := List.head?_dropWhile_not Key.isForeign p.opened
  unfold Outside popWhile
  dsimp only
  change (p.opened.dropWhile _).head?.any _ = false
  cases hdrop : p.opened.dropWhile Key.isForeign with
  | nil => rfl
  | cons k rest =>
    rw [hdrop] at hhead
    exact hhead

/-- **What a start tag adds is settled where it is added.** -/
theorem tracked_startTag (hp : Tracked (Added tag) before p) (hlegal : Legal tag) :
    Tracked (Added tag) before (p.startTag tag) := by
  unfold startTag
  refine tracked_ite (fun hforeign => ?_) fun hforeign => ?_
  · refine tracked_ite (fun _ => ?_) fun hbreaks => ?_
    · have hleft := leaves_breakOut hp (.breaksOut tag.name)
      exact tracked_startHtml hleft.tracked hlegal hleft.outside
    · refine tracked_insertForeign hp hlegal ?_ (.inl ⟨hforeign, rfl, Bool.eq_false_iff.2 hbreaks⟩)
      unfold inForeign at hforeign
      unfold currentSpace
      cases hopened : p.opened with
      | nil =>
        rw [hopened] at hforeign
        exact absurd hforeign nofun
      | cons k rest =>
        rw [hopened, List.head?_cons, Option.any_some, Key.isForeign, Bool.and_eq_true] at hforeign
        exact bne_iff_ne.1 hforeign.1
  · exact tracked_startHtml hp hlegal (Bool.eq_false_iff.2 hforeign)

/-! ## End tags -/

theorem tracked_closeNamed {Q : List Key → Element → Bool → Prop} (hp : Tracked Q before p) (names : List String)
    (span : Span) : Tracked Q before (p.closeNamed names span) :=
  tracked_ite (fun _ => tracked_closeThrough hp _ _) fun _ => hp

theorem tracked_endInScope {Q : List Key → Element → Bool → Prop} (hp : Tracked Q before p) (scope : Bool)
    (name : String) (except : Option String) (names : List String) (span : Span) :
    Tracked Q before (p.endInScope scope name except names span) :=
  tracked_ite (fun _ => tracked_closeNamed (tracked_closeImplied hp _) _ _) fun _ => tracked_note hp _

/-- The tag of a line break, as its end tag is read. -/
def lineBreak (span : Span) : StartTag := ⟨"br", false, [], span⟩

theorem lowerTag_br : LowerTag "br" := lowerTag_of_letters (by decide) (List.all_iff_forall_prop.1 rfl)

theorem legal_lineBreak (span : Span) : Legal (lineBreak span) :=
  ⟨lowerTag_br, fun _ ha => absurd ha List.not_mem_nil, List.nodup_nil⟩

theorem tracked_endHtml {name : String} {span : Span} (hp : Tracked (Added (lineBreak span)) before p) :
    Tracked (Added (lineBreak span)) before (p.endHtml name span) := by
  unfold endHtml
  refine tracked_ite (fun _ => tracked_note hp _) fun _ => ?_
  refine tracked_ite (fun _ => tracked_startTag (tracked_note hp _) (legal_lineBreak span)) fun _ => ?_
  refine tracked_ite (fun _ => tracked_endInScope hp _ _ _ _ _) fun _ => ?_
  refine tracked_ite (fun _ => tracked_endInScope hp _ _ _ _ _) fun _ => ?_
  refine tracked_ite (fun _ => tracked_endInScope hp _ _ _ _ _) fun _ => ?_
  refine tracked_ite (fun _ => tracked_endInScope hp _ _ _ _ _) fun _ => ?_
  refine tracked_ite (fun _ => tracked_endInScope hp _ _ _ _ _) fun _ => ?_
  refine tracked_ite (fun _ => tracked_endInScope hp _ _ _ _ _) fun _ => ?_
  refine tracked_ite (fun _ => tracked_note hp _) fun _ => ?_
  refine tracked_ite (fun _ => tracked_endInScope hp _ _ _ _ _) fun _ => ?_
  exact tracked_ite (fun _ => tracked_closeThrough (tracked_closeImplied hp _) _ _) fun _ => tracked_note hp _

/-- **What an end tag adds is settled where it is added**; it is a line break. -/
theorem tracked_endTag {name : String} {span : Span} (hp : Tracked (Added (lineBreak span)) before p) :
    Tracked (Added (lineBreak span)) before (p.endTag name span) := by
  unfold endTag
  refine tracked_ite (fun _ => tracked_endHtml hp) fun _ => ?_
  split
  · exact tracked_ite (fun _ => tracked_endHtml hp) fun _ => tracked_closeThrough hp _ _
  · exact tracked_note hp _

end Start

end Plan

end LiveMarkup.Html
