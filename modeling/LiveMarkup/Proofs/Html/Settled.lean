/-
Elements that stand where their tags put them.

A start tag closes elements before its element is added. Read once more where the element stands, it has
nothing left to close: the element is settled there (`Settled`). Every element on the stack of open elements is
settled among those around it (`Stack`). So when an element is closed, what it was opened in is left, and the
element is settled there (`settled_popThrough`). Plans that keep the stack of open elements so are tracked
(`Tracked`).
-/
import LiveMarkup.Proofs.Html.Shape

set_option autoImplicit false

namespace LiveMarkup.Html

namespace Plan

/-! ## Settled elements -/

/-- No paragraph is open in button scope. -/
def NoParagraph (opened : List Key) : Prop := inScopeOf "p" buttonScopeNames true opened = false

/-- The innermost element is none of HTML of some names. -/
def NotIn (names : List String) (opened : List Key) : Prop := opened.head?.any (Key.isHtml names) = false

/-- A table is open, and no cell and no caption is open in it. -/
structure InTable (opened : List Key) : Prop where
  table : inScopeOf "table" tableScopeNames false opened = true
  data : inScopeOf "td" tableScopeNames false opened = false
  header : inScopeOf "th" tableScopeNames false opened = false
  caption : inScopeOf "caption" tableScopeNames false opened = false

/-- The elements that a part of a table stands in. -/
def tableParents (name : String) : List String :=
  if name == "col" then ["colgroup"]
  else if name == "tr" then rowGroupNames
  else if name == "td" || name == "th" then ["tr"]
  else ["table"]

/-- What a start tag of a name would still close. -/
def SettledBy (opened : List Key) (name : String) : Prop :=
  if blockStartNames.contains name then NoParagraph opened
  else if headings.contains name then NoParagraph opened ∧ NotIn headings opened
  else if name == "li" then NoParagraph opened
  else if name == "dd" || name == "dt" then NoParagraph opened
  else if name == "button" then inScopeOf "button" scopeNames true opened = false
  else if name == "a" then inScopeOf "a" scopeNames true opened = false
  else if name == "option" || name == "optgroup" then NotIn ["option"] opened
  else if name == "rb" || name == "rtc" then
    inScopeOf "ruby" scopeNames true opened = true → NotIn (impliedEndNames.filter fun name => none != some name) opened
  else if name == "rp" || name == "rt" then
    inScopeOf "ruby" scopeNames true opened = true →
      NotIn (impliedEndNames.filter fun name => some "rtc" != some name) opened
  else if tablePartNames.contains name then
    InTable opened ∧ opened.head?.any (Key.isHtml (tableParents name)) = true
  else True

/-- The names of start tags that add no element of HTML of that name. -/
def unownedNames : List String := ignoredStartNames ++ ["svg", "math", "image"]

/-- An element of HTML of a name is settled among the open elements: its start tag would close none of them,
unless it is a list item and ends one. -/
structure Settled (opened : List Key) (name : String) : Prop where
  owned : unownedNames.contains name = false
  outside : opened.head?.any Key.isForeign = false
  byName : SettledBy opened name

/-- An element of another language is settled among the open elements: its start tag belongs to the language
there. -/
def SettledForeign (opened : List Key) (space : Namespace) (tag : StartTag) : Prop :=
  opened.head?.any Key.isForeign = true ∧ (start opened).currentSpace = space ∧
      breaksOut tag.name tag.attributes = false ∨
    opened.head?.any Key.isForeign = false ∧ (tag.name = "svg" ∧ space = .svg ∨ tag.name = "math" ∧ space = .mathml)

/-- Every element of HTML on a stack is settled among those that it was opened in. -/
def Stack : List Key → Prop
  | [] => True
  | k :: rest => (k.space = .html → Settled rest k.name ∧ isVoidName k.name = false) ∧ Stack rest

/-! ## Scopes -/

section Scope

variable {opened rest : List Key} {k : Key} {names barriers : List String} {name : String} {foreign : Bool}

theorem isHtml_iff : k.isHtml names = true ↔ k.space = .html ∧ k.name ∈ names := by
  rw [Key.isHtml, Bool.and_eq_true, beq_iff_eq, List.contains_iff_mem]

theorem stack_dropWhile (h : Stack opened) (f : Key → Bool) : Stack (opened.dropWhile f) := by
  induction opened with
  | nil => exact h
  | cons k rest ih =>
    rw [List.dropWhile_cons]
    split
    · exact ih h.2
    · exact h

theorem inScopeOf_html (h : k.space = .html) : inScopeOf name barriers foreign (k :: rest)
    = (k.name == name || (!barriers.contains k.name && inScopeOf name barriers foreign rest)) := by
  rw [inScopeOf, h, beq_self_eq_true, if_pos rfl]

theorem inScopeOf_foreign (h : k.space ≠ .html) : inScopeOf name barriers false (k :: rest)
    = inScopeOf name barriers false rest := by
  rw [inScopeOf, beq_eq_false_iff_ne.2 h, if_neg Bool.false_ne_true, Bool.false_and, Bool.not_false, Bool.true_and]

/-- Elements are closed up to one that there is. -/
theorem dropWhile_of_exists {f : Key → Bool} (h : ∃ k ∈ opened, f k = true) :
    ∃ k rest, opened.dropWhile (fun k => !f k) = k :: rest ∧ f k = true := by
  induction opened with
  | nil =>
    obtain ⟨k, hk, -⟩ := h
    exact absurd hk List.not_mem_nil
  | cons k rest ih =>
    rw [List.dropWhile_cons]
    cases hk : f k with
    | true => exact ⟨k, rest, rfl, hk⟩
    | false =>
      obtain ⟨k', hk', hf⟩ := h
      rcases List.mem_cons.1 hk' with rfl | hk'
      · rw [hf] at hk
        exact absurd hk nofun
      · exact ih ⟨k', hk', hf⟩

/-- The element that is found in scope is on the stack. -/
theorem exists_of_inScopeOf (h : inScopeOf name barriers foreign opened = true) (hname : name ∈ names) :
    ∃ k ∈ opened, k.isHtml names = true := by
  induction opened with
  | nil => exact absurd h Bool.false_ne_true
  | cons k rest ih =>
    rw [inScopeOf] at h
    have hrest (h : inScopeOf name barriers foreign rest = true) : ∃ k' ∈ k :: rest, k'.isHtml names = true := by
      obtain ⟨k', hk', hnames⟩ := ih h
      exact ⟨k', List.mem_cons_of_mem _ hk', hnames⟩
    split at h
    · rename_i hspace
      rcases Bool.or_eq_true _ _ ▸ h with h | h
      · exact ⟨k, List.mem_cons_self, isHtml_iff.2 ⟨eq_of_beq hspace, eq_of_beq h ▸ hname⟩⟩
      · exact hrest (Bool.and_eq_true _ _ ▸ h).2
    · exact hrest (Bool.and_eq_true _ _ ▸ h).2

/-- Closing some elements first does not matter when elements are closed that include them. -/
theorem dropWhile_dropWhile {f g : Key → Bool} (h : ∀ k, f k = true → g k = true) (opened : List Key) :
    (opened.dropWhile f).dropWhile g = opened.dropWhile g := by
  induction opened with
  | nil => rfl
  | cons k rest ih =>
    rw [List.dropWhile_cons, List.dropWhile_cons]
    cases hf : f k with
    | true => rw [if_pos rfl, if_pos (h k hf), ih]
    | false => rw [if_neg Bool.false_ne_true, List.dropWhile_cons]

/-- Where elements of HTML are closed, no other language begins. -/
theorem outside_dropWhile {f : Key → Bool} (hf : ∀ k, f k = true → k.space = .html) (h : Stack opened)
    (ho : opened.head?.any Key.isForeign = false) : (opened.dropWhile f).head?.any Key.isForeign = false := by
  induction opened with
  | nil => exact ho
  | cons k rest ih =>
    rw [List.dropWhile_cons]
    split
    · rename_i hk
      exact ih h.2 (h.1 (hf k hk)).1.outside
    · exact ho

end Scope

/-! ## Plans that keep the stack -/

/-- What actions add is added where a property holds of it. -/
def Inserts (Q : List Key → Element → Bool → Prop) : List Key → List Action → Prop
  | _, [] => True
  | opened, a :: rest =>
    (∀ e stays, a = .insert e stays → Q opened e stays) ∧ Inserts Q (a.keysAfter opened) rest

theorem inserts_append {Q : List Key → Element → Bool → Prop} {opened : List Key} {first second : List Action} :
    Inserts Q opened (first ++ second) ↔
      Inserts Q opened first ∧ Inserts Q (first.foldl Action.keysAfter opened) second := by
  induction first generalizing opened with
  | nil => exact (iff_of_eq (true_and _)).symm
  | cons a first ih => rw [List.cons_append, Inserts, Inserts, List.foldl_cons, ih, and_assoc]

/-- A plan knows which elements are open after it when those of `before` were open, all of them are settled,
and what it adds is added where a property holds of it. -/
structure Tracked (Q : List Key → Element → Bool → Prop) (before : List Key) (p : Plan) : Prop where
  tracks : p.actions.foldl Action.keysAfter before = p.opened
  inserts : Inserts Q before p.actions
  stack : Stack p.opened

section Tracked

variable {Q : List Key → Element → Bool → Prop} {before : List Key} {p q : Plan}

theorem tracked_start {opened : List Key} (h : Stack opened) : Tracked Q opened (start opened) := ⟨rfl, trivial, h⟩

theorem tracked_append {opened : List Key} {actions : List Action} (hp : Tracked Q before p)
    (hinserts : Inserts Q p.opened actions) (htracks : actions.foldl Action.keysAfter p.opened = opened)
    (hstack : Stack opened) : Tracked Q before ⟨opened, p.actions ++ actions⟩ := by
  refine ⟨?_, ?_, hstack⟩
  · rw [List.foldl_append, hp.tracks, htracks]
  · rw [inserts_append, hp.tracks]
    exact ⟨hp.inserts, hinserts⟩

theorem inserts_closes {opened : List Key} {actions : List Action} (h : ∀ a ∈ actions, ∀ e stays, a ≠ .insert e stays) :
    Inserts Q opened actions := by
  induction actions generalizing opened with
  | nil => trivial
  | cons a rest ih =>
    exact ⟨fun e stays heq => absurd heq (h a List.mem_cons_self e stays),
      ih fun b hb => h b (List.mem_cons_of_mem _ hb)⟩

theorem tracked_note (hp : Tracked Q before p) (deviation : Deviation) : Tracked Q before (p.note deviation) :=
  tracked_append hp ⟨nofun, trivial⟩ rfl hp.stack

theorem tracked_pop (hp : Tracked Q before p) : Tracked Q before p.pop := by
  unfold pop
  split
  · exact hp
  · rename_i k rest hopened
    have hstack := hp.stack
    rw [hopened] at hstack
    refine tracked_append hp ⟨nofun, trivial⟩ ?_ hstack.2
    rw [hopened]
    rfl

theorem tracked_popWhile (hp : Tracked Q before p) (f : Key → Bool) : Tracked Q before (p.popWhile f) := by
  refine tracked_append hp (inserts_closes ?_) (Action.keysAfter_closes f p.opened) (stack_dropWhile hp.stack f)
  intro a ha e stays heq
  obtain ⟨k, -, rfl⟩ := List.mem_map.1 ha
  exact absurd heq nofun

theorem tracked_popThrough (hp : Tracked Q before p) (names : List String) : Tracked Q before (p.popThrough names) :=
  tracked_pop (tracked_popWhile hp _)

theorem tracked_closeImplied (hp : Tracked Q before p) (except : Option String) :
    Tracked Q before (p.closeImplied except) := tracked_popWhile hp _

theorem tracked_clearBackTo (hp : Tracked Q before p) (names : List String) : Tracked Q before (p.clearBackTo names) :=
  tracked_popWhile hp _

theorem tracked_closeThrough (hp : Tracked Q before p) (f : Key → Bool) (endTag : Option Span) :
    Tracked Q before (p.closeThrough f endTag) := by
  have hclosed := tracked_popWhile hp fun k => !f k
  unfold closeThrough
  dsimp only
  split
  · exact hclosed
  · rename_i k rest endTag hopened
    have hstack := hclosed.stack
    rw [hopened] at hstack
    refine tracked_append hclosed ⟨nofun, trivial⟩ ?_ hstack.2
    rw [hopened]
    rfl
  · exact tracked_pop hclosed

theorem tracked_ite {c : Prop} [Decidable c] (hp : c → Tracked Q before p) (hq : ¬ c → Tracked Q before q) :
    Tracked Q before (if c then p else q) := by
  split
  · exact hp ‹_›
  · exact hq ‹_›

theorem tracked_insert {e : Element} {stays : Bool} (hp : Tracked Q before p) (he : Q p.opened e stays)
    (hstack : stays = true → Stack (keyOf e :: p.opened)) : Tracked Q before (p.insert e stays) := by
  refine tracked_append hp ⟨?_, trivial⟩ rfl ?_
  · intro e' stays' heq
    obtain ⟨rfl, rfl⟩ := Action.insert.inj heq
    exact he
  · cases stays with
    | true => exact hstack rfl
    | false => exact hp.stack

end Tracked

/-! ## Closing -/

section Closing

variable {p : Plan} {names barriers : List String} {name : String} {foreign : Bool}

theorem opened_popThrough (p : Plan) (names : List String) :
    (p.popThrough names).opened = (p.opened.dropWhile fun k => !k.isHtml names).tail := by
  rw [popThrough, pop]
  change (match p.opened.dropWhile (fun k => !k.isHtml names) with | [] => _ | _ :: rest => _ : Plan).opened = _
  split
  · rename_i h
    rw [h]
    exact h
  · rename_i h
    rw [h]
    rfl

/-- **What an element was opened in is left when it is closed**, and the element is settled there. -/
theorem settled_popThrough (names : List String) (hstack : Stack p.opened) (h : inScopeOf name barriers foreign p.opened = true)
    (hname : name ∈ names) : ∃ other ∈ names, Settled (p.popThrough names).opened other := by
  obtain ⟨k, rest, hdrop, hk⟩ := dropWhile_of_exists (exists_of_inScopeOf h hname)
  obtain ⟨hspace, hmem⟩ := isHtml_iff.1 hk
  have hrest := stack_dropWhile hstack fun k => !k.isHtml names
  rw [hdrop] at hrest
  refine ⟨k.name, hmem, ?_⟩
  rw [opened_popThrough, hdrop]
  exact (hrest.1 hspace).1

/-- The same when elements whose end tags are left out are closed first. -/
theorem opened_closeImplied_popThrough (except : Option String)
    (hapart : ∀ other ∈ impliedEndNames.filter (fun other => except != some other), other ∉ names) :
    ((p.closeImplied except).popThrough names).opened = (p.popThrough names).opened := by
  rw [opened_popThrough, opened_popThrough, closeImplied, popWhile]
  change (List.dropWhile _ (p.opened.dropWhile _)).tail = _
  rw [dropWhile_dropWhile]
  intro k hk
  obtain ⟨-, hmem⟩ := isHtml_iff.1 hk
  rw [Bool.not_eq_true', Bool.eq_false_iff]
  exact fun hc => hapart _ hmem (isHtml_iff.1 hc).2

theorem settled_closeImplied_popThrough (names : List String) (except : Option String) (hstack : Stack p.opened)
    (h : inScopeOf name barriers foreign p.opened = true) (hname : name ∈ names)
    (hapart : ∀ other ∈ impliedEndNames.filter (fun other => except != some other), other ∉ names) :
    ∃ other ∈ names, Settled ((p.closeImplied except).popThrough names).opened other := by
  rw [opened_closeImplied_popThrough except hapart]
  exact settled_popThrough names hstack h hname

end Closing

end Plan

end LiveMarkup.Html
