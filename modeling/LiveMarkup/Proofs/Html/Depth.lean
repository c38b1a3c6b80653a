/-
How deep elements nest.

Without a limit every text has one tree (`Draft.followAll`). An element is opened inside those around it, so
the number of elements that are open at once on the way to the tree can be read off the tree: it is the
number of elements around an element, and one more for an element that stays open (`Forest.peak`). A limit
leaves the tree as it is when the peak is within it, and otherwise an element is refused (`outcome_readAll`).
So the limit is exact (`build_exact`): a text is read with a limit when it leaves room for every element of
the tree.
-/
import LiveMarkup.Proofs.Html.Ancestry
import LiveMarkup.Proofs.Html.Grown
import LiveMarkup.Proofs.Html.Limit
import LiveMarkup.Proofs.Html.Origin

set_option autoImplicit false

namespace LiveMarkup

/-- A node is inside `n` elements. What is in the contents of a template is inside the template. -/
def Tree.Depth (t : Tree) (id : NodeId) (n : Nat) : Prop :=
  ∃ around : List NodeId, around.Nodup ∧ around.length = n ∧
    ∀ a, a ∈ around ↔ (∃ e, (a, e) ∈ t.allElements) ∧ t.Descends a id

/-- A node is inside one number of elements. -/
theorem Tree.Depth.unique {t : Tree} {id : NodeId} {m n : Nat} (hm : t.Depth id m) (hn : t.Depth id n) : m = n := by
  obtain ⟨xs, hxs, rfl, hx⟩ := hm
  obtain ⟨ys, hys, rfl, hy⟩ := hn
  exact ((List.perm_ext_iff_of_nodup hxs hys).2 fun a => (hx a).trans (hy a).symm).length_eq

namespace Html

/-- Whether an element stays open after its start tag: unless it is void, or one of another language whose
tag ends with a slash. -/
def staysOpen (e : Element) : Bool := !(e.isVoid || e.space != .html && selfCloses e)

theorem staysOpen_relocate {record : Location → Location} (hrecord : ∀ l, (record l).selfClosing = l.selfClosing)
    (e : Element) : staysOpen (relocate record e) = staysOpen e := by
  have hself := selfCloses_relocate hrecord e
  rw [staysOpen, hself]
  rfl

theorem staysOpen_placed (id : Nat) (e : Element) : staysOpen (placed id e) = staysOpen e := by
  unfold placed
  split <;> rfl

/-! ## Elements that are open at once -/

/-- How many elements are open at once while a forest is read, with `k` elements around it. -/
def Forest.peak (k : Nat) : Forest → Nat
  | .nil => 0
  | .text _ rest => rest.peak k
  | .comment _ rest => rest.peak k
  | .element e inside rest => max (k + (staysOpen e).toNat) (max (inside.peak (k + 1)) (rest.peak k))

namespace Forest

variable {k : Nat}

theorem peak_append (f g : Forest) : (f ++ g).peak k = max (f.peak k) (g.peak k) := by
  induction f with
  | nil => exact (Nat.zero_max _).symm
  | text s rest ih => exact ih
  | comment s rest ih => exact ih
  | element e inside rest _ ih =>
    rw [element_append, peak, peak, ih]
    omega

theorem peak_pushChar (f : Forest) (c : Char) : (f.pushChar c).peak k = f.peak k := by
  induction f, c using pushChar.induct with
  | case1 c => rfl
  | case2 s c => rfl
  | case3 s rest c hne ih => rw [pushChar, peak, peak, ih]; exact hne
  | case4 s rest c ih => rw [pushChar, peak, peak, ih]
  | case5 e inside rest c ih => rw [pushChar, peak, peak, ih]

/-- **The peak of a forest is read off its elements.** -/
theorem peak_le_iff {lo limit : Nat} {f : Forest} :
    f.peak k ≤ limit ↔ ∀ y ∈ f.spots lo, k + (f.around lo y).length + (staysOpen y.2.1).toNat ≤ limit := by
  -- by induction on the forest: what is inside an element has that element around it too
  induction f generalizing k lo with
  | nil => exact iff_of_true (Nat.zero_le _) fun y hy => absurd hy List.not_mem_nil
  | text s rest ih => exact ih
  | comment s rest ih => exact ih
  | element e inside rest ihi ihr =>
    rw [peak, Nat.max_le, Nat.max_le, @ihi (k + 1) (boxOf lo e + 1), @ihr k (boxOf lo e + 1 + inside.size)]
    constructor
    · rintro ⟨hself, hinside, hrest⟩ y hy
      rcases spots_element.1 hy with rfl | hy | hy
      · rw [around_self]
        exact hself
      · have := hinside y hy
        rw [around_inside hy, List.length_append, List.length_singleton]
        omega
      · rw [around_rest hy]
        exact hrest y hy
    · intro h
      refine ⟨?_, ?_, ?_⟩
      · have := h _ (spots_element.2 (.inl rfl))
        rwa [around_self] at this
      · intro y hy
        have := h y (spots_element.2 (.inr (.inl hy)))
        rw [around_inside hy, List.length_append, List.length_singleton] at this
        omega
      · intro y hy
        have := h y (spots_element.2 (.inr (.inr hy)))
        rwa [around_rest hy] at this

end Forest

/-- How many elements are open at once while the elements of frames are read, with what is inside them. -/
def peakOf : List Frame → Nat
  | [] => 0
  | f :: rest => max (rest.length + (staysOpen f.element).toNat) (max (f.inside.peak (rest.length + 1)) (peakOf rest))

namespace Draft

variable {d : Draft} {limit offset : Nat}

/-- How many elements are open at once while a draft is read. -/
def peak (d : Draft) : Nat := max (d.done.peak 0) (peakOf d.opened)

theorem peak_mapCurrent {g : Forest → Forest} {more : Nat}
    (hg : ∀ f : Forest, (g f).peak d.opened.length = max (f.peak d.opened.length) more) :
    (d.mapCurrent g).peak = max d.peak more := by
  obtain ⟨done, opened⟩ := d
  cases opened with
  | nil =>
    have hdone := hg done
    simp only [mapCurrent, peak, peakOf, List.length_nil] at hdone ⊢
    omega
  | cons f rest =>
    have hinside := hg f.inside
    simp only [mapCurrent, peak, peakOf, List.length_cons] at hinside ⊢
    omega

theorem peak_add (d : Draft) (new : Forest) : (d.add new).peak = max d.peak (new.peak d.opened.length) :=
  peak_mapCurrent fun f => Forest.peak_append f new

theorem peak_character (d : Draft) (c : Char) : (d.mapCurrent (·.pushChar c)).peak = d.peak := by
  rw [peak_mapCurrent fun f => (Forest.peak_pushChar f c).trans (Nat.max_zero _).symm, Nat.max_zero]

theorem peak_comment (d : Draft) (data : String) : (d.add (.comment data .nil)).peak = d.peak := by
  rw [peak_add, Forest.peak, Forest.peak, Nat.max_zero]

theorem peak_close {record : Location → Location} (hrecord : ∀ l, (record l).selfClosing = l.selfClosing)
    (d : Draft) : (d.close record).peak = d.peak := by
  obtain ⟨done, opened⟩ := d
  cases opened with
  | nil => rfl
  | cons f rest =>
    have hadd := peak_add ⟨done, rest⟩ (.element (relocate record f.element) f.inside .nil)
    have hclose : (⟨done, f :: rest⟩ : Draft).close record
        = (⟨done, rest⟩ : Draft).add (.element (relocate record f.element) f.inside .nil) := rfl
    simp only [Forest.peak, staysOpen_relocate hrecord] at hadd
    rw [hclose, hadd]
    simp only [peak, peakOf]
    omega

theorem peak_closeAll (d : Draft) (offset : Nat) : (d.closeAll offset).peak = d.peak := by
  unfold closeAll
  generalize d.opened = frames
  induction frames generalizing d with
  | nil => rfl
  | cons f frames ih =>
    rw [List.foldl_cons, ih]
    exact @peak_close (·.closedAt offset) (fun _ => rfl) d

/-! ## Reading without a limit -/

/-- Does one of the things that a tag at an offset does, whatever is open. -/
def act (offset : Nat) (d : Draft) : Action → Draft
  | .note _ => d
  | .close => d.close (·.closedAt offset)
  | .closeBy endTag => d.close (·.closedBy endTag)
  | .insert e stays => if stays then { d with opened := ⟨e, .nil⟩ :: d.opened } else d.add (.element e .nil .nil)

/-- Reads one token at an offset, whatever is open. -/
def follow (offset : Nat) (d : Draft) : Token → Draft
  | .character c => d.mapCurrent (·.pushChar c)
  | .comment data _ => d.add (.comment data .nil)
  | .doctype _ _ => d
  | .endOfFile n => d.closeAll n
  | token => (actionsOf d.keys token).foldl (act offset) d

/-- Reads tokens in order from an offset, whatever is open. -/
def followAll : Nat → Draft → List Token → Draft
  | _, d, [] => d
  | offset, d, token :: rest => (d.follow (offsetAt offset token) token).followAll (offsetAt offset token) rest

/-- What is added is open with all that is around it. -/
theorem peak_insert (d : Draft) (e : Element) (stays : Bool) :
    (d.act offset (.insert e stays)).peak = max d.peak (d.opened.length + (staysOpen e).toNat) := by
  cases stays with
  | true =>
    simp only [act, if_true, peak, peakOf, Forest.peak]
    omega
  | false =>
    have hadd := peak_add d (.element e .nil .nil)
    simp only [Forest.peak] at hadd
    simp only [act, Bool.false_eq_true, if_false, hadd]
    omega

theorem le_peak_act (d : Draft) (a : Action) : d.peak ≤ (d.act offset a).peak := by
  cases a with
  | note deviation => exact Nat.le_refl _
  | close => exact (@peak_close (·.closedAt offset) (fun _ => rfl) d).ge
  | closeBy endTag => exact (@peak_close (·.closedBy endTag) (fun _ => rfl) d).ge
  | insert e stays =>
    rw [peak_insert]
    exact Nat.le_max_left _ _

theorem le_peak_foldl (actions : List Action) (d : Draft) : d.peak ≤ (actions.foldl (act offset) d).peak := by
  induction actions generalizing d with
  | nil => exact Nat.le_refl _
  | cons a actions ih => exact (le_peak_act d a).trans (ih _)

theorem le_peak_follow (d : Draft) (token : Token) : d.peak ≤ (d.follow offset token).peak := by
  cases token with
  | character c => exact (peak_character d c).ge
  | comment data span => exact (peak_comment d data).ge
  | doctype name span => exact Nat.le_refl _
  | startTag name selfClosing attributes span => exact le_peak_foldl _ d
  | endTag name span => exact le_peak_foldl _ d
  | endOfFile n => exact (peak_closeAll d n).ge

/-- **Reading on never lowers the peak.** -/
theorem le_peak_followAll (tokens : List Token) (offset : Nat) (d : Draft) :
    d.peak ≤ (d.followAll offset tokens).peak := by
  induction tokens generalizing offset d with
  | nil => exact Nat.le_refl _
  | cons token rest ih => exact (le_peak_follow d token).trans (ih _ _)

/-- At the end of the text no element is open. -/
theorem opened_followAll (tokens : List Token) (n offset : Nat) (d : Draft) :
    (d.followAll offset (tokens ++ [.endOfFile n])).opened = [] := by
  induction tokens generalizing offset d with
  | nil => exact opened_closeAll d n
  | cons token rest ih => exact ih _ _

/-! ## Reading with a limit -/

/-- What reading with a limit gives where a draft is read without one: that draft, when no more elements are
open at once than the limit allows, or an element is refused. -/
inductive Outcome (limit : Nat) (free : Draft) : Except ParseError Draft → Prop
  | ok : free.peak ≤ limit → free.opened.length ≤ limit → Outcome limit free (.ok free)
  | refused (e : ParseError) : limit < free.peak → Outcome limit free (.error e)

theorem outcome_close {record : Location → Location} (hrecord : ∀ l, (record l).selfClosing = l.selfClosing)
    (hpeak : d.peak ≤ limit) (hopen : d.opened.length ≤ limit) :
    Outcome limit (d.close record) (.ok (d.close record)) := by
  refine .ok ((peak_close hrecord d).le.trans hpeak) ?_
  rw [opened_close]
  omega

theorem outcome_perform (hpeak : d.peak ≤ limit) (hopen : d.opened.length ≤ limit) {a : Action}
    (hstays : ∀ e stays, a = .insert e stays → stays = staysOpen e) :
    Outcome limit (d.act offset a) (d.perform limit offset a) := by
  cases a with
  | note deviation => exact .ok hpeak hopen
  | close => exact @outcome_close d limit (·.closedAt offset) (fun _ => rfl) hpeak hopen
  | closeBy endTag => exact @outcome_close d limit (·.closedBy endTag) (fun _ => rfl) hpeak hopen
  | insert e stays =>
    have hinsert := @peak_insert offset d e stays
    obtain rfl := hstays e stays rfl
    rw [perform]
    split
    · rename_i hdeep
      refine .refused _ ?_
      rw [hinsert, hdeep.1, Bool.toNat_true]
      omega
    · rename_i hroom
      -- only an element that stays open takes up room that the limit has to leave
      cases hs : staysOpen e with
      | true =>
        rw [hs] at hroom hinsert
        have hlt : d.opened.length < limit := by
          by_contra hle
          exact hroom ⟨rfl, Nat.le_of_not_lt hle⟩
        refine .ok ?_ hlt
        rw [hinsert, Bool.toNat_true]
        omega
      | false =>
        rw [hs] at hinsert
        refine .ok ?_ ((opened_mapCurrent d _).le.trans hopen)
        rw [hinsert, Bool.toNat_false]
        omega

theorem outcome_foldlM {actions : List Action} (hpeak : d.peak ≤ limit) (hopen : d.opened.length ≤ limit)
    (hstays : ∀ e stays, .insert e stays ∈ actions → stays = staysOpen e) :
    Outcome limit (actions.foldl (act offset) d) (actions.foldlM (perform limit offset) d) := by
  induction actions generalizing d with
  | nil => exact .ok hpeak hopen
  | cons a actions ih =>
    rw [List.foldlM_cons, List.foldl_cons]
    have hfirst : Outcome limit (d.act offset a) (d.perform limit offset a) :=
      outcome_perform hpeak hopen fun e stays heq => hstays e stays (heq ▸ List.mem_cons_self)
    generalize d.perform limit offset a = x at hfirst
    cases hfirst with
    | ok hpeak' hopen' => exact ih hpeak' hopen' fun e stays he => hstays e stays (List.mem_cons_of_mem _ he)
    | refused e hlt => exact .refused e (hlt.trans_le (le_peak_foldl actions _))

theorem stays_of_inserts {tag : StartTag} {opened : List Key} {actions : List Action} {e : Element} {stays : Bool}
    (h : Plan.Inserts (Added tag) opened actions) (he : .insert e stays ∈ actions) : stays = staysOpen e := by
  induction actions generalizing opened with
  | nil => exact absurd he List.not_mem_nil
  | cons a actions ih =>
    rcases List.mem_cons.1 he with rfl | he
    · exact (h.1 e stays rfl).stays
    · exact ih h.2 he

/-- Whatever is open, what a token adds stays open unless it can hold nothing, and the rules of markup go on
to hold of the open elements. -/
theorem tracked_actionsOf {opened : List Key} (hstack : Plan.Stack opened) {token : Token} (hvalid : token.Valid) :
    (∀ e stays, .insert e stays ∈ actionsOf opened token → stays = staysOpen e) ∧
      Plan.Stack ((actionsOf opened token).foldl Action.keysAfter opened) := by
  have htracked : ∀ {tag : StartTag} {p : Plan}, Plan.Tracked (Added tag) opened p →
      (∀ e stays, .insert e stays ∈ p.actions → stays = staysOpen e) ∧
        Plan.Stack (p.actions.foldl Action.keysAfter opened) :=
    fun hp => ⟨fun _ _ => stays_of_inserts hp.inserts, hp.tracks ▸ hp.stack⟩
  cases token with
  | startTag name selfClosing attributes span =>
    exact htracked (Plan.tracked_startTag (Plan.tracked_start hstack) ⟨hvalid.1, hvalid.2.1, hvalid.2.2⟩)
  | endTag name span => exact htracked (Plan.tracked_endTag (Plan.tracked_start hstack))
  | _ => exact ⟨fun _ _ he => absurd he List.not_mem_nil, hstack⟩

theorem stack_read {d' : Draft} (hstack : Plan.Stack d.keys) {token : Token} (hvalid : token.Valid)
    (h : d.read limit offset token = .ok d') : Plan.Stack d'.keys := by
  cases token with
  | character c => exact Except.ok.inj h ▸ keys_mapCurrent d _ ▸ hstack
  | comment data span => exact Except.ok.inj h ▸ keys_mapCurrent d _ ▸ hstack
  | doctype name span => exact Except.ok.inj h ▸ hstack
  | startTag name selfClosing attributes span =>
    rw [keys_foldlM h]
    exact (tracked_actionsOf hstack hvalid).2
  | endTag name span =>
    rw [keys_foldlM h]
    exact (tracked_actionsOf hstack hvalid).2
  | endOfFile n =>
    obtain rfl := Except.ok.inj h
    rw [keys, opened_closeAll]
    trivial

theorem outcome_read (hpeak : d.peak ≤ limit) (hopen : d.opened.length ≤ limit) (hstack : Plan.Stack d.keys)
    {token : Token} (hvalid : token.Valid) : Outcome limit (d.follow offset token) (d.read limit offset token) := by
  have hstays := (tracked_actionsOf hstack hvalid).1
  cases token with
  | character c => exact .ok ((peak_character d c).le.trans hpeak) ((opened_mapCurrent d _).le.trans hopen)
  | comment data span => exact .ok ((peak_comment d data).le.trans hpeak) ((opened_mapCurrent d _).le.trans hopen)
  | doctype name span => exact .ok hpeak hopen
  | startTag name selfClosing attributes span => exact outcome_foldlM hpeak hopen hstays
  | endTag name span => exact outcome_foldlM hpeak hopen hstays
  | endOfFile n =>
    refine .ok ((peak_closeAll d n).le.trans hpeak) ?_
    simp only [follow, opened_closeAll, List.length_nil, Nat.zero_le]

/-- **A limit leaves a draft as it is or refuses an element**, and it refuses one when the peak is above it. -/
theorem outcome_readAll {tokens : List Token} (hvalid : ∀ t ∈ tokens, t.Valid) (hpeak : d.peak ≤ limit)
    (hopen : d.opened.length ≤ limit) (hstack : Plan.Stack d.keys) :
    Outcome limit (d.followAll offset tokens) (d.readAll limit offset tokens) := by
  -- by induction on the tokens: the peak so far is within the limit, and the rules of markup hold of what is open
  induction tokens generalizing offset d with
  | nil => exact .ok hpeak hopen
  | cons token rest ih =>
    have hfirst : Outcome limit (d.follow (offsetAt offset token) token) (d.read limit (offsetAt offset token) token) :=
      outcome_read hpeak hopen hstack (hvalid token List.mem_cons_self)
    rw [readAll, followAll]
    cases hread : d.read limit (offsetAt offset token) token with
    | error e =>
      rw [hread] at hfirst
      cases hfirst with
      | refused e hlt => exact .refused e (hlt.trans_le (le_peak_followAll rest _ _))
    | ok r =>
      have hstack' := stack_read hstack (hvalid token List.mem_cons_self) hread
      rw [hread] at hfirst
      cases hfirst with
      | ok hpeak' hopen' => exact ih (fun t ht => hvalid t (List.mem_cons_of_mem _ ht)) hpeak' hopen' hstack'

end Draft

/-- **The forest of a text with a limit**: there is one exactly when the peak of the text is within the limit. -/
theorem grow_exact (text : String) :
    ∃ f : Forest, ∀ limit g, grow limit (tokenize text) = .ok g ↔ g = f ∧ f.peak 0 ≤ limit := by
  -- without a limit the run ends with no element open, so its peak is that of the forest it ends with
  let free := Draft.start.followAll 0 (tokenize text)
  have hopened : free.opened = [] := by
    obtain ⟨ts, hts, -⟩ := tokenize_end text
    change (Draft.start.followAll 0 (tokenize text)).opened = []
    rw [hts]
    exact Draft.opened_followAll ts _ 0 .start
  have hpeak : free.peak = free.done.peak 0 := by
    rw [Draft.peak, hopened]
    exact Nat.max_zero _
  refine ⟨free.done, fun limit g => ?_⟩
  have hrun : Draft.Outcome limit free (Draft.start.readAll limit 0 (tokenize text)) :=
    Draft.outcome_readAll (fun t ht => valid_tokenize ht) (Nat.zero_le _) (Nat.zero_le _) trivial
  rw [grow]
  generalize Draft.start.readAll limit 0 (tokenize text) = x at hrun
  cases hrun with
  | ok hle => exact ⟨fun h => ⟨(Except.ok.inj h).symm, hpeak ▸ hle⟩, fun h => congrArg Except.ok h.1.symm⟩
  | refused e hlt =>
    refine ⟨fun h => ?_, fun h => ?_⟩
    · cases h
    · rw [hpeak] at hlt
      exact absurd h.2 (Nat.not_le.2 hlt)

/-! ## The tree of a text -/

section Tree

variable {t : Tree} {f : Forest} {y : Spot}

theorem mem_allElements (hd : Depicts t f) {id : NodeId} :
    (∃ e, (id, e) ∈ t.allElements) ↔ ∃ x ∈ f.spots 1, x.1 = id := by
  rw [allElements_of_depicts hd]
  constructor
  · rintro ⟨e, he⟩
    obtain ⟨x, hx, heq⟩ := List.mem_map.1 he
    exact ⟨x, hx, (Prod.mk.inj heq).1⟩
  · rintro ⟨x, hx, rfl⟩
    exact ⟨_, List.mem_map.2 ⟨x, hx, rfl⟩⟩

/-- **The elements that an element is inside of are those around it.** -/
theorem depth_of_spot (hd : Depicts t f) (hy : y ∈ f.spots 1) : t.Depth y.1 (f.around 1 y).length := by
  refine ⟨(f.around 1 y).map (·.1), ?_, List.length_map _, fun a => ?_⟩
  · -- of two of them, the one farther out has the smaller place
    exact List.pairwise_map.2 ((Forest.around_nested 1 f y).imp fun h => Nat.ne_of_gt h.1)
  · rw [mem_allElements hd, List.mem_map]
    constructor
    · rintro ⟨x, hx, rfl⟩
      obtain ⟨hmem, henc⟩ := Forest.mem_around.1 hx
      exact ⟨⟨x, hmem, rfl⟩, (descends_iff_encloses hd hmem hy).2 henc⟩
    · rintro ⟨⟨x, hmem, rfl⟩, hdescends⟩
      exact ⟨x, Forest.mem_around.2 ⟨hmem, (descends_iff_encloses hd hmem hy).1 hdescends⟩, rfl⟩

/-- The peak of a forest is within a limit when the tree leaves room for every element. -/
theorem peak_le_iff_room (hd : Depicts t f) {limit : Nat} :
    f.peak 0 ≤ limit ↔ ∀ x ∈ t.allElements, ∃ n, t.Depth x.1 n ∧ n + (staysOpen x.2).toNat ≤ limit := by
  rw [@Forest.peak_le_iff 0 1 limit f, allElements_of_depicts hd]
  constructor
  · intro h x hx
    obtain ⟨y, hy, rfl⟩ := List.mem_map.1 hx
    refine ⟨_, depth_of_spot hd hy, ?_⟩
    have hroom := h y hy
    rw [Nat.zero_add] at hroom
    rwa [staysOpen_placed]
  · intro h y hy
    obtain ⟨n, hdepth, hroom⟩ := h _ (List.mem_map_of_mem hy)
    rw [hdepth.unique (depth_of_spot hd hy), staysOpen_placed] at hroom
    rwa [Nat.zero_add]

end Tree

/-- Limits that both suffice give the same tree and issues. -/
theorem build_unique {m n : Nat} {text : String} {r s : Tree × List Issue} (hm : build m (tokenize text) = .ok r)
    (hn : build n (tokenize text) = .ok s) : r = s := by
  have hsame : ∀ {m n : Nat} {r s : Tree × List Issue}, m ≤ n → build m (tokenize text) = .ok r →
      build n (tokenize text) = .ok s → r = s := by
    intro m n r s hle hm hn
    rcases build_limited hle (laid_tokenize text) with ⟨u, hm', hn'⟩ | ⟨o, hm', -⟩
    · obtain rfl := Except.ok.inj (hm.symm.trans hm')
      exact Except.ok.inj (hn'.symm.trans hn)
    · rw [hm] at hm'
      cases hm'
  rcases Nat.le_total m n with hle | hle
  · exact hsame hle hm hn
  · exact (hsame hle hn hm).symm

/-- **The limit is exact.** Every text has one tree with its issues, and it is read with a limit exactly when
every element of the tree has room: not more elements around it than the limit allows to be open, and fewer
when it stays open itself. -/
theorem build_exact (text : String) :
    ∃ t issues, (∃ limit, build limit (tokenize text) = .ok (t, issues)) ∧
      ∀ limit r, build limit (tokenize text) = .ok r ↔
        r = (t, issues) ∧ ∀ x ∈ t.allElements, ∃ n, t.Depth x.1 n ∧ n + (staysOpen x.2).toNat ≤ limit := by
  obtain ⟨f, hf⟩ := grow_exact text
  -- a limit that the peak of the text is within gives the forest, and the builder its tree
  have hbuild : ∀ limit, f.peak 0 ≤ limit →
      ∃ t issues, build limit (tokenize text) = .ok (t, issues) ∧ Depicts t f := by
    intro limit hle
    have hgrow := (hf limit f).2 ⟨rfl, hle⟩
    rcases build_text_cases limit text with ⟨e, -, hg⟩ | ⟨t, issues, g, hb, hg, hd⟩
    · rw [hgrow] at hg
      cases hg
    · obtain rfl := Except.ok.inj (hgrow.symm.trans hg)
      exact ⟨t, issues, hb, hd⟩
  obtain ⟨t, issues, hb, hd⟩ := hbuild (f.peak 0) (Nat.le_refl _)
  refine ⟨t, issues, ⟨_, hb⟩, fun limit r => ?_⟩
  rw [← peak_le_iff_room hd]
  constructor
  · intro h
    refine ⟨build_unique h hb, ?_⟩
    rcases build_text_cases limit text with ⟨e, hb', -⟩ | ⟨-, -, g, -, hg, -⟩
    · rw [h] at hb'
      cases hb'
    · exact ((hf limit g).1 hg).1 ▸ ((hf limit g).1 hg).2
  · rintro ⟨rfl, hle⟩
    obtain ⟨t', issues', hb', -⟩ := hbuild limit hle
    rw [hb', build_unique hb' hb]

/-- **A limit changes no tree.** A text that is read with a limit has no element inside more elements than
that, and it is read to the same tree and the same issues with every higher one. Where a limit refuses an
element, every lower limit refuses one there or before. And a limit refuses no more than it has to: a text
is read when there is room for every element of its tree. -/
theorem build_limit {m n : Nat} (hle : m ≤ n) (text : String) :
    (∀ t issues, build m (tokenize text) = .ok (t, issues) →
      (∀ x ∈ t.allElements, ∃ k ≤ m, t.Depth x.1 k) ∧ build n (tokenize text) = .ok (t, issues)) ∧
    (∀ limit offset, build n (tokenize text) = .error (.tooDeep limit offset) →
      limit = n ∧ ∃ before ≤ offset, build m (tokenize text) = .error (.tooDeep m before)) ∧
    ∃ t issues, (∃ limit, build limit (tokenize text) = .ok (t, issues)) ∧
      ∀ limit r, build limit (tokenize text) = .ok r ↔
        r = (t, issues) ∧ ∀ x ∈ t.allElements, ∃ k, t.Depth x.1 k ∧ k + (staysOpen x.2).toNat ≤ limit := by
  obtain ⟨t, issues, hlimit, hexact⟩ := build_exact text
  have hruns := build_limited hle (laid_tokenize text)
  refine ⟨?_, ?_, t, issues, hlimit, hexact⟩
  · intro t' issues' h
    refine ⟨fun x hx => ?_, ?_⟩
    · obtain ⟨heq, hroom⟩ := (hexact m _).1 h
      obtain ⟨rfl, -⟩ := Prod.mk.inj heq
      obtain ⟨k, hdepth, hk⟩ := hroom x hx
      exact ⟨k, (Nat.le_add_right _ _).trans hk, hdepth⟩
    · rcases hruns with ⟨r, hm, hn⟩ | ⟨o, hm, -⟩
      · rw [hn, ← hm, h]
      · rw [h] at hm
        cases hm
  · intro limit offset h
    rcases hruns with ⟨r, -, hn⟩ | ⟨o, hm, hn⟩
    · rw [h] at hn
      cases hn
    · obtain ⟨o', ho, heq⟩ := hn _ h
      obtain ⟨rfl, rfl⟩ := ParseError.tooDeep.inj heq
      exact ⟨rfl, o, ho, hm⟩

/-- With a limit of one or two the third of three nested elements is refused or the second is, and with a
limit of three or more none is. -/
theorem build_limit_nested :
    1 ≤ 2 ∧ (∃ before ≤ 6, build 1 (tokenize "<b><i><u>") = .error (.tooDeep 1 before)) ∧
      3 ≤ 4 ∧ ∃ r, build 3 (tokenize "<b><i><u>") = .ok r ∧ build 4 (tokenize "<b><i><u>") = .ok r := by
  have htwo : build 2 (tokenize "<b><i><u>") = .error (.tooDeep 2 6) := by cbv
  have hthree : (build 3 (tokenize "<b><i><u>")).isOk = true := by cbv
  refine ⟨by decide, ((build_limit (by decide) _).2.1 2 6 htwo).2, by decide, ?_⟩
  cases h : build 3 (tokenize "<b><i><u>") with
  | error e =>
    rw [h] at hthree
    cases hthree
  | ok r => exact ⟨r, rfl, ((build_limit (by decide) _).1 r.1 r.2 h).2⟩

end Html

end LiveMarkup
