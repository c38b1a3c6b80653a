/-
What becomes of a page whose shortcodes are rendered.

A text is what stands between its shortcodes, and the shortcodes (`Parts`). Its parts are put before it in the page one
after the other, and then it is taken out (`replaces_splice`); this is done for one text after another, and no text is
ever among what was put into the page (`spliced_placements`). So the page is written as what it was with the parts in the
place of each text, and all that was asked for has its answer. Main result: `expanded_exactly`.
-/
import LiveMarkup.Proofs.Editor.Renderings
import LiveMarkup.Proofs.Html.Planted
import LiveMarkup.Proofs.Html.Written
import LiveMarkup.Proofs.Source.Scanning

set_option autoImplicit false

namespace LiveMarkup.Editor

open Source Text

variable {r : Renderings} {t t' : Tree} {source text : String} {found : List Shortcode}

/-! ## The parts of a text -/

/-- The shortcodes of a text that also stand in the source. -/
def affected (source text : String) : List Shortcode :=
  (shortcodes text).filter fun s => ((shortcodes source).map (·.fragment)).contains s.fragment

/-- What stands between shortcodes, as a part of a text, unless nothing does. -/
def outside (text : String) : List Piece := if text = "" then [] else [.text text]

/-- The parts of a text that stands behind an offset, where these are its shortcodes: what stands outside of them, and
their renderings. -/
inductive Parts (r : Renderings) : Nat → String → List Shortcode → List Piece → Prop
  | last (offset : Nat) (text : String) : Parts r offset text [] (outside text)
  | shortcode {offset : Nat} {before after html : String} {s : Shortcode} {rest : List Shortcode} {pieces : List Piece}
      (hstart : s.span.start = offset + before.utf8ByteSize)
      (hstop : s.span.stop = s.span.start + s.fragment.utf8ByteSize)
      (hknown : r.known.lookup s.fragment = some html) (hrest : Parts r s.span.stop after rest pieces) :
      Parts r offset (before ++ s.fragment ++ after) (s :: rest) (outside before ++ .rendering html :: pieces)

theorem textPiece_of_cut {span : Span} {head middle tail : List Char} (h : Cut text span head middle tail) :
    textPiece text span.start span.stop = outside (String.ofList middle) := by
  have hstart := h.start
  have hstop := h.stop
  unfold textPiece outside
  cases middle with
  | nil =>
    rw [byteLength, Nat.add_zero] at hstop
    rw [if_neg (by omega), if_pos rfl]
  | cons c middle =>
    have hpos := c.utf8Size_pos
    rw [byteLength] at hstop
    have hne : String.ofList (c :: middle) ≠ "" := by simp
    rw [if_pos (by omega), if_neg hne, slice?_of_cut h]
    rfl

/-- **A text is cut at its shortcodes**, where all of them are known. -/
theorem parts_piecesFrom {head tail : List Char} (htext : text.toList = head ++ tail)
    (hcut : ∀ s ∈ found, ∃ before fragment after, s.fragment = String.ofList fragment ∧
      Cut text s.span before fragment after ∧ byteLength head ≤ s.span.start)
    (hordered : found.Pairwise fun s u => s.span.before u.span)
    (hknown : ∀ s ∈ found, (r.known.lookup s.fragment).isSome = true) :
    Parts r (byteLength head) (String.ofList tail) found (piecesFrom text r (byteLength head) found) := by
  induction found generalizing head tail with
  | nil =>
    have hrest : Cut text ⟨byteLength head, text.utf8ByteSize⟩ head tail [] := by
      refine ⟨by rw [htext, List.append_nil], rfl, ?_⟩
      rw [utf8ByteSize_eq, htext, byteLength_append]
    rw [piecesFrom, textPiece_of_cut hrest]
    exact .last ..
  | cons s rest ih =>
    obtain ⟨before, fragment, after, hfragment, hs, hle⟩ := hcut s List.mem_cons_self
    obtain ⟨html, hhtml⟩ := Option.isSome_iff_exists.1 (hknown s List.mem_cons_self)
    have hstart := hs.start
    have hstop := hs.stop
    -- what was cut off already stands before the shortcode
    obtain ⟨middle, rfl, hrest⟩ := exists_append_of_byteLength_le (htext.symm.trans hs.whole) (by omega)
    rw [byteLength_append] at hstart
    have hbetween : Cut text ⟨byteLength head, s.span.start⟩ head middle (fragment ++ after) :=
      ⟨by rw [htext, hrest], rfl, hstart⟩
    have hbehind : text.toList = (head ++ middle ++ fragment) ++ after := by rw [hs.whole, ← List.append_assoc]
    have hlength : byteLength (head ++ middle ++ fragment) = s.span.stop := by rw [byteLength_append, hstop]
    rw [List.pairwise_cons] at hordered
    have hpieces := ih hbehind (fun u hu => ?_) hordered.2 fun u hu => hknown u (List.mem_cons_of_mem _ hu)
    · rw [hlength] at hpieces
      rw [piecesFrom, hhtml, hrest, textPiece_of_cut hbetween, String.ofList_append, String.ofList_append,
        ← String.append_assoc, ← hfragment]
      refine .shortcode ?_ ?_ hhtml hpieces
      · rw [utf8ByteSize_eq, String.toList_ofList]
        exact hstart.symm
      · rw [hfragment, utf8ByteSize_eq, String.toList_ofList, ← hs.start]
        exact hstop.symm
    · obtain ⟨before', fragment', after', hfragment', hu', -⟩ := hcut u (List.mem_cons_of_mem _ hu)
      exact ⟨before', fragment', after', hfragment', hu', by rw [hlength]; exact hordered.1 u hu⟩

/-- The parts of a text whose affected shortcodes are all known. -/
theorem parts_of_known (hknown : ∀ s ∈ affected source text, (r.known.lookup s.fragment).isSome = true) :
    Parts r 0 text (affected source text) (piecesFrom text r 0 (affected source text)) := by
  have hordered : (affected source text).Pairwise fun s u => s.span.before u.span :=
    ((Shortcode.scan_ordered 0 0 text.toList).imp And.right).filter _
  have hparts : Parts r (byteLength []) (String.ofList text.toList) (affected source text)
      (piecesFrom text r (byteLength []) (affected source text)) := by
    refine parts_piecesFrom rfl (fun s hs => ?_) hordered hknown
    obtain ⟨name, fragment, before, after, -, -, hfragment, hcut⟩ := cut_of_mem (List.mem_of_mem_filter hs)
    exact ⟨before, fragment, after, hfragment, hcut, Nat.zero_le _⟩
  rwa [String.ofList_toList] at hparts

/-! ## Parts in the place of a text -/

/-- What a part of a text shows: the text, or what the rendering reads as. One that cannot be read shows nothing. -/
def Piece.views : Piece → List View
  | .text text => [.node 0 (.text text) [] []]
  | .rendering html =>
    match Html.parse html with
    | .ok rendered => ((rendered.view? Tree.root).map View.children).getD []
    | .error _ => []

/-- The document of a text, as it is seen. -/
theorem exists_document {html : String} (h : Html.parse html = .ok t) :
    ∃ v, t.view? Tree.root = some v ∧ t.Shows v ∧ v.id = Tree.root ∧ v.kind = .document := by
  obtain ⟨f, -, hd⟩ := Html.forest_of_parse h
  have hview := Html.view?_of_depicts hd
  have hlt : Tree.root < t.size := by
    rw [hd.size]
    exact Nat.add_pos_left Nat.one_pos _
  obtain ⟨v, hv, hid, hshows⟩ := (Html.grown_of_parse h).1.exists_view hlt
  refine ⟨v, hv, hshows, hid, ?_⟩
  rw [hview] at hv
  rw [← Option.some.inj hv]
  rfl

theorem views_of_parse {html : String} (h : Html.parse html = .ok t) :
    t.picturesOf (t.children Tree.root) = View.bareAll (Piece.rendering html).views ∧
      ∀ v ∈ (Piece.rendering html).views, v.Sealed := by
  obtain ⟨v, hv, hshows, hid, -⟩ := exists_document h
  have hgrown := (Html.grown_of_parse h).1
  have hchildren : t.children Tree.root = v.children.map View.id := hid ▸ hshows.agrees.children
  have hread : (v.children.map View.id).filterMap t.view? = v.children :=
    Tree.filterMap_map_id fun u hu => Html.view?_of_shows hgrown (hshows.of_mem_children hu)
  rw [Piece.views, h]
  dsimp only
  rw [hv, Tree.picturesOf, hchildren, hread, Option.map_some, Option.getD_some, View.bareAll_eq]
  exact ⟨rfl, fun u hu => View.sealed_of_shows (hshows.of_mem_children hu)⟩

theorem sealed_views (piece : Piece) : ∀ v ∈ piece.views, v.Sealed := by
  cases piece with
  | text text =>
    intro v hv
    rw [List.mem_singleton.1 hv]
    exact View.sealed_node rfl nofun nofun
  | rendering html =>
    cases hp : Html.parse html with
    | ok t => exact (views_of_parse hp).2
    | error e =>
      rw [Piece.views, hp]
      exact nofun

section Splice

variable {parent n : Nat} {ps : List View} {pieces : List Piece}

/-- A part is put behind the parts that already stand before a text. -/
theorem gainsBefore_insertPiece (h : t.GainsBefore n ps t') (hgrown : t.Grown) (hn : n ∈ t.children parent) (piece : Piece) :
    t.GainsBefore n (ps ++ View.bareAll piece.views) (insertPiece parent n t' piece) := by
  cases piece with
  | text text => exact h.addChild hgrown hn rfl
  | rendering html =>
    rw [insertPiece]
    cases hp : Html.parse html with
    | ok rendered =>
      rw [← (views_of_parse hp).1]
      exact h.importChildren hgrown hn rendered Tree.root
    | error e =>
      rw [Piece.views, hp]
      exact (List.append_nil ps).symm ▸ h

theorem gainsBefore_pieces (h : t.GainsBefore n ps t') (hgrown : t.Grown) (hn : n ∈ t.children parent) :
    t.GainsBefore n (ps ++ View.bareAll (pieces.flatMap Piece.views)) (pieces.foldl (insertPiece parent n) t') := by
  induction pieces generalizing ps t' with
  | nil => exact (List.append_nil ps).symm ▸ h
  | cons piece pieces ih =>
    rw [List.flatMap_cons, View.bareAll_append, ← List.append_assoc]
    exact ih (gainsBefore_insertPiece h hgrown hn piece)

/-- What the parts of a text show, where these are its shortcodes. -/
def Placement.views (t : Tree) (r : Renderings) (p : Placement) : List View :=
  (piecesFrom ((t.text? p.node).getD "") r 0 p.shortcodes).flatMap Piece.views

/-- **The parts of a text take its place.** -/
theorem replaces_splice (hgrown : t.Grown) {p : Placement} (hn : p.node ∈ t.children parent)
    (htext : t.text? p.node = some text) : t.Replaces p.node (View.bareAll (p.views t r)) (p.splice r t) := by
  have hparent := (hgrown.linked.parent_iff parent p.node).2 hn
  rw [Placement.splice, hparent, htext, Placement.views, htext]
  exact (gainsBefore_pieces (.refl hgrown p.node) hgrown hn).removeChild hgrown hn

/-- Texts that are children, each listed once, are replaced by their parts one after the other. -/
theorem spliced_foldl {done : List (Nat × List View)} {rest : List Placement} (hgrown : t.Grown)
    (h : t.Spliced done t') (hnodup : (done.map (·.1) ++ rest.map (·.node)).Nodup)
    (hrest : ∀ p ∈ rest, (∃ parent, p.node ∈ t.children parent) ∧ ∃ text, t.text? p.node = some text) :
    t.Spliced (done ++ rest.map fun p => (p.node, p.views t r)) (rest.foldl (fun t p => p.splice r t) t') := by
  induction rest generalizing done t' with
  | nil => simpa using h
  | cons p rest ih =>
    obtain ⟨⟨parent, hmem⟩, text, htext⟩ := hrest p List.mem_cons_self
    have hfresh : p.node ∉ done.map (·.1) := by
      rw [List.map_cons, List.nodup_middle, List.nodup_cons, List.mem_append, not_or] at hnodup
      exact hnodup.1.1
    have hlt := (hgrown.later parent p.node (Tree.mem_held_of_children hmem)).2
    obtain ⟨hmem', hkind⟩ := h.mem hfresh hmem hlt
    have htext' : t'.text? p.node = t.text? p.node := by rw [Tree.text?_eq_kind, Tree.text?_eq_kind, hkind]
    have hreplaces := replaces_splice (r := r) h.grown hmem' (htext'.trans htext)
    rw [Placement.views, htext'] at hreplaces
    have hnext := h.step hfresh hlt hreplaces
    rw [List.map_cons, List.append_cons]
    refine ih hnext ?_ fun q hq => hrest q (List.mem_cons_of_mem _ hq)
    rwa [List.map_append, List.append_assoc]

end Splice

/-! ## The texts of a page -/

/-- A text of a page whose shortcodes are rendered: it is markup, and shortcodes of the source stand in it. -/
structure Affects (t : Tree) (source : String) (id : NodeId) (text : String) : Prop where
  below : id ∈ t.descendants Tree.root
  reads : t.text? id = some text
  markup : isOpaque t id = false
  found : affected source text ≠ []

/-- The texts of a page with the shortcodes that also stand in a source. -/
def placed (t : Tree) (source : String) : List Placement := placements t ((shortcodes source).map (·.fragment))

theorem mem_placed_iff {p : Placement} :
    p ∈ placed t source ↔ ∃ text, Affects t source p.node text ∧ p.shortcodes = affected source text := by
  unfold placed placements
  rw [List.mem_filterMap]
  constructor
  · rintro ⟨id, hid, hp⟩
    obtain ⟨hbelow, hmarkup⟩ := List.mem_filter.1 hid
    obtain ⟨text, htext, hp⟩ := Option.bind_eq_some_iff.1 hp
    change (if (affected source text).isEmpty then none else some (⟨id, affected source text⟩ : Placement)) = some p at hp
    split at hp
    · cases hp
    · rename_i hsome
      obtain rfl := Option.some.inj hp
      exact ⟨text, ⟨hbelow, htext, by simpa using hmarkup, fun hnone => hsome (by rw [hnone]; rfl)⟩, rfl⟩
  · rintro ⟨text, haffects, hshortcodes⟩
    refine ⟨p.node, List.mem_filter.2 ⟨haffects.below, by simpa using haffects.markup⟩, ?_⟩
    rw [haffects.reads]
    change (if (affected source text).isEmpty then none else some (⟨p.node, affected source text⟩ : Placement)) = some p
    rw [if_neg fun hnone => haffects.found (List.isEmpty_iff.1 hnone), ← hshortcodes]

/-- No text of a page is listed twice. -/
theorem nodup_placed (hgrown : t.Grown) (source : String) : ((placed t source).map (·.node)).Nodup := by
  have hdescendants : (t.descendants Tree.root).Nodup :=
    Tree.nodup_visit hgrown.linked (Tree.acyclic_of_withoutCircles hgrown.linked hgrown.withoutCircles) _
      (Tree.apart_siblings hgrown.linked (Tree.acyclic_of_withoutCircles hgrown.linked hgrown.withoutCircles) _)
  unfold placed placements
  rw [List.map_filterMap]
  refine (hdescendants.filter _).filterMap fun a a' n ha ha' => ?_
  have hnode : ∀ {a n : Nat}, n ∈ ((do
      let found := (shortcodes (← t.text? a)).filter fun s =>
        ((shortcodes source).map (·.fragment)).contains s.fragment
      if found.isEmpty then none else some ⟨a, found⟩ : Option Placement)).map (·.node) → n = a := by
    intro a n h
    obtain ⟨p, hp, rfl⟩ := Option.map_eq_some_iff.1 (Option.mem_def.1 h)
    obtain ⟨text, -, hp⟩ := Option.bind_eq_some_iff.1 hp
    dsimp only at hp
    split at hp
    · cases hp
    · rw [← Option.some.inj hp]
  exact (hnode ha).symm.trans (hnode ha')

theorem affects_unique {id : NodeId} {text' : String} (h : Affects t source id text) (h' : Affects t source id text') :
    text = text' := Option.some.inj (h.reads.symm.trans h'.reads)

/-- The texts of a page are replaced by their parts. -/
theorem spliced_placed (hgrown : t.Grown) (r : Renderings) (source : String) :
    t.Spliced ((placed t source).map fun p => (p.node, p.views t r)) ((placed t source).foldl (fun t p => p.splice r t) t) := by
  have hall : ∀ p ∈ placed t source, (∃ parent, p.node ∈ t.children parent) ∧ ∃ text, t.text? p.node = some text := by
    intro p hp
    obtain ⟨text, haffects, -⟩ := mem_placed_iff.1 hp
    refine ⟨?_, text, haffects.reads⟩
    cases Tree.below_of_mem_descendants hgrown.linked haffects.below with
    | single h => exact ⟨_, h⟩
    | tail _ h => exact ⟨_, h⟩
  have hspliced : t.Spliced ([] ++ (placed t source).map fun p => (p.node, p.views t r)) _ :=
    spliced_foldl hgrown (.refl hgrown) (nodup_placed hgrown source) hall
  exact hspliced

/-! ## Expansions -/

variable {x : Expander} {html : String} {e : Expansion}

/-- A page was expanded: it is written as it is with the parts of each affected text in the place of the text, and with
nothing else changed. -/
structure Rewritten (t : Tree) (source : String) (e : Expansion) (v : View) (f : NodeId → Option (List View)) : Prop where
  page : t.view? Tree.root = some v
  html : e.html = Html.writeAll false (v.replaced f)
  replaced : ∀ id text, Affects t source id text →
    ∃ pieces, Parts e.renderings 0 text (affected source text) pieces ∧ f id = some (pieces.flatMap Piece.views)
  kept : ∀ id, (∀ text, ¬ Affects t source id text) → f id = none

/-- Shortcodes were asked for: those that were not known and stand in the page. The answers are known now, as is what
was known before; where there was no answer, nothing is shown. -/
structure Asked (x : Expander) (r : Renderings) (t : Tree) (source : String) (e : Expansion) : Prop where
  asked : ∀ fragment, fragment ∈ e.requests.map (·.fragment) ↔ r.known.lookup fragment = none ∧
    ∃ id text, Affects t source id text ∧ fragment ∈ (affected source text).map (·.fragment)
  answered : ∀ q ∈ e.requests, e.renderings.known.lookup q.fragment = some (((x e.requests).lookup q.id).getD "")
  unanswered : ∀ q ∈ e.requests, (x e.requests).lookup q.id = none →
    ∃ html, e.renderings.known.lookup q.fragment = some html ∧ (Piece.rendering html).views = []
  known : ∀ fragment html, r.known.lookup fragment = some html → e.renderings.known.lookup fragment = some html

/-- What is made of markup is what is said of it: it stays as it is where there is nothing to render. -/
structure ExpandedExactly (x : Expander) (r : Renderings) (source html : String) (e : Expansion) : Prop where
  affected : ∀ t, Html.parse html = .ok t → (∃ id text, Affects t source id text) →
    Asked x r t source e ∧ ∃ v f, Rewritten t source e v f
  unaffected : (∀ t, Html.parse html = .ok t → ∀ id text, ¬ Affects t source id text) → e = ⟨html, r, []⟩

/-- No text is affected by a source without shortcodes. -/
theorem placed_of_nil (h : (shortcodes source).map (·.fragment) = []) (t : Tree) : placed t source = [] := by
  refine List.eq_nil_iff_forall_not_mem.2 fun p hp => ?_
  obtain ⟨text, haffects, -⟩ := mem_placed_iff.1 hp
  refine haffects.found (List.filter_eq_nil_iff.2 fun s _ => ?_)
  rw [h]
  exact Bool.false_ne_true

theorem expandShortcodes_of_nil (x : Expander) (r : Renderings)
    (h : ∀ t, Html.parse html = .ok t → placed t source = []) : expandShortcodes x r source html = ⟨html, r, []⟩ := by
  unfold expandShortcodes
  unfold placed at h
  generalize (shortcodes source).map (·.fragment) = inSource at h ⊢
  cases inSource with
  | nil => rfl
  | cons fragment inSource =>
    cases hp : Html.parse html with
    | error e => rfl
    | ok t =>
      dsimp only
      rw [h t hp]

theorem expandShortcodes_of_placed (x : Expander) (r : Renderings) (hp : Html.parse html = .ok t)
    (hsome : placed t source ≠ []) :
    let requests := r.requests ((placed t source).flatMap fun p => p.shortcodes.map (·.fragment))
    let known := if requests.isEmpty then r else r.learn requests (x requests)
    expandShortcodes x r source html =
      ⟨Html.serializeChildren ((placed t source).foldl (fun t p => p.splice known t) t) Tree.root, known, requests⟩ := by
  have hinSource : (shortcodes source).map (·.fragment) ≠ [] := fun hnil => hsome (placed_of_nil hnil t)
  unfold expandShortcodes
  unfold placed at hsome ⊢
  generalize (shortcodes source).map (·.fragment) = inSource at hinSource hsome ⊢
  cases inSource with
  | nil => exact absurd rfl hinSource
  | cons fragment inSource =>
    rw [hp]
    dsimp only
    generalize placements t (fragment :: inSource) = found at hsome ⊢
    cases found with
    | nil => exact absurd rfl hsome
    | cons p found => rfl

/-- The shortcodes that are to be rendered are those of the affected texts. -/
theorem mem_fragments_iff {fragment : String} :
    fragment ∈ (placed t source).flatMap (fun p => p.shortcodes.map (·.fragment)) ↔
      ∃ id text, Affects t source id text ∧ fragment ∈ (affected source text).map (·.fragment) := by
  rw [List.mem_flatMap]
  constructor
  · rintro ⟨p, hp, hfragment⟩
    obtain ⟨text, haffects, hshortcodes⟩ := mem_placed_iff.1 hp
    exact ⟨p.node, text, haffects, hshortcodes ▸ hfragment⟩
  · rintro ⟨id, text, haffects, hfragment⟩
    exact ⟨⟨id, affected source text⟩, mem_placed_iff.2 ⟨text, haffects, rfl⟩, hfragment⟩

/-- No rendering shows nothing. -/
theorem views_nothing : (Piece.rendering "").views = [] := by cbv

/-- What is asked for is what is not known, and it is known then. -/
theorem asked_of_requests (x : Expander) (r : Renderings) (t : Tree) (source html : String) :
    let requests := r.requests ((placed t source).flatMap fun p => p.shortcodes.map (·.fragment))
    Asked x r t source ⟨html, if requests.isEmpty then r else r.learn requests (x requests), requests⟩ := by
  intro requests
  have hanswered : ∀ q ∈ requests, (if requests.isEmpty then r else r.learn requests (x requests)).known.lookup q.fragment =
      some (((x requests).lookup q.id).getD "") := by
    intro q hq
    rw [if_neg fun hnone => List.ne_nil_of_mem hq (List.isEmpty_iff.1 hnone)]
    exact Renderings.lookup_learn_of_mem hq _
  refine ⟨fun fragment => ?_, hanswered, fun q hq hnone => ⟨"", ?_, views_nothing⟩, fun fragment html hknown => ?_⟩
  · exact (r.mem_requests_iff _).trans (and_congr_right fun _ => mem_fragments_iff)
  · rw [hanswered q hq, hnone]
    rfl
  · dsimp only
    split
    · exact hknown
    · exact Renderings.lookup_learn_of_some hknown _ _

/-- **The parts of every affected text stand in its place**, and nothing else changes, where all shortcodes are known. -/
theorem rewritten_of_known (hp : Html.parse html = .ok t) {requests : List RenderRequest}
    (hknown : ∀ id text, Affects t source id text → ∀ s ∈ affected source text, (r.known.lookup s.fragment).isSome = true) :
    ∃ v f, Rewritten t source
      ⟨Html.serializeChildren ((placed t source).foldl (fun t p => p.splice r t) t) Tree.root, r, requests⟩ v f := by
  obtain ⟨hgrown, hfree⟩ := Html.grown_of_parse hp
  obtain ⟨v, hview, hv, hid, hkind⟩ := exists_document hp
  have hspliced := spliced_placed hgrown r source
  have hroot : t.parent? Tree.root = none := by
    obtain ⟨f, -, hd⟩ := Html.forest_of_parse hp
    exact Tree.parent?_of_core hd.document
  -- only texts under the document are replaced, so none in a template is
  have hnone : ∀ id, (∀ text, ¬ Affects t source id text) →
      ((placed t source).map fun p => (p.node, p.views t r)).lookup id = none := by
    intro id hid
    refine List.lookup_eq_none_iff.2 fun y hy => ?_
    obtain ⟨p, hmem, rfl⟩ := List.mem_map.1 hy
    obtain ⟨text, haffects, -⟩ := mem_placed_iff.1 hmem
    rw [bne_iff_ne]
    rintro rfl
    exact hid text haffects
  have hdocument : ∀ text, ¬ Affects t source Tree.root text := by
    intro text haffects
    have htext := haffects.reads
    rw [Tree.text?_eq_kind, ← hid, hv.agrees.kind, hkind] at htext
    cases htext
  refine ⟨v, _, hview, ?_, fun id text haffects => ?_, hnone⟩
  · refine Html.serializeChildren_of_spliced hspliced hv hid hkind (hnone _ hdocument) (fun w hw u hu i hi => ?_) ?_
    · exact hnone i fun text haffects =>
        Tree.not_mem_descendants_of_contents hgrown hfree hroot hv hw hu hi haffects.below
    · intro y hy u hu
      obtain ⟨p, -, rfl⟩ := List.mem_map.1 hy
      obtain ⟨piece, -, hu⟩ := List.mem_flatMap.1 hu
      exact sealed_views piece u hu
  · refine ⟨_, parts_of_known (hknown id text haffects), ?_⟩
    have hmem : ⟨id, affected source text⟩ ∈ placed t source := mem_placed_iff.2 ⟨text, haffects, rfl⟩
    have hfound : ((placed t source).map fun p => (p.node, p.views t r)).lookup id =
        some (Placement.views t r ⟨id, affected source text⟩) := lookup_map_of_mem (nodup_placed hgrown source) hmem
    rwa [Placement.views, haffects.reads] at hfound

/-- **Substitution is exact.** Where shortcodes of the source stand in texts of the page, each text is replaced by what
stands outside of its shortcodes and their renderings, in order, and all else stays as it is; else the page stays. What
is asked for is what is not known yet, and is known afterwards. -/
theorem expanded_exactly (x : Expander) (r : Renderings) (source html : String) :
    ExpandedExactly x r source html (expandShortcodes x r source html) := by
  refine ⟨fun t hp ⟨id, text, haffects⟩ => ?_, fun hnone => ?_⟩
  · have hsome : placed t source ≠ [] := by
      intro hnil
      have hmem : ⟨id, affected source text⟩ ∈ placed t source := mem_placed_iff.2 ⟨text, haffects, rfl⟩
      rw [hnil] at hmem
      cases hmem
    rw [expandShortcodes_of_placed x r hp hsome]
    refine ⟨asked_of_requests x r t source _, rewritten_of_known hp fun id text haffects s hs => ?_⟩
    exact r.known_of_asked x (mem_fragments_iff.2 ⟨id, text, haffects, List.mem_map_of_mem hs⟩)
  · refine expandShortcodes_of_nil x r fun t hp => List.eq_nil_iff_forall_not_mem.2 fun p hmem => ?_
    obtain ⟨text, haffects, -⟩ := mem_placed_iff.1 hmem
    exact hnone t hp p.node text haffects

end LiveMarkup.Editor
