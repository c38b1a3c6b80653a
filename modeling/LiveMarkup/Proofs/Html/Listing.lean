/-
What a tree keeps of a text.

The innermost open element is the last one that was opened, so whatever is read is added behind all that
was read before (`items_perform`). A tree therefore lists its text, its comments and its tags in the order
of the text; nothing is lost but tags that are not taken (`items_of_parse`).
-/
import LiveMarkup.Proofs.Html.Origin

set_option autoImplicit false

namespace LiveMarkup

/-- What a tree keeps of a text: a character, a comment, or an element with its start tag. -/
inductive Item where
  | character (c : Char)
  | comment (data : String)
  | element (startTag : Span)
deriving DecidableEq, Repr

/-- An element that a tag of the text stands for. -/
def Element.items (e : Element) : List Item := (e.location.map fun l => Item.element l.startTag).toList

mutual

/-- What a view keeps, in document order; the contents of a template come before its children. -/
def View.items : View → List Item
  | .node _ kind contents children =>
    (match kind with
      | .text s => s.toList.map .character
      | .comment data => [.comment data]
      | .element e => e.items
      | .document | .fragment _ => [])
      ++ (itemsOf contents ++ itemsOf children)

/-- What several views keep, one view after the other. -/
def View.itemsOf : List View → List Item
  | [] => []
  | v :: rest => v.items ++ itemsOf rest

end

/-- What a tree keeps, in document order. -/
def Tree.items (t : Tree) : List Item :=
  match t.view? Tree.root with
  | some v => v.items
  | none => []

namespace Html

/-- What a tree can keep of a token. The end tag of a line break is read as a start tag. -/
def Token.item? : Token → Option Item
  | .character c => some (.character c)
  | .comment data _ => some (.comment data)
  | .startTag _ _ _ span => some (.element span)
  | .endTag name span => if name = "br" then some (.element span) else none
  | .doctype _ _ | .endOfFile _ => none

/-- Whether a token is text or a comment. -/
def Token.isContent : Token → Bool
  | .character _ | .comment _ _ => true
  | _ => false

/-! ## The items of a draft -/

/-- What a forest keeps, in document order. -/
def Forest.items : Forest → List Item
  | nil => []
  | text s rest => s.toList.map .character ++ rest.items
  | comment data rest => .comment data :: rest.items
  | element e inside rest => e.items ++ (inside.items ++ rest.items)

theorem Forest.items_append (f g : Forest) : (f ++ g).items = f.items ++ g.items := by
  induction f with
  | nil => rfl
  | text s rest ih => rw [text_append, items, items, ih, List.append_assoc]
  | comment data rest ih => rw [comment_append, items, items, ih, List.cons_append]
  | element e inside rest _ ih =>
    rw [element_append, items, items, ih, List.append_assoc, List.append_assoc]

theorem Forest.items_pushChar (f : Forest) (c : Char) : (f.pushChar c).items = f.items ++ [.character c] := by
  induction f, c using pushChar.induct with
  | case1 c =>
    change c.toString.toList.map _ ++ _ = _
    rw [Text.toList_toString]
    rfl
  | case2 s c =>
    change (s.push c).toList.map _ ++ [] = s.toList.map _ ++ [] ++ _
    rw [String.toList_push, List.map_append, List.append_nil, List.append_nil]
    rfl
  | case3 s rest c hne ih =>
    rw [pushChar, items, items, ih, List.append_assoc]
    exact hne
  | case4 data rest c ih => rw [pushChar, items, items, ih, List.cons_append]
  | case5 e inside rest c ih => rw [pushChar, items, items, ih, List.append_assoc, List.append_assoc]

/-- What open elements keep, from the outside in. -/
def frameItems : List Frame → List Item
  | [] => []
  | f :: frames => frameItems frames ++ (f.element.items ++ f.inside.items)

namespace Draft

/-- What a draft keeps. -/
def items (d : Draft) : List Item := d.done.items ++ frameItems d.opened

variable {limit offset : Nat} {d d' : Draft}

/-- What is read is added behind all that was read before. -/
theorem items_mapCurrent {g : Forest → Forest} {new : List Item} (hg : ∀ f : Forest, (g f).items = f.items ++ new) :
    (d.mapCurrent g).items = d.items ++ new := by
  unfold mapCurrent items
  split
  · rename_i hopened
    rw [hopened, hg, frameItems, List.append_nil, List.append_nil]
  · rename_i hopened
    simp only [hopened, frameItems, hg, List.append_assoc]

theorem items_add (new : Forest) : (d.add new).items = d.items ++ new.items :=
  items_mapCurrent fun f => Forest.items_append f new

theorem items_relocate {record : Location → Location} (hrecord : ∀ l, (record l).startTag = l.startTag)
    (e : Element) : (relocate record e).items = e.items := by
  unfold Element.items relocate
  simp only [Option.map_map, Function.comp_def, hrecord]

/-- A closed element keeps its place behind all that was read before it. -/
theorem items_close {record : Location → Location} (hrecord : ∀ l, (record l).startTag = l.startTag) :
    (d.close record).items = d.items := by
  unfold close
  split
  · rfl
  · rename_i hopened
    rw [items_add, Forest.items, Forest.items, items_relocate hrecord, List.append_nil, items, items, hopened,
      frameItems, List.append_assoc]

end Draft

/-- What an action adds. -/
def Action.items : Action → List Item
  | .insert e _ => e.items
  | .note _ | .close | .closeBy _ => []

namespace Draft

variable {limit offset : Nat} {d d' : Draft}

/-- **An action adds its items behind all that was read before.** -/
theorem items_perform {a : Action} (h : d.perform limit offset a = .ok d') : d'.items = d.items ++ a.items := by
  cases a with
  | note deviation => rw [← Except.ok.inj h, Action.items, List.append_nil]
  | close =>
    rw [← Except.ok.inj h, Action.items, List.append_nil]
    exact items_close fun _ => rfl
  | closeBy endTag =>
    rw [← Except.ok.inj h, Action.items, List.append_nil]
    exact items_close fun _ => rfl
  | insert e stays =>
    rw [perform] at h
    rw [Action.items]
    split at h
    · cases h
    · split at h
      · rw [← Except.ok.inj h, items, items, frameItems, Forest.items, List.append_nil, List.append_assoc]
      · rw [← Except.ok.inj h, items_add, Forest.items, Forest.items, List.append_nil, List.append_nil]

theorem items_foldlM {actions : List Action} (h : actions.foldlM (perform limit offset) d = .ok d') :
    d'.items = d.items ++ actions.flatMap Action.items := by
  induction actions generalizing d with
  | nil => rw [← Except.ok.inj h, List.flatMap_nil, List.append_nil]
  | cons a actions ih =>
    obtain ⟨m, hm, h⟩ := foldlM_cons_ok h
    rw [ih h, items_perform hm, List.flatMap_cons, List.append_assoc]

theorem items_closeAll (n : Nat) : (d.closeAll n).items = d.items := by
  unfold closeAll
  generalize d.opened = frames
  induction frames generalizing d with
  | nil => rfl
  | cons f frames ih =>
    rw [List.foldl_cons, ih]
    exact items_close fun _ => rfl

end Draft

/-! ## The items of a text -/

open Plan

theorem items_soft {soft : List Action} (h : ∀ a ∈ soft, a.Soft) : soft.flatMap Action.items = [] := by
  rw [List.flatMap_eq_nil_iff]
  intro a ha
  cases h a ha <;> rfl

theorem items_own {tag : StartTag} {e : Element} (h : Own tag e) : e.items = [.element tag.span] := by
  rw [Element.items, location_of_own h]
  rfl

/-- Which tokens are kept: text and comments are, and a start tag is when it is taken. -/
def Keeps (opened : List Key) (token : Token) (keep : Bool) : Prop :=
  (token.isContent = true → keep = true) ∧
    ∀ name selfClosing attributes span, token = .startTag name selfClosing attributes span →
      keep = takes opened ⟨name, selfClosing, attributes, span⟩

/-- **A token that is kept is added behind all that was read before.** -/
theorem items_read {limit offset : Nat} {d d' : Draft} {token : Token} (h : d.read limit offset token = .ok d') :
    ∃ keep, Keeps d.keys token keep ∧
      d'.items.map some = d.items.map some ++ if keep then [token.item?] else [] := by
  have dropped : ∀ {x : List Item}, x.map some = x.map some ++ if false then [token.item?] else [] :=
    (List.append_nil _).symm
  cases token with
  | character c =>
    refine ⟨true, ⟨fun _ => rfl, by rintro _ _ _ _ ⟨⟩⟩, ?_⟩
    rw [← Except.ok.inj h, Draft.items_mapCurrent fun f => f.items_pushChar c, List.map_append]
    rfl
  | comment data span =>
    refine ⟨true, ⟨fun _ => rfl, by rintro _ _ _ _ ⟨⟩⟩, ?_⟩
    rw [← Except.ok.inj h, Draft.items_add, List.map_append]
    rfl
  | doctype name span =>
    refine ⟨false, ⟨by rintro ⟨⟩, by rintro _ _ _ _ ⟨⟩⟩, ?_⟩
    rw [← Except.ok.inj h]
    exact dropped
  | startTag name selfClosing attributes span =>
    -- a start tag may close and add other elements first; its own comes last
    obtain ⟨soft, last, hactions, hsoft, hlast⟩ := actions_startTag d.keys ⟨name, selfClosing, attributes, span⟩
    rw [Draft.read] at h
    refine ⟨takes d.keys ⟨name, selfClosing, attributes, span⟩, ⟨by rintro ⟨⟩, ?_⟩, ?_⟩
    · rintro _ _ _ _ ⟨⟩
      rfl
    · rw [Draft.items_foldlM h, hactions, List.flatMap_append, items_soft hsoft, List.nil_append]
      rcases hlast with ⟨htaken, rfl⟩ | ⟨htaken, e, stays, he, rfl⟩
      · rw [htaken, List.flatMap_nil, List.append_nil]
        exact dropped
      · rw [htaken, List.flatMap_singleton, Action.items, items_own he, List.map_append]
        rfl
  | endTag name span =>
    obtain ⟨soft, last, hactions, hsoft, hlast⟩ := actions_endTag d.keys name span
    rw [Draft.read] at h
    rw [Draft.items_foldlM h, hactions, List.flatMap_append, items_soft hsoft, List.nil_append]
    rcases hlast with rfl | ⟨k, -, -, rfl⟩ | ⟨rfl, e, stays, he, rfl⟩
    · refine ⟨false, ⟨by rintro ⟨⟩, by rintro _ _ _ _ ⟨⟩⟩, ?_⟩
      rw [List.flatMap_nil, List.append_nil]
      exact dropped
    · refine ⟨false, ⟨by rintro ⟨⟩, by rintro _ _ _ _ ⟨⟩⟩, ?_⟩
      rw [List.flatMap_singleton, Action.items, List.append_nil]
      exact dropped
    · refine ⟨true, ⟨fun _ => rfl, by rintro _ _ _ _ ⟨⟩⟩, ?_⟩
      rw [List.flatMap_singleton, Action.items, items_own he, List.map_append]
      rfl
  | endOfFile n =>
    refine ⟨false, ⟨by rintro ⟨⟩, by rintro _ _ _ _ ⟨⟩⟩, ?_⟩
    rw [← Except.ok.inj h, Draft.items_closeAll]
    exact dropped

/-- The tags of a text are different tokens, since they stand at different places. -/
theorem nodup_tags {lo : Nat} {ts : List Token} (h : Lexer.Laid lo ts) : (ts.filter Token.isTag).Nodup := by
  induction ts generalizing lo with
  | nil => exact .nil
  | cons token ts ih =>
    rw [Lexer.Laid] at h
    cases hs : token.span? with
    | none =>
      rw [hs] at h
      have htag : token.isTag = false := by cases token <;> first | rfl | cases hs
      rw [List.filter_cons_of_neg (by rw [htag]; exact Bool.false_ne_true)]
      exact ih h
    | some span =>
      rw [hs] at h
      obtain ⟨-, -, hlt, hrest⟩ := h
      by_cases htag : token.isTag = true
      · rw [List.filter_cons_of_pos htag, List.nodup_cons]
        refine ⟨fun hmem => ?_, ih hrest⟩
        -- a later token stands behind this one
        have hle := laid_le hrest ((List.mem_filter.1 hmem).1) hs
        have := hlt (by cases token <;> first | rfl | exact absurd htag Bool.false_ne_true)
        omega
      · rw [List.filter_cons_of_neg htag]
        exact ih hrest

/-- **What a run over tokens keeps.** -/
theorem items_readAll {limit offset : Nat} {d d' : Draft} {ts : List Token}
    (hnodup : (ts.filter Token.isTag).Nodup) (h : d.readAll limit offset ts = .ok d') :
    ∃ kept : List Token, kept.Sublist ts ∧ d'.items.map some = d.items.map some ++ kept.map Token.item? ∧
      kept.filter Token.isContent = ts.filter Token.isContent ∧
      ∀ before name selfClosing attributes span after,
        ts = before ++ .startTag name selfClosing attributes span :: after →
        ∃ m, d.readAll limit offset before = .ok m ∧
          (.startTag name selfClosing attributes span ∈ kept ↔
            takes m.keys ⟨name, selfClosing, attributes, span⟩ = true) := by
  induction ts generalizing offset d with
  | nil =>
    refine ⟨[], .slnil, ?_, rfl, ?_⟩
    · rw [← Except.ok.inj h]
      exact (List.append_nil _).symm
    · intro before name selfClosing attributes span after heq
      exact absurd (congrArg List.length heq) (by simp)
  | cons token ts ih =>
    rw [Draft.readAll] at h
    cases hm : d.read limit (offsetAt offset token) token with
    | error e =>
      rw [hm] at h
      cases h
    | ok m =>
      rw [hm] at h
      have hrest : (ts.filter Token.isTag).Nodup := by
        refine hnodup.sublist (List.Sublist.filter _ ?_)
        exact List.sublist_cons_self _ _
      obtain ⟨keep, ⟨hcontent, htakes⟩, hitems⟩ := items_read hm
      obtain ⟨kept, hsub, hkept, hfilter, hstart⟩ := ih hrest h
      refine ⟨(if keep then [token] else []) ++ kept, ?_, ?_, ?_, ?_⟩
      · cases keep with
        | true => exact hsub.cons_cons token
        | false => exact hsub.cons token
      · rw [hkept, hitems, List.append_assoc, List.map_append]
        cases keep <;> rfl
      · rw [List.filter_append, hfilter]
        cases hc : token.isContent with
        | true =>
          rw [hcontent hc, if_pos rfl, List.filter_cons_of_pos hc, List.filter_cons_of_pos hc]
          rfl
        | false =>
          have hnone : (if keep then [token] else []).filter Token.isContent = [] := by
            cases keep <;> simp [hc]
          rw [hnone, List.filter_cons_of_neg (by rw [hc]; exact Bool.false_ne_true)]
          rfl
      · intro before name selfClosing attributes span after heq
        -- a tag stands once among the tokens, so a later one is not the first one
        have hlater : token.isTag = true → token ∉ ts := by
          intro htag hmem
          rw [List.filter_cons_of_pos htag, List.nodup_cons] at hnodup
          exact hnodup.1 (List.mem_filter.2 ⟨hmem, htag⟩)
        cases before with
        | nil =>
          obtain ⟨rfl, rfl⟩ := List.cons.inj heq
          refine ⟨d, rfl, ?_⟩
          have hout : .startTag name selfClosing attributes span ∉ kept := fun hmem =>
            hlater rfl (hsub.subset hmem)
          rw [← htakes _ _ _ _ rfl, List.mem_append, or_iff_left hout]
          cases keep <;> simp
        | cons first before =>
          obtain ⟨rfl, rfl⟩ := List.cons.inj heq
          obtain ⟨m', hm', hiff⟩ := hstart before name selfClosing attributes span after rfl
          refine ⟨m', ?_, ?_⟩
          · rw [Draft.readAll, hm]
            exact hm'
          · rw [← hiff, List.mem_append, or_iff_right]
            intro hmem
            cases keep with
            | false => exact absurd hmem List.not_mem_nil
            | true =>
              have hsame := List.mem_singleton.1 hmem
              rw [← hsame] at hlater
              exact hlater rfl (List.mem_append_right _ List.mem_cons_self)

theorem itemsOf_views (lo : Nat) (f : Forest) : View.itemsOf (f.views lo) = f.items := by
  have hplaced : ∀ id e, (placed id e).items = e.items := by
    intro id e
    unfold placed
    split <;> rfl
  induction f generalizing lo with
  | nil => rfl
  | text s rest ih =>
    rw [Forest.views, View.itemsOf, View.items, ih, Forest.items, View.itemsOf, List.append_nil, List.append_nil]
  | comment data rest ih =>
    rw [Forest.views, View.itemsOf, View.items, ih, Forest.items, View.itemsOf, List.append_nil]
    rfl
  | element e inside rest ihi ihr =>
    rw [Forest.views, View.itemsOf, ihr, Forest.items, ← List.append_assoc]
    congr 1
    split
    · simp only [View.items, View.itemsOf, ihi, hplaced, List.nil_append, List.append_nil]
    · simp only [View.items, View.itemsOf, ihi, hplaced, List.nil_append]

/-- A tree that shows a forest keeps what the forest does. -/
theorem items_of_depicts {t : Tree} {f : Forest} (h : Depicts t f) : t.items = f.items := by
  rw [Tree.items, view?_of_depicts h]
  exact itemsOf_views 1 f

/-- **Nothing of a text is lost, doubled or moved.** In document order a tree lists some of the tokens of its
text in their order: all text and all comments, and every start tag that is taken among the elements that are
open when it is read. -/
theorem items_of_parse {source : String} {t : Tree} (h : parse source = .ok t) :
    ((tokenize source).filter Token.isTag).Nodup ∧
    ∃ kept : List Token, kept.Sublist (tokenize source) ∧ t.items.map some = kept.map Token.item? ∧
      kept.filter Token.isContent = (tokenize source).filter Token.isContent ∧
      ∀ before name selfClosing attributes span after,
        tokenize source = before ++ .startTag name selfClosing attributes span :: after →
        ∃ b, (Builder.start maxOpenElements).readAll before = .ok b ∧
          (.startTag name selfClosing attributes span ∈ kept ↔
            takes b.keys ⟨name, selfClosing, attributes, span⟩ = true) := by
  have hnodup := nodup_tags (laid_tokenize source)
  refine ⟨hnodup, ?_⟩
  obtain ⟨f, hf, hd⟩ : ∃ f, forestOf source = .ok f ∧ Depicts t f := by
    rcases parse_cases source with ⟨e, hp, -⟩ | ⟨t', f, hp, hf, hd⟩
    · rw [h] at hp
      exact absurd hp nofun
    · rw [h] at hp
      obtain rfl := Except.ok.inj hp
      exact ⟨f, hf, hd⟩
  obtain ⟨d, hread, rfl⟩ := readAll_of_grow hf
  obtain ⟨kept, hsub, hitems, hcontent, hstart⟩ := items_readAll hnodup hread
  refine ⟨kept, hsub, ?_, hcontent, ?_⟩
  · -- in the end no element is open
    have hclosed : d.opened = [] := by
      obtain ⟨ts, hts, -⟩ := tokenize_end source
      rw [hts] at hread
      exact Draft.opened_of_readAll hread
    have hall : d.items = d.done.items := by rw [Draft.items, hclosed, frameItems, List.append_nil]
    rw [items_of_depicts hd, ← hall]
    exact hitems
  · intro before name selfClosing attributes span after hsplit
    obtain ⟨m, hm, hiff⟩ := hstart before name selfClosing attributes span after hsplit
    rcases readAll_agree before (pictures_start maxOpenElements) with ⟨e, -, herror⟩ | ⟨b, m', hb, hm', hpictures⟩
    · exact absurd (hm.symm.trans herror) nofun
    · obtain rfl := Except.ok.inj (hm.symm.trans hm')
      refine ⟨b, hb, ?_⟩
      rw [hpictures.keys]
      exact hiff

/-- A row is not taken outside of a table, and a cell adds the row that is left out. -/
theorem items_of_table :
    ∃ t, parse "<tr>a<table><td>b</br></table>" = .ok t ∧
      t.items = [.character 'a', .element ⟨5, 12⟩, .element ⟨12, 16⟩, .character 'b', .element ⟨17, 22⟩] ∧
      ∃ kept : List Token, kept.Sublist (tokenize "<tr>a<table><td>b</br></table>") ∧
        t.items.map some = kept.map Token.item? := by
  have hseen : (parse "<tr>a<table><td>b</br></table>").map Tree.items
      = .ok [.character 'a', .element ⟨5, 12⟩, .element ⟨12, 16⟩, .character 'b', .element ⟨17, 22⟩] := by cbv
  cases hp : parse "<tr>a<table><td>b</br></table>" with
  | error e =>
    rw [hp] at hseen
    cases hseen
  | ok t =>
    rw [hp] at hseen
    obtain ⟨-, kept, hsub, hitems, -⟩ := items_of_parse hp
    exact ⟨t, rfl, Except.ok.inj hseen, kept, hsub, hitems⟩

end Html

end LiveMarkup
