/-
Parsing what was written.

The elements whose names no rule of markup speaks of are made by their own tags wherever they stand
(`plain_of_generic`). So a tree of such elements that is written and parsed is the same tree again
(`parse_serializeChildren`).
-/
import LiveMarkup.Proofs.Html.Remade
import LiveMarkup.Proofs.Html.Spelled

set_option autoImplicit false

namespace LiveMarkup.Html

open Text

/-- The names that a rule for start tags or a rule for end tags speaks of. -/
def ruledNames : List String :=
  ignoredStartNames ++ ["svg", "math"] ++ blockStartNames ++ headings ++ ["li", "dd", "dt", "button", "a", "option",
    "optgroup", "rb", "rtc", "rp", "rt", "image"] ++ tablePartNames ++ ignoredEndNames ++ ["br", "p", "template"]
    ++ tableEndNames ++ ["col"] ++ blockEndNames

/-- A name of lower case letters, digits and hyphens that begins with a letter. It is not that of a void
element, does not change how text is read, and no rule speaks of it. -/
structure GenericName (name : String) : Prop where
  letter : ∃ c cs, name.toList = c :: cs ∧ c.isLower = true
  chars : ∀ c ∈ name.toList, c.isLower = true ∨ c.isDigit = true ∨ c = '-'
  void : isVoidName name = false
  content : Content.ofElement name = .markup
  rules : name ∉ ruledNames

/-- An element of HTML of a generic name. Its attributes have different names in lower case that can be
written, and values without null characters. -/
structure GenericElement (e : Element) : Prop where
  name : GenericName e.name
  space : e.space = .html
  names : ∀ a ∈ e.attributes, isAttributeName a.name = true ∧ a.name.toLower = a.name
  values : ∀ a ∈ e.attributes, '\x00' ∉ a.value.toList
  distinct : (e.attributes.map (·.name)).Nodup

/-- The data of a comment that can be written: no null character, and nothing that ends the comment early. -/
structure GenericComment (data : String) : Prop where
  null : '\x00' ∉ data.toList
  start : ¬ ['>'] <+: data.toList
  startDash : ¬ ['-', '>'] <+: data.toList
  close : ¬ ['-', '-', '>'] <:+: data.toList
  closeBang : ¬ ['-', '-', '!', '>'] <:+: data.toList

/-- A forest of generic elements, no deeper than a depth. Its texts are not empty and do not meet. -/
def Forest.Generic : Nat → Forest → Prop
  | _, .nil => True
  | depth, .text s rest => s ≠ "" ∧ rest.beginsInText = false ∧ rest.Generic depth
  | depth, .comment data rest => GenericComment data ∧ rest.Generic depth
  | 0, .element _ _ _ => False
  | depth + 1, .element e inside rest => GenericElement e ∧ inside.Generic depth ∧ rest.Generic (depth + 1)

/-! ## Generic elements and comments -/

theorem isLower_iff (c : Char) : c.isLower = true ↔ 97 ≤ c.toNat ∧ c.toNat ≤ 122 := by
  simp only [Char.isLower, Bool.and_eq_true, decide_eq_true_eq]
  rfl

theorem commentText_of_generic {data : String} (h : GenericComment data) : CommentText data.toList := by
  refine ⟨?_, h.null⟩
  intro before after heq
  refine ⟨?_, ?_, ?_, ?_⟩
  · rintro rfl
    exact h.start ⟨after, heq.symm⟩
  · rintro rfl
    exact h.startDash ⟨after, heq.symm⟩
  · rintro ⟨pre, rfl⟩
    refine h.close ⟨pre, after, ?_⟩
    rw [heq, List.append_assoc, List.append_assoc]
    rfl
  · rintro ⟨pre, rfl⟩
    refine h.closeBang ⟨pre, after, ?_⟩
    rw [heq, List.append_assoc, List.append_assoc]
    rfl

/-- The characters of a generic name can be written and are in lower case. -/
theorem tagChar_of_generic {c : Char} (h : c.isLower = true ∨ c.isDigit = true ∨ c = '-') :
    TagChar c ∧ c.toLower = c := by
  have hdigit : c.isDigit = true ↔ 48 ≤ c.toNat ∧ c.toNat ≤ 57 := by
    simp only [Char.isDigit, Bool.and_eq_true, decide_eq_true_eq]
    rfl
  rw [isLower_iff, hdigit] at h
  have hcode : 48 ≤ c.toNat ∧ c.toNat ≤ 57 ∨ 97 ≤ c.toNat ∧ c.toNat ≤ 122 ∨ c.toNat = 45 := by
    rcases h with h | h | rfl
    · exact .inr (.inl h)
    · exact .inl h
    · exact .inr (.inr rfl)
  have hne : ∀ d : Char, d.toNat ≠ c.toNat → c ≠ d := fun d hd heq => hd (congrArg Char.toNat heq).symm
  refine ⟨⟨?_, ?_, ?_, ?_⟩, ?_⟩
  · rw [Bool.eq_false_iff, ne_eq, isAsciiSpace_iff]
    omega
  · exact hne '/' (by rw [show ('/' : Char).toNat = 47 from rfl]; omega)
  · exact hne '>' (by rw [show ('>' : Char).toNat = 62 from rfl]; omega)
  · exact hne '\x00' (by rw [show ('\x00' : Char).toNat = 0 from rfl]; omega)
  · apply Char.ext
    apply UInt32.toNat_inj.1
    have := toNat_toLower c
    rw [if_neg (by omega)] at this
    exact this

theorem lowerTag_of_generic {name : String} (h : GenericName name) : LowerTag name := by
  refine ⟨?_, fun c hc => (tagChar_of_generic (h.chars c hc)).2⟩
  obtain ⟨c, cs, hlist, hc⟩ := h.letter
  have hchars := h.chars
  rw [hlist] at hchars ⊢
  refine .mk ?_ fun d hd => (tagChar_of_generic (hchars d (List.mem_cons_of_mem _ hd))).1
  rw [isAlpha_iff]
  exact .inr ((isLower_iff c).1 hc)

theorem lowered_of_generic {e : Element} (h : GenericElement e) : e.attributes.map Lexer.lowered = e.attributes := by
  refine (List.map_congr_left fun a ha => ?_).trans (List.map_id _)
  rw [Lexer.lowered, (h.names a ha).2, id]

theorem legible_of_generic {e : Element} (h : GenericElement e) : Lexer.Legible e := by
  refine ⟨(lowerTag_of_generic h.name).chars, ?_, ?_⟩
  · intro a ha
    have hwritable := writable_of_isAttributeName (h.names a ha).1 (h.values a ha)
    exact ⟨hwritable.name, hwritable.value⟩
  · rw [lowered_of_generic h]
    exact h.distinct

/-! ## Names without a rule -/

theorem contains_of_unruled {names : List String} {name : String} (h : name ∉ names) : names.contains name = false :=
  Bool.eq_false_iff.2 fun hc => h (List.contains_iff_mem.1 hc)

/-- A start tag without a rule closes nothing and ends no list item. -/
theorem settled_of_unruled {opened : List Key} {name : String} (h : name ∉ ruledNames)
    (hopened : ∀ k ∈ opened, k.space = .html) : Plan.Settled opened name ∧ endsNoItem opened name = true := by
  have houtside : opened.head?.any Key.isForeign = false := by
    cases opened with
    | nil => rfl
    | cons k rest =>
      rw [List.head?_cons, Option.any_some, Key.isForeign, hopened k List.mem_cons_self]
      rfl
  have howned : Plan.unownedNames.contains name = false := by
    have hsub : ∀ other ∈ Plan.unownedNames, other ∈ ruledNames := by decide
    exact contains_of_unruled fun hc => h (hsub name hc)
  simp only [ruledNames, List.mem_append, List.mem_cons, List.not_mem_nil, or_false, not_or] at h
  refine ⟨⟨howned, houtside, ?_⟩, ?_⟩
  · simp only [Plan.SettledBy, h, contains_of_unruled, beq_eq_false_iff_ne.2, ne_eq, not_false_eq_true,
      Bool.false_eq_true, Bool.or_self, if_false]
  · simp only [endsNoItem, h, beq_eq_false_iff_ne.2, ne_eq, not_false_eq_true, Bool.false_eq_true, Bool.or_self, if_false]

/-- **A generic element is made by its own tags**, wherever it stands in HTML. -/
theorem plain_of_generic {opened : List Key} {e : Element} (h : GenericElement e)
    (hopened : ∀ k ∈ opened, k.space = .html) : Plain opened e := by
  have hname : e.name.toLower = e.name := toLower_of_lower (lowerTag_of_generic h.name).lower
  have hlowered := lowered_of_generic h
  refine plain_of_renewable ⟨legible_of_generic h, ?_, ?_, fun _ => ?_, fun hspace => absurd h.space hspace⟩
  · rw [h.space, hname]
    rfl
  · rw [h.space, hlowered]
    rfl
  · rw [hname]
    exact settled_of_unruled h.name.rules hopened

/-- **A forest of generic elements can be read back.** -/
theorem rebuilds_of_generic {limit depth : Nat} {opened : List Key} {f : Forest} (hf : f.Generic depth)
    (hopened : ∀ k ∈ opened, k.space = .html) (hroom : opened.length + depth ≤ limit) :
    Rebuilds limit opened f := by
  induction f generalizing depth opened with
  | nil => exact trivial
  | text s rest ih =>
    obtain ⟨hs, hnext, hrest⟩ : s ≠ "" ∧ rest.beginsInText = false ∧ rest.Generic depth := by
      cases depth <;> exact hf
    exact ⟨hs, hnext, ih hrest hopened hroom⟩
  | comment data rest ih =>
    obtain ⟨hdata, hrest⟩ : GenericComment data ∧ rest.Generic depth := by
      cases depth <;> exact hf
    exact ⟨commentText_of_generic hdata, ih hrest hopened hroom⟩
  | element e inside rest ihi ihr =>
    cases depth with
    | zero => exact absurd hf id
    | succ depth =>
      obtain ⟨he, hinside, hrest⟩ := hf
      have hvoid : e.isVoid = false := by rw [Element.isVoid, he.name.void, Bool.and_false]
      have hcontent : contentOf e = .markup := by
        rw [contentOf, toLower_of_lower (lowerTag_of_generic he.name).lower, he.name.content]
      -- the elements whose text is written as it is are read in a way of their own
      have hwritten : writesRaw e = false := by
        have hraw : ∀ name ∈ rawTextNames, Content.ofElement name ≠ .markup := by decide
        rw [writesRaw, Bool.and_eq_false_iff]
        exact .inr (Bool.eq_false_iff.2 fun hc => hraw _ (List.contains_iff_mem.1 hc) he.name.content)
      refine ⟨plain_of_generic he hopened, ?_, ihr hrest hopened hroom⟩
      rw [hvoid, if_neg Bool.false_ne_true, if_pos hcontent]
      refine ⟨by omega, hwritten, ihi hinside ?_ ?_⟩
      · intro k hk
        rcases List.mem_cons.1 hk with rfl | hk
        · exact he.space
        · exact hopened k hk
      · rw [List.length_cons]
        omega

/-! ## Written and parsed -/

/-- The elements of forests that markup says the same of are templates together. -/
theorem isTemplate_of_bare {f g : Forest} (h : f.bare = g.bare) (hg : ∀ e ∈ g.elements, isTemplate e = false) :
    ∀ e ∈ f.elements, isTemplate e = false := by
  intro e he
  have hmem : e.bare ∈ g.elements.map Element.bare := by
    rw [← Forest.elements_bare, ← h, Forest.elements_bare]
    exact List.mem_map_of_mem he
  obtain ⟨e', he', heq⟩ := List.mem_map.1 hmem
  have htemplate : ∀ x : Element, isTemplate x.bare = isTemplate x := fun _ => rfl
  rw [← htemplate, ← heq, htemplate]
  exact hg e' he'

theorem isTemplate_of_generic {depth : Nat} {f : Forest} (hf : f.Generic depth) :
    ∀ e ∈ f.elements, isTemplate e = false := by
  induction f generalizing depth with
  | nil => exact fun e he => absurd he List.not_mem_nil
  | text s rest ih =>
    have hrest : rest.Generic depth := by cases depth <;> exact hf.2.2
    exact ih hrest
  | comment data rest ih =>
    have hrest : rest.Generic depth := by cases depth <;> exact hf.2
    exact ih hrest
  | element e inside rest ihi ihr =>
    cases depth with
    | zero => exact absurd hf id
    | succ depth =>
      obtain ⟨he, hinside, hrest⟩ := hf
      intro x hx
      rw [Forest.elements_element] at hx
      rcases List.mem_cons.1 hx with rfl | hx
      · have hname : x.name ≠ "template" := by
          intro hname
          exact he.name.rules (by rw [hname]; decide)
        rw [isTemplate, beq_eq_false_iff_ne.2 hname, Bool.and_false]
      · rcases List.mem_append.1 hx with hx | hx
        · exact ihi hinside x hx
        · exact ihr hrest x hx

/-- **Parsing inverts writing.** A document that spells a forest of generic elements, no deeper than elements
may be open at once, is written and parsed as a document that spells the same forest: the same names,
attributes in order, values, texts and comments. -/
theorem parse_serializeChildren {t : Tree} {f : Forest} (ht : t.IsDocumentOf f) (hf : f.Generic maxOpenElements) :
    ∃ t' f', parse (serializeChildren t Tree.root) = .ok t' ∧ t'.IsDocumentOf f' ∧ f'.bare = f.bare := by
  have hrebuilds : Rebuilds maxOpenElements [] f :=
    rebuilds_of_generic hf (fun k hk => absurd hk List.not_mem_nil) (by rw [List.length_nil]; omega)
  obtain ⟨made, hbare, hforest⟩ := forestOf_of_readsAs (readsAs_forest hrebuilds)
  rw [String.ofList_toList, ← serializeChildren_of_spells ht] at hforest
  obtain ⟨t', hparse, hdepicts⟩ := parse_of_forest hforest
  refine ⟨t', made, hparse, isDocumentOf_of_depicts hdepicts ?_, hbare⟩
  exact isTemplate_of_bare hbare (isTemplate_of_generic hf)

/-- A document of one element with an attribute, a text and a comment. -/
def card : Element := { Element.ofName "x-card" with attributes := [⟨"title", "a\"&b"⟩] }

/-- Its nodes, by place. -/
def cardTree : Tree :=
  ⟨#[⟨.document, none, [1], none, none⟩, ⟨.element card, some 0, [2, 3], none, none⟩,
    ⟨.text "1 < 2", some 1, [], none, some 3⟩, ⟨.comment "c", some 1, [], some 2, none⟩]⟩

/-- What is written for the element is parsed as the element. -/
theorem parse_of_card :
    let f : Forest := .element card (.text "1 < 2" (.comment "c" .nil)) .nil
    cardTree.IsDocumentOf f ∧ f.Generic maxOpenElements ∧
      ∃ t' f', parse (serializeChildren cardTree Tree.root) = .ok t' ∧ t'.IsDocumentOf f' ∧ f'.bare = f.bare := by
  intro f
  have htree : cardTree.IsDocumentOf f :=
    ⟨[1], rfl, 1, [], [2, 3], rfl, rfl, rfl, ⟨2, [3], rfl, rfl, 3, [], rfl, rfl, rfl⟩, rfl⟩
  have hname : GenericName "x-card" :=
    ⟨⟨'x', _, rfl, by decide⟩, List.all_iff_forall_prop.1 rfl, by cbv, by decide, by decide⟩
  have hnames : ∀ a ∈ card.attributes, isAttributeName a.name = true ∧ a.name.toLower = a.name := by
    intro a ha
    obtain rfl := List.mem_singleton.1 ha
    exact ⟨by decide, by cbv⟩
  have hcard : GenericElement card := ⟨hname, rfl, hnames, by decide, by decide⟩
  have hgeneric : f.Generic maxOpenElements :=
    ⟨hcard, ⟨by decide, rfl, ⟨by decide, by decide, by decide, by decide, by decide⟩, trivial⟩, trivial⟩
  exact ⟨htree, hgeneric, parse_serializeChildren htree hgeneric⟩

end LiveMarkup.Html
