/-
Reading a written start tag.

A start tag is written as its name, its attributes and its end. The lexer passes over each of these
pieces, whatever follows, and adds to the tag what the piece was written for: a name in lower case
(`passes_name`), an attribute with its value (`passes_value`, since an escaped value is read back as the
value), and in the end it reports the tag (`reads_close`).
-/
import LiveMarkup.Html.Serialize
import LiveMarkup.Proofs.Html.Lexing.Shift

set_option autoImplicit false

namespace LiveMarkup.Html

open Text

/-! ## Characters of names -/

/-- A character that a tag name can go on with. -/
structure TagChar (c : Char) : Prop where
  space : isAsciiSpace c = false
  slash : c ≠ '/'
  close : c ≠ '>'
  null : c ≠ '\x00'

/-- A character that an attribute name can go on with. -/
structure AttributeChar (c : Char) : Prop extends TagChar c where
  equals : c ≠ '='

/-- A name that can be written as that of a tag. -/
inductive TagName : List Char → Prop
  | mk {c : Char} {cs : List Char} : c.isAlpha → (∀ d ∈ cs, TagChar d) → TagName (c :: cs)

/-- A name that can be written as that of an attribute. An equals sign can be its first character. -/
inductive AttributeName : List Char → Prop
  | mk {c : Char} {cs : List Char} : TagChar c → (∀ d ∈ cs, AttributeChar d) → AttributeName (c :: cs)

theorem ne_empty_of_tagName {name : String} (h : TagName name.toList) : name ≠ "" := by
  rintro rfl
  cases h

theorem ne_empty_of_attributeName {name : String} (h : AttributeName name.toList) : name ≠ "" := by
  rintro rfl
  cases h

theorem tagChar_of_isAlpha {c : Char} (h : c.isAlpha = true) : TagChar c := by
  have hc := (isAlpha_iff c).1 h
  refine ⟨Bool.eq_false_iff.2 fun hs => ?_, ?_, ?_, ?_⟩
  · have := (isAsciiSpace_iff c).1 hs
    omega
  all_goals
    rintro rfl
    exact absurd h (by decide)

theorem replaceNull_of_ne {c : Char} (h : c ≠ '\x00') : replaceNull c = c := if_neg h

namespace TagDraft

/-- The tag with an attribute added. -/
def add (tag : TagDraft) (a : Attribute) : TagDraft := { tag with attributes := a :: tag.attributes }

/-- The tag that is reported when it ends. -/
def report (tag : TagDraft) (selfClosing : Bool) (stop : Nat) : Token :=
  .startTag tag.name selfClosing (dropRepeated [] tag.attributes.reverse) ⟨tag.start, stop⟩

/-- How the text after a tag is read. -/
def contentAfter (tag : TagDraft) (selfClosing : Bool) : Content :=
  if selfClosing then .markup else Content.ofElement tag.name

end TagDraft

namespace Lexer

variable {ls : Option String} {s s' s'' : State} {c : Char} {cs : List Char} {tag : TagDraft} {a : Attribute}

/-! ## Passing over a piece of text -/

/-- From one state to another over a piece of text, whatever follows it. -/
def Passes (ls : Option String) (s : State) (cs : List Char) (s' : State) : Prop :=
  ∀ rest offset, Reads ⟨cs ++ rest, offset, ls, s⟩ [] ⟨rest, offset + byteLength cs, ls, s'⟩

theorem passes_nil (s : State) : Passes ls s [] s := fun _ _ => .refl _

theorem passes_append {ds : List Char} (h : Passes ls s cs s') (k : Passes ls s' ds s'') :
    Passes ls s (cs ++ ds) s'' := by
  intro rest offset
  have h := h (ds ++ rest) offset
  have k := k rest (offset + byteLength cs)
  rw [List.append_assoc, byteLength_append, ← Nat.add_assoc]
  exact h.trans k

/-- A character that a step consumes. -/
theorem passes_take (h : ∀ rest offset, ∃ errors, step ⟨c :: rest, offset, ls, s⟩
      = take ⟨c :: rest, offset, ls, s⟩ c rest s' [] errors) : Passes ls s [c] s' := by
  intro rest offset
  obtain ⟨errors, hstep⟩ := h rest offset
  refine .one ?_ ?_
  · rw [List.cons_append, List.nil_append, hstep]
    rfl
  · rw [List.cons_append, List.nil_append, hstep]
    rfl

/-- A character that a step looks at and leaves. -/
theorem passes_stay (h : ∀ rest offset, ∃ errors, step ⟨c :: rest, offset, ls, s⟩
      = stay ⟨c :: rest, offset, ls, s⟩ s' [] errors) (k : Passes ls s' (c :: cs) s'') :
    Passes ls s (c :: cs) s'' := by
  intro rest offset
  obtain ⟨errors, hstep⟩ := h (cs ++ rest) offset
  have k := k rest offset
  refine .silent ?_ ?_ k
  · rw [List.cons_append, hstep]
    rfl
  · rw [List.cons_append, hstep]
    rfl

/-! ## Names -/

theorem passes_tagChar (h : TagChar c) :
    Passes ls (.tagName tag) [c] (.tagName { tag with name := tag.name.push c.toLower }) := by
  refine passes_take fun rest offset => ⟨0, ?_⟩
  simp only [step, stepTagName, h.space, h.slash, h.close, Bool.false_eq_true, if_false, TagDraft.pushName,
    replaceNull_of_ne h.null]

/-- **A name is read in lower case.** -/
theorem passes_name (h : ∀ d ∈ cs, TagChar d) :
    Passes ls (.tagName tag) cs
      (.tagName { tag with name := tag.name ++ String.ofList (cs.map Char.toLower) }) := by
  induction cs generalizing tag with
  | nil =>
    have hname : tag.name ++ String.ofList [] = tag.name := String.append_empty
    rw [List.map_nil, hname]
    exact passes_nil _
  | cons c cs ih =>
    have hfirst : Passes ls (.tagName tag) [c] _ := passes_tagChar (h c List.mem_cons_self)
    have hrest : Passes ls (.tagName { tag with name := tag.name.push c.toLower }) cs _ :=
      ih fun d hd => h d (List.mem_cons_of_mem _ hd)
    have hname : tag.name.push c.toLower ++ String.ofList (cs.map Char.toLower)
        = tag.name ++ String.ofList ((c :: cs).map Char.toLower) := by
      apply String.ext
      simp only [String.toList_append, String.toList_push, String.toList_ofList, List.map_cons, List.append_assoc,
        List.singleton_append]
    rw [← hname]
    exact passes_append hfirst hrest

theorem pushAttributeName_add (tag : TagDraft) (a : Attribute) (c : Char) :
    (tag.add a).pushAttributeName c = tag.add { a with name := a.name.push c } := rfl

theorem appendValue_add (tag : TagDraft) (a : Attribute) (text : String) :
    (tag.add a).appendValue text = tag.add { a with value := a.value ++ text } := rfl

theorem passes_attributeChar (h : AttributeChar c) :
    Passes ls (.attributeName (tag.add a)) [c]
      (.attributeName (tag.add { a with name := a.name.push c.toLower })) := by
  refine passes_take fun rest offset => ⟨if c = '"' ∨ c = '\'' ∨ c = '<' then 1 else 0, ?_⟩
  simp only [step, stepAttributeName, h.space, h.slash, h.close, h.equals, Bool.false_eq_true, or_self, if_false,
    takeAttributeName, pushAttributeName_add, replaceNull_of_ne h.null]

theorem passes_attributeChars (h : ∀ d ∈ cs, AttributeChar d) :
    Passes ls (.attributeName (tag.add a)) cs
      (.attributeName (tag.add { a with name := a.name ++ String.ofList (cs.map Char.toLower) })) := by
  induction cs generalizing a with
  | nil =>
    have hname : a.name ++ String.ofList [] = a.name := String.append_empty
    rw [List.map_nil, hname]
    exact passes_nil _
  | cons c cs ih =>
    have hfirst : Passes ls (.attributeName (tag.add a)) [c] _ := passes_attributeChar (h c List.mem_cons_self)
    have hrest : Passes ls (.attributeName (tag.add { a with name := a.name.push c.toLower })) cs _ :=
      ih fun d hd => h d (List.mem_cons_of_mem _ hd)
    have hname : a.name.push c.toLower ++ String.ofList (cs.map Char.toLower)
        = a.name ++ String.ofList ((c :: cs).map Char.toLower) := by
      apply String.ext
      simp only [String.toList_append, String.toList_push, String.toList_ofList, List.map_cons, List.append_assoc,
        List.singleton_append]
    rw [← hname]
    exact passes_append hfirst hrest

/-- The states at which an attribute, or the end of the tag, can follow. -/
inductive Ready (tag : TagDraft) : State → Prop
  | tagName : Ready tag (.tagName tag)
  | afterQuotedValue : Ready tag (.afterQuotedValue tag)
  /-- After an attribute without a value. -/
  | attributeName : Ready tag (.attributeName tag)

theorem push_empty (c : Char) : "".push c = String.ofList [c] := by
  apply String.ext
  simp

/-- **The name of an attribute is read in lower case.** After an attribute without a value, an equals sign
would be read as that of its value. -/
theorem passes_attributeName (hs : Ready tag s) (h : AttributeName cs)
    (heq : s = .attributeName tag → cs.head? ≠ some '=') :
    Passes ls s (' ' :: cs)
      (.attributeName (tag.add ⟨String.ofList (cs.map Char.toLower), ""⟩)) := by
  cases h with
  | @mk c cs hc hcs =>
    have hrest : Passes ls (.attributeName (tag.add ⟨"".push c.toLower, ""⟩)) cs _ := passes_attributeChars hcs
    have hname : "".push c.toLower ++ String.ofList (cs.map Char.toLower)
        = String.ofList ((c :: cs).map Char.toLower) := by
      rw [push_empty, ← String.ofList_append]
      rfl
    rw [hname] at hrest
    -- how the name begins depends on the state, how it goes on does not
    suffices hfirst : Passes ls s [' ', c] (.attributeName (tag.add ⟨"".push c.toLower, ""⟩)) from
      passes_append hfirst hrest
    have begin_of_before : Passes ls (.beforeAttributeName tag) [c]
        (.attributeName (tag.add ⟨"".push c.toLower, ""⟩)) := by
      by_cases hc' : c = '='
      · subst hc'
        exact passes_take fun rest offset => ⟨1, rfl⟩
      · refine passes_take fun rest offset => ⟨if c = '"' ∨ c = '\'' ∨ c = '<' then 1 else 0, ?_⟩
        simp only [step, stepBeforeAttributeName, hc.space, hc.slash, hc.close, hc', Bool.false_eq_true, or_self,
          if_false, takeAttributeName, replaceNull_of_ne hc.null]
        rfl
    cases hs with
    | tagName => exact passes_append (passes_take fun rest offset => ⟨0, rfl⟩) begin_of_before
    | afterQuotedValue => exact passes_append (passes_take fun rest offset => ⟨0, rfl⟩) begin_of_before
    | attributeName =>
      -- here an equals sign would belong to the attribute before
      have hc' : c ≠ '=' := fun h => heq rfl (congrArg some h)
      have hspace : Passes ls (.attributeName tag) [' '] (.afterAttributeName tag) :=
        passes_stay (fun rest offset => ⟨0, rfl⟩) (passes_take fun rest offset => ⟨0, rfl⟩)
      refine passes_append hspace ?_
      refine passes_take fun rest offset => ⟨if c = '"' ∨ c = '\'' ∨ c = '<' then 1 else 0, ?_⟩
      simp only [step, stepAfterAttributeName, hc.space, hc.slash, hc.close, hc', Bool.false_eq_true, if_false,
        takeAttributeName, replaceNull_of_ne hc.null]
      rfl

/-! ## Values -/

theorem stepNamedReference_terminated {l : Lexer} (site : Site) {found : EntityMatch}
    (hfound : longestEntity? l.rest = some found) (h : found.terminated = true) :
    l.stepNamedReference site = l.skip found.length (site.write found.replacement).2.resume
      (site.write found.replacement).1 0 := by
  unfold stepNamedReference
  rw [hfound]
  simp only [h, Bool.not_true, Bool.and_false, Bool.false_and, Bool.false_eq_true, if_false, Bool.or_true, if_true]

/-- A reference that ends with its semicolon is read as what it stands for. -/
theorem reads_reference (site : Site) {name : List Char} {found : EntityMatch}
    (hamp : ∀ rest offset, step ⟨'&' :: rest, offset, ls, site.resume⟩
      = take ⟨'&' :: rest, offset, ls, site.resume⟩ '&' rest (.reference site))
    (hname : name.head?.any Char.isAlphanum) (hfound : ∀ rest, longestEntity? (name ++ rest) = some found)
    (hlength : found.length = name.length) (hterminated : found.terminated = true)
    (hascii : ∀ c ∈ name, c.utf8Size = 1) (rest : List Char) (offset : Nat) :
    Reads ⟨'&' :: name ++ rest, offset, ls, site.resume⟩ (site.write found.replacement).1
      ⟨rest, offset + byteLength ('&' :: name), ls, (site.write found.replacement).2.resume⟩ := by
  obtain ⟨c, cs, rfl⟩ : ∃ c cs, name = c :: cs := by
    cases name with
    | nil => exact absurd hname Bool.false_ne_true
    | cons c cs => exact ⟨c, cs, rfl⟩
  have hc : c.isAlphanum = true := hname
  have hbytes := byteLength_of_ascii hascii
  have hdrop : (c :: cs ++ rest).drop (c :: cs).length = rest := List.drop_left
  have hnamed : Reads ⟨c :: cs ++ rest, offset + 1, ls, .namedReference site⟩ (site.write found.replacement).1
      ⟨rest, offset + 1 + byteLength (c :: cs), ls, (site.write found.replacement).2.resume⟩ := by
    have hstep := @stepNamedReference_terminated ⟨c :: cs ++ rest, offset + 1, ls, .namedReference site⟩
      site _ (hfound rest) hterminated
    refine .one ?_ (congrArg Step.tokens hstep)
    refine (congrArg Step.next hstep).trans ?_
    simp only [skip, hlength, hdrop, hbytes]
  have hreference : (⟨c :: cs ++ rest, offset + 1, ls, .reference site⟩ : Lexer).step
      = stay ⟨c :: cs ++ rest, offset + 1, ls, .reference site⟩ (.namedReference site) := by
    simp only [step, List.cons_append, stepReference, hc, if_true]
  have hstart := hamp (c :: cs ++ rest) offset
  rw [show byteLength ('&' :: c :: cs) = 1 + byteLength (c :: cs) from rfl, ← Nat.add_assoc]
  refine .silent (congrArg Step.next hstart) (congrArg Step.tokens hstart) ?_
  exact .silent (congrArg Step.next hreference) (congrArg Step.tokens hreference) hnamed

/-- A reference in a value, which ends with its semicolon. -/
theorem passes_reference {name : List Char} {found : EntityMatch} (hname : name.head?.any Char.isAlphanum)
    (hfound : ∀ rest, longestEntity? (name ++ rest) = some found) (hlength : found.length = name.length)
    (hterminated : found.terminated = true) (hascii : ∀ c ∈ name, c.utf8Size = 1) :
    Passes ls (.attributeValue (tag.add a) .double) ('&' :: name)
      (.attributeValue (tag.add { a with value := a.value ++ found.replacement }) .double) :=
  reads_reference (.value (tag.add a) .double) (fun _ _ => rfl) hname hfound hlength hterminated hascii

theorem longestEntity?_amp (rest : List Char) :
    longestEntity? (['a', 'm', 'p', ';'] ++ rest) = some ⟨4, "&", true⟩ := by cbv

theorem longestEntity?_nbsp (rest : List Char) :
    longestEntity? (['n', 'b', 's', 'p', ';'] ++ rest) = some ⟨5, "\u00a0", true⟩ := by cbv

theorem longestEntity?_quot (rest : List Char) :
    longestEntity? (['q', 'u', 'o', 't', ';'] ++ rest) = some ⟨5, "\"", true⟩ := by cbv

/-- An escaped character is read back as the character. -/
theorem passes_escapeInAttribute (hc : c ≠ '\x00') :
    Passes ls (.attributeValue (tag.add a) .double) (escapeInAttribute c).toList
      (.attributeValue (tag.add { a with value := a.value ++ c.toString }) .double) := by
  unfold escapeInAttribute
  split
  · exact passes_reference rfl longestEntity?_amp rfl rfl (List.all_iff_forall_prop.1 rfl)
  · exact passes_reference rfl longestEntity?_nbsp rfl rfl (List.all_iff_forall_prop.1 rfl)
  · exact passes_reference rfl longestEntity?_quot rfl rfl (List.all_iff_forall_prop.1 rfl)
  · rename_i hamp _ hquot
    have hamp : c ≠ '&' := hamp
    have hmark : Quoting.double.mark? ≠ some c := fun h => hquot (Option.some.inj h).symm
    have hchar : c.toString.toList = [c] := String.toList_singleton c
    rw [hchar]
    refine passes_take fun rest offset => ⟨0, ?_⟩
    simp only [step, stepAttributeValue, hmark, if_false, reduceCtorEq, false_and, hamp, replaceNull_of_ne hc,
      appendValue_add]

/-- **An escaped value is read back as the value.** -/
theorem passes_escapeAttribute {value : List Char} (h : ∀ d ∈ value, d ≠ '\x00') :
    Passes ls (.attributeValue (tag.add a) .double) (value.flatMap fun d => (escapeInAttribute d).toList)
      (.attributeValue (tag.add { a with value := a.value ++ String.ofList value }) .double) := by
  induction value generalizing a with
  | nil =>
    have hvalue : a.value ++ String.ofList [] = a.value := String.append_empty
    rw [hvalue]
    exact passes_nil _
  | cons d value ih =>
    have hfirst : Passes ls (.attributeValue (tag.add a) .double) (escapeInAttribute d).toList _ :=
      passes_escapeInAttribute (h d List.mem_cons_self)
    have hrest : Passes ls (.attributeValue (tag.add { a with value := a.value ++ d.toString }) .double) _ _ :=
      ih fun x hx => h x (List.mem_cons_of_mem _ hx)
    have hvalue : a.value ++ d.toString ++ String.ofList value = a.value ++ String.ofList (d :: value) := by
      apply String.ext
      have hchar : d.toString.toList = [d] := String.toList_singleton d
      simp only [String.toList_append, String.toList_ofList, List.append_assoc, hchar, List.singleton_append]
    rw [← hvalue]
    exact passes_append hfirst hrest

/-- **A quoted value is read back.** -/
theorem passes_value {value : List Char} (h : ∀ d ∈ value, d ≠ '\x00') :
    Passes ls (.attributeName (tag.add a))
      ('=' :: '"' :: (value.flatMap fun d => (escapeInAttribute d).toList) ++ ['"'])
      (.afterQuotedValue (tag.add { a with value := a.value ++ String.ofList value })) := by
  have hequals : Passes ls (.attributeName (tag.add a)) ['='] (.beforeAttributeValue (tag.add a)) :=
    passes_take fun rest offset => ⟨0, rfl⟩
  have hopen : Passes ls (.beforeAttributeValue (tag.add a)) ['"'] (.attributeValue (tag.add a) .double) :=
    passes_take fun rest offset => ⟨0, rfl⟩
  have hclose : ∀ tag, Passes ls (.attributeValue tag .double) ['"'] (.afterQuotedValue tag) := fun tag =>
    passes_take fun rest offset => ⟨0, rfl⟩
  exact passes_append (passes_append hequals (passes_append hopen (passes_escapeAttribute h))) (hclose _)

/-- An attribute as the lexer reads it. -/
def lowered (a : Attribute) : Attribute := ⟨a.name.toLower, a.value⟩

theorem lowered_eq (a : Attribute) : lowered a = ⟨String.ofList (a.name.toList.map Char.toLower), a.value⟩ := by
  have hname : a.name.toLower = String.ofList (a.name.toList.map Char.toLower) := by
    apply String.ext
    rw [String.toList_ofList]
    exact String.toList_map
  rw [lowered, hname]

/-- An attribute with its value in quotes. -/
theorem passes_quoted (hs : Ready tag s) (hname : AttributeName a.name.toList)
    (heq : s = .attributeName tag → a.name.toList.head? ≠ some '=') (hvalue : ∀ d ∈ a.value.toList, d ≠ '\x00') :
    Passes ls s (writeAttribute a).toList (.afterQuotedValue (tag.add (lowered a))) := by
  have hwrite : (writeAttribute a).toList = (' ' :: a.name.toList) ++
      ('=' :: '"' :: (a.value.toList.flatMap fun d => (escapeInAttribute d).toList) ++ ['"']) := by
    simp [writeAttribute, escapeAttribute, String.toList_join, List.flatMap_map]
  have hread := @passes_value ls tag ⟨String.ofList (a.name.toList.map Char.toLower), ""⟩ _ hvalue
  have hempty : "" ++ String.ofList a.value.toList = a.value := by simp
  rw [hempty] at hread
  rw [hwrite, lowered_eq]
  exact passes_append (passes_attributeName hs hname heq) hread

/-! ## The end of a tag -/

theorem reads_closeTag (hstart : tag.closing = false) {l : Lexer} {selfClosing : Bool} {rest : List Char}
    (errors : Nat) (h : l.step = l.closeTag rest tag selfClosing errors) :
    Reads l [tag.report selfClosing (l.offset + 1)]
      ⟨rest, l.offset + 1, some tag.name, .text (tag.contentAfter selfClosing)⟩ := by
  unfold closeTag at h
  rw [hstart] at h
  refine .one ?_ ?_
  · rw [h]
    rfl
  · rw [h]
    rfl

/-- **A tag ends at its bracket.** -/
theorem reads_close (hs : Ready tag s) (hstart : tag.closing = false) (rest : List Char) (offset : Nat) :
    Reads ⟨'>' :: rest, offset, ls, s⟩ [tag.report false (offset + 1)]
      ⟨rest, offset + 1, some tag.name, .text (tag.contentAfter false)⟩ := by
  cases hs with
  | tagName => exact reads_closeTag hstart 0 rfl
  | afterQuotedValue => exact reads_closeTag hstart 0 rfl
  | attributeName =>
    have hafter : Reads ⟨'>' :: rest, offset, ls, .afterAttributeName tag⟩ _ _ :=
      reads_closeTag hstart 0 rfl
    exact .silent rfl rfl hafter

/-- A tag ends with a slash. -/
theorem reads_closeEmpty (hs : Ready tag s) (hstart : tag.closing = false) (rest : List Char) (offset : Nat) :
    Reads ⟨' ' :: '/' :: '>' :: rest, offset, ls, s⟩ [tag.report true (offset + 3)]
      ⟨rest, offset + 3, some tag.name, .text (tag.contentAfter true)⟩ := by
  have hslash : Reads ⟨'>' :: rest, offset + 2, ls, .selfClosing tag⟩ [tag.report true (offset + 3)] _ :=
    reads_closeTag hstart 0 rfl
  have hafter : Reads ⟨'/' :: '>' :: rest, offset + 1, ls, .afterAttributeName tag⟩ _ _ := .silent rfl rfl hslash
  cases hs with
  | tagName => exact .silent rfl rfl (.silent rfl rfl hafter)
  | afterQuotedValue => exact .silent rfl rfl (.silent rfl rfl hafter)
  | attributeName => exact .silent rfl rfl (.silent rfl rfl hafter)

/-- **A tag begins with its name.** -/
theorem reads_open {name rest : List Char} (hname : TagName name) (offset : Nat) :
    Reads ⟨'<' :: (name ++ rest), offset, ls, .text .markup⟩ []
      ⟨rest, offset + 1 + byteLength name, ls,
        .tagName ⟨false, offset, String.ofList (name.map Char.toLower), []⟩⟩ := by
  cases hname with
  | @mk c cs hc hcs =>
    have hchars : ∀ d ∈ c :: cs, TagChar d := by
      intro d hd
      rcases List.mem_cons.1 hd with rfl | hd
      · exact tagChar_of_isAlpha hc
      · exact hcs d hd
    have hread := @passes_name ls (c :: cs) ⟨false, offset, "", []⟩ hchars rest (offset + 1)
    have hname : "" ++ String.ofList ((c :: cs).map Char.toLower) = String.ofList ((c :: cs).map Char.toLower) :=
      String.empty_append
    rw [hname] at hread
    have hbang : c ≠ '!' := by
      rintro rfl
      exact absurd hc (by decide)
    have hslash : c ≠ '/' := (tagChar_of_isAlpha hc).slash
    have hstep : (⟨c :: cs ++ rest, offset + 1, ls, .tagOpen offset⟩ : Lexer).step
        = stay ⟨c :: cs ++ rest, offset + 1, ls, .tagOpen offset⟩ (.tagName ⟨false, offset, "", []⟩) := by
      simp only [step, List.cons_append, stepTagOpen, hbang, hslash, hc, if_false, if_true]
    have hopen : Reads ⟨c :: cs ++ rest, offset + 1, ls, .tagOpen offset⟩ [] _ :=
      .silent (congrArg Step.next hstep) (congrArg Step.tokens hstep) hread
    exact .silent rfl rfl hopen

/-! ## A whole tag -/

/-- Several attributes, when each of them is passed over. -/
theorem passes_attributes {R : TagDraft → State → Prop} {write : Attribute → String} {attributes : List Attribute}
    (h : ∀ a ∈ attributes, ∀ tag s, R tag s →
      ∃ s', R (tag.add (lowered a)) s' ∧ Passes ls s (write a).toList s') (hs : R tag s) :
    ∃ s', R { tag with attributes := (attributes.map lowered).reverse ++ tag.attributes } s' ∧
      Passes ls s (attributes.flatMap fun a => (write a).toList) s' := by
  induction attributes generalizing tag s with
  | nil => exact ⟨s, hs, passes_nil s⟩
  | cons a attributes ih =>
    obtain ⟨s', hs', hfirst⟩ := h a List.mem_cons_self tag s hs
    obtain ⟨s'', hs'', hrest⟩ := ih (fun b hb => h b (List.mem_cons_of_mem _ hb)) hs'
    refine ⟨s'', ?_, passes_append hfirst hrest⟩
    rw [List.map_cons, List.reverse_cons, List.append_assoc]
    exact hs''

theorem dropRepeated_of_nodup {seen : List String} {attributes : List Attribute}
    (hseen : ∀ a ∈ attributes, a.name ∉ seen) (h : (attributes.map (·.name)).Nodup) :
    dropRepeated seen attributes = attributes := by
  induction attributes generalizing seen with
  | nil => rfl
  | cons a attributes ih =>
    rw [List.map_cons, List.nodup_cons] at h
    rw [dropRepeated, if_neg (hseen a List.mem_cons_self), ih ?_ h.2]
    intro b hb hmem
    rcases List.mem_cons.1 hmem with heq | hmem
    · exact h.1 (heq ▸ List.mem_map_of_mem hb)
    · exact hseen b (List.mem_cons_of_mem _ hb) hmem

/-- What a tag ends with. -/
def tagEnd (selfClosing : Bool) : List Char := if selfClosing then [' ', '/', '>'] else ['>']

/-- **A written start tag is read as the tag.** The names are read in lower case. -/
theorem reads_startTag {R : TagDraft → State → Prop} (hready : ∀ tag s, R tag s → Ready tag s)
    (hname : ∀ tag, R tag (.tagName tag)) {name : List Char} (hn : TagName name) {write : Attribute → String}
    {attributes : List Attribute}
    (h : ∀ a ∈ attributes, ∀ tag s, R tag s →
      ∃ s', R (tag.add (lowered a)) s' ∧ Passes ls s (write a).toList s')
    (hnodup : ((attributes.map lowered).map (·.name)).Nodup) (selfClosing : Bool) (rest : List Char) (offset : Nat) :
    let text := '<' :: (name ++ (attributes.flatMap fun a => (write a).toList) ++ tagEnd selfClosing)
    Reads ⟨text ++ rest, offset, ls, .text .markup⟩
      [.startTag (String.ofList (name.map Char.toLower)) selfClosing (attributes.map lowered)
        ⟨offset, offset + byteLength text⟩]
      ⟨rest, offset + byteLength text, some (String.ofList (name.map Char.toLower)),
        .text (if selfClosing then .markup else Content.ofElement (String.ofList (name.map Char.toLower)))⟩ := by
  intro text
  let tag : TagDraft := ⟨false, offset, String.ofList (name.map Char.toLower), []⟩
  -- the tag is read in three pieces: the name, the attributes and the end
  obtain ⟨s, hs, hpasses⟩ := passes_attributes h (hname tag)
  rw [List.append_nil] at hs
  have hready := hready _ s hs
  have hkept : dropRepeated [] (attributes.map lowered).reverse.reverse = attributes.map lowered := by
    rw [List.reverse_reverse]
    exact dropRepeated_of_nodup (fun _ _ => List.not_mem_nil) hnodup
  have hopen := @reads_open ls name
    ((attributes.flatMap fun a => (write a).toList) ++ (tagEnd selfClosing ++ rest)) hn offset
  have hattributes := hpasses (tagEnd selfClosing ++ rest) (offset + 1 + byteLength name)
  have htext : text ++ rest
      = '<' :: (name ++ ((attributes.flatMap fun a => (write a).toList) ++ (tagEnd selfClosing ++ rest))) := by
    simp only [text, List.cons_append, List.append_assoc]
  have hbytes : byteLength text = 1 + byteLength name
      + byteLength (attributes.flatMap fun a => (write a).toList) + byteLength (tagEnd selfClosing) := by
    simp only [text, byteLength, byteLength_append]
    have : ('<' : Char).utf8Size = 1 := rfl
    omega
  have hend : Reads ⟨tagEnd selfClosing ++ rest,
        offset + 1 + byteLength name + byteLength (attributes.flatMap fun a => (write a).toList), ls, s⟩
      [.startTag tag.name selfClosing (attributes.map lowered) ⟨offset, offset + byteLength text⟩]
      ⟨rest, offset + byteLength text, some tag.name,
        .text (if selfClosing then .markup else Content.ofElement tag.name)⟩ := by
    -- the two forms differ in the end only
    cases selfClosing with
    | false =>
      have hclose := @reads_close ls _ _ hready rfl rest
        (offset + 1 + byteLength name + byteLength (attributes.flatMap fun a => (write a).toList))
      have hlength : byteLength (tagEnd false) = 1 := rfl
      rw [TagDraft.report, hkept] at hclose
      rw [hbytes, hlength, ← Nat.add_assoc, ← Nat.add_assoc, ← Nat.add_assoc]
      exact hclose
    | true =>
      have hclose := @reads_closeEmpty ls _ _ hready rfl rest
        (offset + 1 + byteLength name + byteLength (attributes.flatMap fun a => (write a).toList))
      have hlength : byteLength (tagEnd true) = 3 := rfl
      rw [TagDraft.report, hkept] at hclose
      rw [hbytes, hlength, ← Nat.add_assoc, ← Nat.add_assoc, ← Nat.add_assoc]
      exact hclose
  rw [htext]
  exact hopen.trans (hattributes.trans hend)

end Lexer

end LiveMarkup.Html
