/-
What the lexer reports can be written.

What a tag or a comment holds while it is being read can be written and read back (`wellRead_step`), and
so can every token (`valid_tokens`).
-/
import LiveMarkup.Proofs.Html.Lexing.Written

set_option autoImplicit false

namespace LiveMarkup.Html

open Text

/-! ## What is being read -/

/-- The tag in whose attribute value a reference stands can be written. -/
def Site.Valid : Site → Prop
  | .text _ => True
  | .value tag _ => tag.Valid

/-- What the lexer is reading can be written. -/
def Lexer.WellRead (l : Lexer) : Prop :=
  match l.state with
  | .text _ | .tagOpen _ | .endTagOpen _ | .rawLessThan _ _ | .rawEndTagOpen _ _ | .rawEndTagName _ _ _
  | .markupDeclaration _ | .doctype _ | .beforeDoctypeName _ | .doctypeName _ _ | .afterDoctypeName _ _ => True
  | .tagName tag => tag.attributes = [] ∧ (tag.closing = false →
      tag.name = "" ∧ (∃ c, l.rest.head? = some c ∧ c.isAlpha = true) ∨ LowerTag tag.name)
  | .beforeAttributeName tag | .attributeName tag | .afterAttributeName tag | .beforeAttributeValue tag
  | .attributeValue tag _ | .afterQuotedValue tag | .selfClosing tag => tag.Valid
  | .bogusComment draft => '>' ∉ draft.data.toList ∧ '\x00' ∉ draft.data.toList
  | .commentStart draft | .commentStartDash draft => draft.data = ""
  | .comment draft => CommentText draft.data.toList ∧ Follows draft.data.toList l.rest
  | .commentEndDash draft =>
    CommentText draft.data.toList ∧ draft.data.toList ≠ [] ∧ ¬ ['-'] <:+ draft.data.toList
  | .commentEnd draft | .commentEndBang draft => CommentText draft.data.toList
  | .reference site | .namedReference site | .ambiguousAmpersand site | .numericReference site
  | .numericDigits site _ _ | .numericEnd site _ => site.Valid
  | .numericStart site _ written => site.Valid ∧ '\x00' ∉ written.toList

/-- A step reports what can be written, and goes on reading what can be written. -/
structure Step.Valid (s : Step) : Prop where
  tokens : ∀ t ∈ s.tokens, t.Valid
  next : ∀ m, s.next = some m → m.WellRead

namespace Lexer

variable {l : Lexer} {s : State} {c : Char} {rest : List Char} {errors : Nat}

theorem valid_characters (cs : List Char) : ∀ t ∈ cs.map Token.character, t.Valid := by
  intro t ht
  obtain ⟨c, -, rfl⟩ := List.mem_map.1 ht
  trivial

theorem valid_stay (cs : List Char) {ts : List Token} (hts : ts = cs.map .character)
    (h : WellRead { l with state := s }) : (l.stay s ts errors).Valid := by
  refine ⟨?_, ?_⟩
  · rw [stay, hts]
    exact valid_characters cs
  · intro m hm
    obtain rfl := Option.some.inj hm
    exact h

theorem valid_take (cs : List Char) {ts : List Token} (hts : ts = cs.map .character)
    (h : WellRead ⟨rest, l.offset + c.utf8Size, l.lastStart, s⟩) : (l.take c rest s ts errors).Valid := by
  refine ⟨?_, ?_⟩
  · rw [take, hts]
    exact valid_characters cs
  · intro m hm
    obtain rfl := Option.some.inj hm
    exact h

theorem valid_skip {n : Nat} (cs : List Char) {ts : List Token} (hts : ts = cs.map .character)
    (h : WellRead ⟨l.rest.drop n, l.offset + n, l.lastStart, s⟩) : (l.skip n s ts errors).Valid := by
  refine ⟨?_, ?_⟩
  · rw [skip, hts]
    exact valid_characters cs
  · intro m hm
    obtain rfl := Option.some.inj hm
    exact h

theorem valid_finish {ts : List Token} (h : ∀ t ∈ ts, t.Valid) : (l.finish ts errors).Valid := by
  refine ⟨?_, fun m hm => absurd hm nofun⟩
  intro t ht
  rcases List.mem_append.1 ht with ht | ht
  · exact h t ht
  · rw [List.mem_singleton.1 ht]
    trivial

theorem valid_finish_characters (cs : List Char) {ts : List Token} (hts : ts = cs.map .character) :
    (l.finish ts errors).Valid := by
  subst hts
  exact valid_finish (valid_characters cs)

theorem valid_closeTag {tag : TagDraft} {selfClosing : Bool} (h : tag.Valid) :
    (l.closeTag rest tag selfClosing errors).Valid := by
  unfold closeTag
  split
  · refine ⟨?_, ?_⟩
    · intro t ht
      rw [List.mem_singleton.1 ht]
      trivial
    · intro m hm
      obtain rfl := Option.some.inj hm
      trivial
  · rename_i hclosing
    obtain ⟨hname, hattributes⟩ := h (Bool.eq_false_iff.2 hclosing)
    refine ⟨?_, ?_⟩
    · intro t ht
      rw [List.mem_singleton.1 ht]
      refine ⟨hname, ?_, nodup_dropRepeated [] _⟩
      intro a ha
      exact hattributes a (List.mem_reverse.1 (mem_dropRepeated ha).1)
    · intro m hm
      obtain rfl := Option.some.inj hm
      trivial

theorem valid_closeComment {draft : CommentDraft} (h : CommentText draft.data.toList) :
    (l.closeComment rest draft errors).Valid := by
  refine ⟨?_, ?_⟩
  · intro t ht
    rw [List.mem_singleton.1 ht]
    exact h
  · intro m hm
    obtain rfl := Option.some.inj hm
    trivial

theorem valid_cutComment {draft : CommentDraft} (h : CommentText draft.data.toList) :
    (l.cutComment draft errors).Valid := by
  refine valid_finish ?_
  intro t ht
  rw [List.mem_singleton.1 ht]
  exact h

theorem valid_closeDoctype {start : Nat} {name : Option String} :
    (l.closeDoctype rest start name errors).Valid := by
  refine ⟨?_, ?_⟩
  · intro t ht
    rw [List.mem_singleton.1 ht]
    trivial
  · intro m hm
    obtain rfl := Option.some.inj hm
    trivial

theorem valid_cutDoctype {start : Nat} {name : Option String} : (l.cutDoctype start name).Valid := by
  refine valid_finish ?_
  intro t ht
  rw [List.mem_singleton.1 ht]
  trivial

/-! ## The steps in a tag -/

theorem valid_tagName {tag : TagDraft} (h : WellRead { l with state := .tagName tag }) :
    ({ l with state := .tagName tag } : Lexer).step.Valid := by
  obtain ⟨hattributes, hname⟩ := h
  have hno : ∀ a ∈ tag.attributes, LowerAttribute a := by
    rw [hattributes]
    exact fun a ha => absurd ha List.not_mem_nil
  simp only [step, stepTagName]
  split
  · exact valid_finish_characters [] rfl
  · rename_i c rest hrest
    have hrest : l.rest = c :: rest := hrest
    -- a name that is empty so far goes on with a letter
    have hfull : c.isAlpha = false → tag.Valid := by
      intro hc hstart
      rcases hname hstart with ⟨-, d, hd, halpha⟩ | hname
      · change l.rest.head? = some d at hd
        rw [hrest] at hd
        obtain rfl := Option.some.inj hd
        rw [hc] at halpha
        cases halpha
      · exact ⟨hname, hno⟩
    split
    · rename_i hspace
      refine valid_take [] rfl (hfull (Bool.eq_false_iff.2 fun halpha => ?_))
      rw [(tagChar_of_isAlpha halpha).space] at hspace
      cases hspace
    · split
      · rename_i hc
        exact valid_take [] rfl (hfull (by rw [hc]; decide))
      · split
        · rename_i hc
          exact valid_closeTag (hfull (by rw [hc]; decide))
        · rename_i hspace hslash hclose
          refine valid_take [] rfl ⟨hattributes, ?_⟩
          intro hstart
          refine .inr ?_
          rcases hname hstart with ⟨hempty, d, hd, halpha⟩ | hname
          · change l.rest.head? = some d at hd
            rw [hrest] at hd
            obtain rfl := Option.some.inj hd
            change LowerTag (tag.name.push _)
            rw [hempty]
            exact lowerTag_push_empty halpha
          · exact lowerTag_push hname
              (tagChar_toLower (tagChar_replaceNull (Bool.eq_false_iff.2 hspace) hslash hclose)) (toLower_toLower _)

theorem valid_takeAttributeName {tag : TagDraft} (h : (tag.pushAttributeName (replaceNull c).toLower).Valid) :
    (l.takeAttributeName c rest tag).Valid := valid_take [] rfl h

/-- A step in a tag after its name. -/
theorem valid_tag {tag : TagDraft} (h : tag.Valid)
    (hs : s = .beforeAttributeName tag ∨ s = .attributeName tag ∨ s = .afterAttributeName tag ∨
      s = .beforeAttributeValue tag ∨ s = .afterQuotedValue tag ∨ s = .selfClosing tag) :
    ({ l with state := s } : Lexer).step.Valid := by
  -- one case for each state, in the order in which a tag runs through them
  rcases hs with rfl | rfl | rfl | rfl | rfl | rfl
  · simp only [step, stepBeforeAttributeName]
    split
    · exact valid_stay [] rfl h
    · split
      · exact valid_take [] rfl h
      · rename_i hspace
        split
        · exact valid_stay [] rfl h
        · rename_i hend
          split
          · rename_i hc
            -- an equals sign may begin a name, though none may follow in it
            refine valid_take [] rfl (valid_begin h ?_ (by decide))
            exact ⟨rfl, by decide, by decide, by decide⟩
          · obtain ⟨hslash, hclose⟩ := not_or.1 hend
            refine valid_takeAttributeName (valid_begin h ?_ (toLower_toLower _))
            exact tagChar_toLower (tagChar_replaceNull (Bool.eq_false_iff.2 hspace) hslash hclose)
  · simp only [step, stepAttributeName]
    split
    · exact valid_stay [] rfl h
    · split
      · exact valid_stay [] rfl h
      · rename_i hend
        obtain ⟨hspace, hend⟩ := not_or.1 hend
        obtain ⟨hslash, hclose⟩ := not_or.1 hend
        split
        · exact valid_take [] rfl h
        · rename_i hequals
          refine valid_takeAttributeName (valid_pushName h ?_ (toLower_toLower _))
          exact attributeChar_toLower
            (attributeChar_replaceNull (Bool.eq_false_iff.2 hspace) hslash hclose hequals)
  · simp only [step, stepAfterAttributeName]
    split
    · exact valid_finish_characters [] rfl
    · split
      · exact valid_take [] rfl h
      · rename_i hspace
        split
        · exact valid_take [] rfl h
        · rename_i hslash
          split
          · exact valid_take [] rfl h
          · split
            · exact valid_closeTag h
            · rename_i hclose
              refine valid_takeAttributeName (valid_begin h ?_ (toLower_toLower _))
              exact tagChar_toLower (tagChar_replaceNull (Bool.eq_false_iff.2 hspace) hslash hclose)
  · simp only [step, stepBeforeAttributeValue]
    repeat' split
    all_goals
      first
      | exact valid_stay [] rfl h
      | exact valid_take [] rfl h
      | exact valid_closeTag h
  · simp only [step, stepAfterQuotedValue]
    repeat' split
    all_goals
      first
      | exact valid_finish_characters [] rfl
      | exact valid_stay [] rfl h
      | exact valid_take [] rfl h
      | exact valid_closeTag h
  · simp only [step, stepSelfClosing]
    repeat' split
    all_goals
      first
      | exact valid_finish_characters [] rfl
      | exact valid_stay [] rfl h
      | exact valid_closeTag h

theorem valid_attributeValue {tag : TagDraft} {quoting : Quoting} (h : tag.Valid) :
    ({ l with state := .attributeValue tag quoting } : Lexer).step.Valid := by
  simp only [step, stepAttributeValue]
  split
  · exact valid_finish_characters [] rfl
  · rename_i c rest _
    have happend : (tag.appendValue (replaceNull c).toString).Valid := by
      apply valid_appendValue h
      rw [toList_toString, List.mem_singleton]
      exact fun heq => replaceNull_ne c heq.symm
    repeat' split
    all_goals
      first
      | exact valid_take [] rfl h
      | exact valid_closeTag h
      | exact valid_take [] rfl happend

/-! ## The steps in a comment -/

theorem append_toList (draft : CommentDraft) (text : String) :
    (draft.append text).data.toList = draft.data.toList ++ text.toList := String.toList_append ..

theorem valid_bogusComment {draft : CommentDraft} (hclose : '>' ∉ draft.data.toList)
    (hnull : '\x00' ∉ draft.data.toList) : ({ l with state := .bogusComment draft } : Lexer).step.Valid := by
  have htext : CommentText draft.data.toList := by
    refine ⟨?_, hnull⟩
    intro before after heq
    exact absurd (by rw [heq]; simp) hclose
  simp only [step, stepBogusComment]
  split
  · exact valid_cutComment htext
  · rename_i c rest _
    split
    · exact valid_closeComment htext
    · rename_i hc
      refine valid_take [] rfl ⟨?_, ?_⟩
      · rw [append_toList, toList_toString,
          List.mem_append, List.mem_singleton]
        rintro (hmem | heq)
        · exact hclose hmem
        · by_cases hnul : c = '\x00'
          · subst hnul
            exact absurd heq (by decide)
          · rw [replaceNull_of_ne hnul] at heq
            exact hc heq.symm
      · rw [append_toList, toList_toString,
          List.mem_append, List.mem_singleton]
        rintro (hmem | heq)
        · exact hnull hmem
        · exact replaceNull_ne c heq.symm

/-- A step in a comment that two hyphens opened. -/
theorem valid_commentStart {draft : CommentDraft} (h : draft.data = "")
    (hs : s = .commentStart draft ∨ s = .commentStartDash draft) :
    ({ l with state := s } : Lexer).step.Valid := by
  -- nothing was read yet, so the comment is empty
  have hdata : draft.data.toList = [] := by
    rw [h]
    rfl
  have htext : CommentText draft.data.toList := by
    rw [hdata]
    exact commentText_nil
  rcases hs with rfl | rfl
  · simp only [step, stepCommentStart]
    split
    · exact valid_take [] rfl h
    · exact valid_closeComment htext
    · rename_i hdash hclose
      refine valid_stay [] rfl ⟨htext, ?_, ?_, ?_⟩
      · intro hhead
        obtain ⟨rest, hrest⟩ := List.head?_eq_some_iff.1 hhead
        exact absurd hrest (hclose rest)
      · rw [hdata]
        exact fun _ => by decide
      · intro hhead
        obtain ⟨rest, hrest⟩ := List.head?_eq_some_iff.1 hhead
        exact absurd hrest (hdash rest)
  · simp only [step, stepCommentStartDash]
    split
    · exact valid_cutComment htext
    · exact valid_take [] rfl htext
    · exact valid_closeComment htext
    · rename_i hdash hclose
      -- the hyphen that was held back turns out to be text
      have hone : (draft.append "-").data.toList = ['-'] := by
        rw [append_toList, hdata]
        rfl
      refine valid_stay [] rfl ⟨?_, ?_, ?_, ?_⟩
      · rw [append_toList]
        exact commentText_dash htext
      · intro hhead
        obtain ⟨rest, hrest⟩ := List.head?_eq_some_iff.1 hhead
        exact absurd hrest (hclose rest)
      · rw [hone]
        exact fun _ => by decide
      · intro hhead
        obtain ⟨rest, hrest⟩ := List.head?_eq_some_iff.1 hhead
        exact absurd hrest (hdash rest)

theorem valid_comment {draft : CommentDraft} (htext : CommentText draft.data.toList)
    (hfollows : Follows draft.data.toList l.rest) :
    ({ l with state := .comment draft } : Lexer).step.Valid := by
  simp only [step, stepComment]
  split
  · exact valid_cutComment htext
  · rename_i c rest hrest
    have hhead : l.rest.head? = some c := by
      rw [show l.rest = c :: rest from hrest]
      rfl
    split
    · rename_i hc
      obtain ⟨hne, hlast⟩ := hfollows.dash (by rw [hhead, hc])
      exact valid_take [] rfl ⟨htext, hne, hlast⟩
    · rename_i hc
      -- a null is replaced, and its replacement ends no comment
      have hne : replaceNull c ≠ '-' := by
        by_cases hnul : c = '\x00'
        · subst hnul
          decide
        · rw [replaceNull_of_ne hnul]
          exact hc
      have hmark : ∀ d, d ≠ '\ufffd' → replaceNull c = d → l.rest.head? = some d := by
        intro d hd heq
        by_cases hnul : c = '\x00'
        · subst hnul
          exact absurd heq.symm hd
        · rw [hhead, ← heq, replaceNull_of_ne hnul]
      refine valid_take [] rfl ⟨?_, ?_⟩
      · rw [append_toList, toList_toString]
        refine commentText_push htext ?_ (replaceNull_ne c)
        exact fun heq => hfollows.close (hmark _ (by decide) heq)
      · rw [append_toList, toList_toString]
        refine follows_push hne ?_ rest
        exact fun heq => hfollows.bang (hmark _ (by decide) heq)

theorem valid_commentEndDash {draft : CommentDraft} (htext : CommentText draft.data.toList)
    (hne : draft.data.toList ≠ []) (hlast : ¬ ['-'] <:+ draft.data.toList) :
    ({ l with state := .commentEndDash draft } : Lexer).step.Valid := by
  simp only [step, stepCommentEndDash]
  split
  · exact valid_cutComment htext
  · exact valid_take [] rfl htext
  · rename_i hdash
    have hdashes : ¬ ['-', '-'] <:+ draft.data.toList ++ ['-'] := fun h => hlast (suffix_concat ['-'] h).1
    refine valid_stay [] rfl ⟨?_, ?_, ?_, ?_⟩
    · rw [append_toList]
      exact commentText_dash htext
    · intro _
      rw [append_toList]
      refine ⟨?_, ?_, hdashes, ?_⟩
      · exact List.append_ne_nil_of_right_ne_nil _ (List.cons_ne_nil _ _)
      · intro heq
        exact hne (List.append_inj' (heq.trans (List.nil_append _).symm) rfl).1
      · exact fun h => absurd (suffix_concat ['-', '-'] h).2 (by decide)
    · intro _
      rw [append_toList]
      exact hdashes
    · intro hhead
      obtain ⟨rest, hrest⟩ := List.head?_eq_some_iff.1 hhead
      exact absurd hrest (hdash rest)

theorem valid_commentEnd {draft : CommentDraft} (htext : CommentText draft.data.toList) :
    ({ l with state := .commentEnd draft } : Lexer).step.Valid := by
  simp only [step, stepCommentEnd]
  split
  · exact valid_cutComment htext
  · exact valid_closeComment htext
  · exact valid_take [] rfl htext
  · refine valid_take [] rfl ?_
    change CommentText (draft.append "-").data.toList
    rw [append_toList]
    exact commentText_dash htext
  · rename_i hclose hbang hdash
    refine valid_stay [] rfl ⟨?_, ?_, ?_, ?_⟩
    · rw [append_toList]
      exact commentText_dashes htext
    · intro hhead
      obtain ⟨rest, hrest⟩ := List.head?_eq_some_iff.1 hhead
      exact absurd hrest (hclose rest)
    · intro hhead
      obtain ⟨rest, hrest⟩ := List.head?_eq_some_iff.1 hhead
      exact absurd hrest (hbang rest)
    · intro hhead
      obtain ⟨rest, hrest⟩ := List.head?_eq_some_iff.1 hhead
      exact absurd hrest (hdash rest)

theorem valid_commentEndBang {draft : CommentDraft} (htext : CommentText draft.data.toList) :
    ({ l with state := .commentEndBang draft } : Lexer).step.Valid := by
  have hbang : CommentText (draft.append "--!").data.toList := by
    rw [append_toList]
    exact commentText_bang htext
  have hsplit : draft.data.toList ++ ("--!" : String).toList = draft.data.toList ++ ['-', '-'] ++ ['!'] := by
    rw [List.append_assoc]
    rfl
  have hlast : ∀ xs, ¬ xs ++ ['-'] <:+ (draft.append "--!").data.toList := by
    intro xs h
    rw [append_toList, hsplit] at h
    exact absurd (suffix_concat _ h).2 (by decide)
  simp only [step, stepCommentEndBang]
  split
  · exact valid_cutComment htext
  · refine valid_take [] rfl ⟨hbang, ?_, hlast []⟩
    rw [append_toList]
    exact List.append_ne_nil_of_right_ne_nil _ (List.cons_ne_nil _ _)
  · exact valid_closeComment htext
  · rename_i hdash hclose
    refine valid_stay [] rfl ⟨hbang, ?_, fun _ => hlast ['-'], ?_⟩
    · intro hhead
      obtain ⟨rest, hrest⟩ := List.head?_eq_some_iff.1 hhead
      exact absurd hrest (hclose rest)
    · intro hhead
      obtain ⟨rest, hrest⟩ := List.head?_eq_some_iff.1 hhead
      exact absurd hrest (hdash rest)

/-! ## The steps in a reference -/

theorem valid_write {site : Site} {text : String} (h : site.Valid) (htext : '\x00' ∉ text.toList) :
    (site.write text).2.Valid := by
  cases site with
  | text content => trivial
  | value tag quoting => exact valid_appendValue h htext

theorem write_characters (site : Site) (text : String) : ∃ cs : List Char, (site.write text).1 = cs.map .character := by
  cases site with
  | text content => exact ⟨text.toList, rfl⟩
  | value tag quoting => exact ⟨[], rfl⟩

theorem wellRead_resume {site : Site} (h : site.Valid) (offset : Nat) (last : Option String) :
    WellRead ⟨rest, offset, last, site.resume⟩ := by
  cases site with
  | text content => trivial
  | value tag quoting => exact h

theorem valid_stayAt {site : Site} {text : String} (h : site.Valid) (htext : '\x00' ∉ text.toList) :
    (l.stayAt site text errors).Valid := by
  obtain ⟨cs, hcs⟩ := write_characters site text
  exact valid_stay cs hcs (wellRead_resume (valid_write h htext) _ _)

theorem entityTable_null : ∀ entry ∈ entityTable, '\x00' ∉ entry.1.toList ∧ '\x00' ∉ entry.2.1.toList := by
  decide +kernel

theorem replacement_null {cs : List Char} {found : EntityMatch} (h : longestEntity? cs = some found) :
    '\x00' ∉ found.replacement.toList ∧ '\x00' ∉ cs.take found.length := by
  obtain ⟨entry, hentry, hspelling, hreplacement⟩ := spelling_of_longestEntity? h
  obtain ⟨hname, hnull⟩ := entityTable_null entry hentry
  refine ⟨hreplacement ▸ hnull, fun hmem => ?_⟩
  rcases hspelling.mem hmem with hmem | hsemicolon
  · exact hname hmem
  · exact absurd hsemicolon (by decide)

theorem valid_namedReference {site : Site} (h : site.Valid) :
    ({ l with state := .namedReference site } : Lexer).step.Valid := by
  simp only [step]
  unfold stepNamedReference
  cases hfound : longestEntity? l.rest with
  | none =>
    obtain ⟨cs, hcs⟩ := write_characters site "&"
    exact valid_stay cs hcs (valid_write h (by decide))
  | some found =>
    obtain ⟨hreplacement, htake⟩ := replacement_null hfound
    have htext : ∀ asText : Bool, '\x00' ∉
        (if asText then "&" ++ String.ofList (l.rest.take found.length) else found.replacement).toList := by
      intro asText
      cases asText with
      | false => exact hreplacement
      | true =>
        change '\x00' ∉ ("&" ++ String.ofList (l.rest.take found.length)).toList
        rw [String.toList_append, List.mem_append]
        rintro (hmem | hmem)
        · exact absurd hmem (by decide)
        · rw [String.toList_ofList] at hmem
          exact htake hmem
    obtain ⟨cs, hcs⟩ := write_characters site _
    exact valid_skip cs hcs (wellRead_resume (valid_write h (htext _)) _ _)

theorem toNat_ofNat {n : Nat} (h : n.isValidChar) : (Char.ofNat n).toNat = n := by
  rw [Char.ofNat, dif_pos h]
  rfl

/-- A number never stands for the null character. -/
theorem decodeNumber_null (code : Nat) : (decodeNumber code).1 ≠ '\x00' := by
  unfold decodeNumber
  split
  · decide
  · rename_i hcode
    have hcode : code ≠ 0 ∧ ¬ (0xd800 ≤ code ∧ code ≤ 0xdfff) ∧ code < codeLimit := by
      rw [not_or, not_or, Nat.not_le] at hcode
      exact hcode
    split
    · rename_i hrange
      have hall : ∀ n ∈ windows1252, Char.ofNat n ≠ '\x00' := by decide
      cases hfound : windows1252[code - 0x80]? with
      | none => exact (by decide : Char.ofNat 0xfffd ≠ '\x00')
      | some n => exact hall n (List.mem_of_getElem? hfound)
    · intro heq
      have hvalid : code.isValidChar := by
        have hlimit : codeLimit = 0x110000 := rfl
        unfold Nat.isValidChar
        omega
      have hzero := congrArg Char.toNat heq
      change (Char.ofNat code).toNat = 0 at hzero
      rw [toNat_ofNat hvalid] at hzero
      exact hcode.1 hzero

/-- A step in a character reference. -/
theorem valid_reference {site : Site} (h : site.Valid)
    (hs : s = .reference site ∨ s = .ambiguousAmpersand site ∨ s = .numericReference site ∨
      (∃ base written, s = .numericStart site base written ∧ '\x00' ∉ written.toList) ∨
      (∃ base code, s = .numericDigits site base code) ∨ ∃ code, s = .numericEnd site code) :
    ({ l with state := s } : Lexer).step.Valid := by
  have hamp : '\x00' ∉ ("&" : String).toList := by decide
  rcases hs with rfl | rfl | rfl | ⟨base, written, rfl, hwritten⟩ | ⟨base, code, rfl⟩ | ⟨code, rfl⟩
  · simp only [step, stepReference]
    repeat' split
    all_goals
      first
      | exact valid_stayAt h hamp
      | exact valid_stay [] rfl h
      | exact valid_take [] rfl h
  · simp only [step, stepAmbiguousAmpersand]
    split
    · exact valid_stay [] rfl (wellRead_resume h _ _)
    · rename_i c rest _
      split
      -- a letter or a digit is no null
      · rename_i hc
        obtain ⟨cs, hcs⟩ := write_characters site c.toString
        refine valid_take cs hcs (valid_write h ?_)
        rw [toList_toString, List.mem_singleton]
        rintro rfl
        exact absurd hc (by decide)
      · exact valid_stay [] rfl (wellRead_resume h _ _)
  · simp only [step, stepNumericReference]
    split
    · exact valid_stay [] rfl ⟨h, by decide⟩
    · rename_i c rest _
      split
      · rename_i hc
        refine valid_take [] rfl ⟨h, ?_⟩
        rcases hc with rfl | rfl
        · decide
        · decide
      · exact valid_stay [] rfl ⟨h, by decide⟩
  · simp only [step, stepNumericStart]
    repeat' split
    all_goals
      first
      | exact valid_stayAt h hwritten
      | exact valid_stay [] rfl h
  · simp only [step, stepNumericDigits]
    repeat' split
    all_goals
      first
      | exact valid_stay [] rfl h
      | exact valid_take [] rfl h
  · simp only [step, stepNumericEnd]
    apply valid_stayAt h
    rw [toList_toString, List.mem_singleton]
    exact fun heq => decodeNumber_null code heq.symm

/-! ## All steps -/

/-- **Every step reports what can be written.** -/
theorem wellRead_step (h : WellRead l) : l.step.Valid := by
  suffices ∀ state, WellRead { l with state } → ({ l with state } : Lexer).step.Valid from this l.state h
  intro state h
  have hnil : ∀ cs, cs = ([] : List Char) → '\x00' ∉ cs ∧ '>' ∉ cs := by
    rintro cs rfl
    exact ⟨List.not_mem_nil, List.not_mem_nil⟩
  -- states that carry the same draft share a lemma above; the others are settled here
  cases state with
  | tagName tag => exact valid_tagName h
  | beforeAttributeName tag => exact valid_tag h (.inl rfl)
  | attributeName tag => exact valid_tag h (.inr (.inl rfl))
  | afterAttributeName tag => exact valid_tag h (.inr (.inr (.inl rfl)))
  | beforeAttributeValue tag => exact valid_tag h (.inr (.inr (.inr (.inl rfl))))
  | afterQuotedValue tag => exact valid_tag h (.inr (.inr (.inr (.inr (.inl rfl)))))
  | selfClosing tag => exact valid_tag h (.inr (.inr (.inr (.inr (.inr rfl)))))
  | attributeValue tag quoting => exact valid_attributeValue h
  | bogusComment draft => exact valid_bogusComment h.1 h.2
  | commentStart draft => exact valid_commentStart h (.inl rfl)
  | commentStartDash draft => exact valid_commentStart h (.inr rfl)
  | comment draft => exact valid_comment h.1 h.2
  | commentEndDash draft => exact valid_commentEndDash h.1 h.2.1 h.2.2
  | commentEnd draft => exact valid_commentEnd h
  | commentEndBang draft => exact valid_commentEndBang h
  | reference site => exact valid_reference h (.inl rfl)
  | ambiguousAmpersand site => exact valid_reference h (.inr (.inl rfl))
  | numericReference site => exact valid_reference h (.inr (.inr (.inl rfl)))
  | numericStart site base written => exact valid_reference h.1 (.inr (.inr (.inr (.inl ⟨base, written, rfl, h.2⟩))))
  | numericDigits site base code => exact valid_reference h (.inr (.inr (.inr (.inr (.inl ⟨base, code, rfl⟩)))))
  | numericEnd site code => exact valid_reference h (.inr (.inr (.inr (.inr (.inr ⟨code, rfl⟩)))))
  | namedReference site => exact valid_namedReference h
  | text content =>
    simp only [step, stepText]
    repeat' split
    all_goals
      first
      | exact valid_finish_characters [] rfl
      | exact valid_take [] rfl trivial
      | exact valid_take [_] rfl trivial
  | tagOpen start =>
    simp only [step, stepTagOpen]
    split
    · exact valid_finish_characters ['<'] rfl
    · rename_i c rest hrest
      split
      · exact valid_take [] rfl trivial
      · split
        · exact valid_take [] rfl trivial
        · split
          · rename_i hc
            refine valid_stay [] rfl ⟨rfl, fun _ => .inl ⟨rfl, c, ?_, hc⟩⟩
            exact congrArg List.head? hrest
          · split
            · exact valid_stay [] rfl ⟨(hnil _ rfl).2, (hnil _ rfl).1⟩
            · exact valid_stay ['<'] rfl trivial
  | endTagOpen start =>
    simp only [step, stepEndTagOpen]
    split
    · exact valid_finish_characters ['<', '/'] rfl
    · repeat' split
      all_goals
        first
        | exact valid_take [] rfl trivial
        | exact valid_stay [] rfl ⟨rfl, fun hclosing => by cases hclosing⟩
        | exact valid_stay [] rfl ⟨(hnil _ rfl).2, (hnil _ rfl).1⟩
  | rawEndTagName content start written =>
    -- what was read so far is given back as text when it is not the end tag of the element
    have hwritten : (.character '<' :: .character '/' :: written.toList.map .character : List Token)
        = ('<' :: '/' :: written.toList).map .character := rfl
    simp only [step, stepRawEndTagName, hwritten]
    repeat' split
    all_goals
      first
      | exact valid_stay _ rfl trivial
      | exact valid_take [] rfl trivial
      | exact valid_take [] rfl (valid_closing rfl)
      | exact valid_closeTag (valid_closing rfl)
  | markupDeclaration start =>
    -- a section of this kind is read as a comment that begins with its mark
    have hcdata : WellRead ⟨l.rest.drop 7, l.offset + 7, l.lastStart, .bogusComment ⟨start, "[CDATA["⟩⟩ :=
      (by decide : '>' ∉ ("[CDATA[" : String).toList ∧ '\x00' ∉ ("[CDATA[" : String).toList)
    simp only [step, stepMarkupDeclaration]
    split
    · exact valid_skip [] rfl rfl
    · split
      · exact valid_skip [] rfl trivial
      · split
        · exact valid_skip [] rfl hcdata
        · exact valid_stay [] rfl ⟨(hnil _ rfl).2, (hnil _ rfl).1⟩
  | _ =>
    -- the remaining states carry nothing that is reported later
    simp only [step, stepRawLessThan, stepRawEndTagOpen, stepDoctype, stepBeforeDoctypeName, stepDoctypeName,
      stepAfterDoctypeName]
    repeat' split
    all_goals
      first
      | exact valid_stay [] rfl trivial
      | exact valid_stay ['<'] rfl trivial
      | exact valid_stay ['<', '/'] rfl trivial
      | exact valid_take [] rfl trivial
      | exact valid_closeDoctype
      | exact valid_cutDoctype

/-- **Every token can be written.** -/
theorem valid_tokens (h : WellRead l) : ∀ t ∈ l.tokens, t.Valid := by
  intro t ht
  obtain ⟨ts, m, hreads, hreport⟩ := reads_of_mem ht
  have hm : WellRead m := hreads.invariant (fun _ n hl hnext => (wellRead_step hl).next n hnext) h
  exact (wellRead_step hm).tokens t hreport

end Lexer

/-- The tokens of a text can be written. -/
theorem valid_tokenize {text : String} {t : Token} (ht : t ∈ tokenize text) : t.Valid := by
  rw [tokenize_eq] at ht
  exact Lexer.valid_tokens (show Lexer.WellRead (.start text.toList) from trivial) t ht

end LiveMarkup.Html
