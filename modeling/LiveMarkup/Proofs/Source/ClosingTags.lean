/-
Where the search for a closing tag stops.

The search stops at a `</` with the name of the element and a character that ends names after it
(`spells_of_closingTag?`). The lexer takes such a place for an end tag of that name, unless the place is hidden from it
(`Hidden`): it stands in another tag, in a comment or in a declaration, or in text that only the end tag of another
element ends, or the source ends in a tag that begins there or before. The search skips comments, and the values of
tags with the name of the element, but nothing else of that. Main fact: `innerSpan?_stops_at_endTag_iff`.
-/
import LiveMarkup.Proofs.Html.Lexing.Marks
import LiveMarkup.Proofs.Html.Restored
import LiveMarkup.Proofs.Html.WellNested
import LiveMarkup.Proofs.Source.Tokens
import LiveMarkup.Source.ClosingTag

set_option autoImplicit false

namespace LiveMarkup.Source

open Html Text

/-! ## The search -/

/-- After a `<`, a text spells an end tag of a name: a slash, the name in some case, and after it what ends names. -/
structure SpellsEndTag (name cs w after : List Char) : Prop where
  text : cs = '/' :: (w ++ after)
  name : w.map Char.toLower = name.map Char.toLower
  ends : ∀ c ∈ after.head?, endsName c = true

theorem spells_of_afterTagName? {name cs rest : List Char} (h : afterTagName? name cs = some rest) :
    SpellsEndTag name ('/' :: cs) (cs.take name.length) rest := by
  unfold afterTagName? at h
  dsimp only at h
  split at h
  · rename_i hname
    obtain rfl := Option.some.inj h
    refine ⟨by rw [List.take_append_drop], hname.1, ?_⟩
    intro c hc
    have hall := hname.2
    rw [Option.mem_def.1 hc] at hall
    exact hall
  · cases h

/-- **Where the search finds an end tag, the text spells one.** -/
theorem spells_of_closing {name cs : List Char} {length : Nat} (h : tagMark name cs = .closing length) :
    ∃ w after, SpellsEndTag name cs w after := by
  unfold tagMark at h
  split at h
  · split at h <;> cases h
  · dsimp only at h
    split at h
    · cases h
    · rename_i rest hrest
      split at h
      · rename_i hend
        obtain ⟨tail, rfl⟩ := List.head?_eq_some_iff.1 (eq_of_beq hend)
        rw [if_pos hend] at hrest
        exact ⟨_, rest, spells_of_afterTagName? hrest⟩
      · split at h <;> cases h

/-- **The search stops at a `<` after which an end tag is spelled.** -/
theorem spells_of_seekClosing {name cs : List Char} {skip depth offset stop : Nat}
    (h : seekClosing name skip depth offset cs = some stop) :
    ∃ head rest w after, cs = head ++ '<' :: rest ∧ stop = offset + byteLength head ∧
      SpellsEndTag name rest w after := by
  induction cs generalizing skip depth offset with
  | nil => cases skip <;> cases h
  | cons c cs ih =>
    -- the search goes on behind the first character, unless it stops there
    have hnext : ∀ {skip depth}, seekClosing name skip depth (offset + c.utf8Size) cs = some stop →
        ∃ head rest w after, c :: cs = head ++ '<' :: rest ∧ stop = offset + byteLength head ∧
          SpellsEndTag name rest w after := by
      intro skip depth h
      obtain ⟨head, rest, w, after, rfl, rfl, hspells⟩ := ih h
      exact ⟨c :: head, rest, w, after, rfl, by rw [byteLength, Nat.add_assoc], hspells⟩
    cases skip with
    | succ skip =>
      rw [seekClosing] at h
      exact hnext h
    | zero =>
      by_cases hc : c = '<'
      · subst hc
        rw [seekClosing] at h
        cases hmark : tagMark name cs with
        | other length =>
          rw [hmark] at h
          exact hnext h
        | opening length =>
          rw [hmark] at h
          exact hnext h
        | closing length =>
          rw [hmark] at h
          dsimp only at h
          split at h
          · obtain rfl := Option.some.inj h
            obtain ⟨w, after, hspells⟩ := spells_of_closing hmark
            exact ⟨[], cs, w, after, rfl, rfl, hspells⟩
          · exact hnext h
        | endless =>
          rw [hmark] at h
          cases h
      · rw [seekClosing] at h
        · exact hnext h
        · exact hc

theorem spells_of_closingTag? {source name : String} {start stop : Nat}
    (h : closingTag? source name start = some stop) :
    ∃ head rest w after, source.toList = head ++ '<' :: rest ∧ stop = byteLength head ∧
      SpellsEndTag name.toList rest w after := by
  obtain ⟨⟨before, text⟩, hcut, hseek⟩ := Option.bind_eq_some_iff.1 h
  obtain ⟨head, rest, w, after, rfl, rfl, hspells⟩ := spells_of_seekClosing hseek
  refine ⟨before ++ head, rest, w, after, ?_, ?_, hspells⟩
  · rw [← splitAt?_append hcut, List.append_assoc]
  · rw [byteLength_append, byteLength_of_splitAt? hcut]

/-! ## Hidden places -/

/-- A place at which the lexer does not see an end tag. -/
inductive Hidden (source : String) (offset : Nat) : Prop
  /-- It stands inside a tag, a comment or a declaration. -/
  | inside {token : Token} {span : Span} : token ∈ tokenize source → token.span? = some span → span.start < offset →
      offset < span.stop → Hidden source offset
  /-- It is read as text: the `<` there is reported as a character. -/
  | text {ts more : List Token} {l : Lexer} {content : Content} : Lexer.Reads (.start source.toList) ts l →
      l.offset = offset → l.state = .text content → l.tokens = .character '<' :: more → Hidden source offset
  /-- The source ends in a tag that begins there or before. -/
  | unended {ts : List Token} {l : Lexer} {start : Nat} : Lexer.Reads (.start source.toList) ts l →
      Lexer.EndsIn start l → start ≤ offset → Hidden source offset

/-- An end tag of a name begins at an offset of a source. -/
def EndTagAt (source name : String) (offset : Nat) : Prop :=
  ∃ name' span, .endTag name' span ∈ tokenize source ∧ eqIgnoreCase name' name = true ∧ span.start = offset

variable {source name : String} {offset : Nat}

/-- **Where an end tag is spelled there is one, or the place is hidden.** -/
theorem endTagAt_or_hidden {head rest w after : List Char} (hsource : source.toList = head ++ '<' :: rest)
    (h : SpellsEndTag name.toList rest w after) (hname : TagName name.toLower.toList) :
    EndTagAt source name (byteLength head) ∨ Hidden source (byteLength head) := by
  obtain ⟨ts, l, next, hreads, hrest, hnext, hconsumed⟩ :=
    @Lexer.reads_mark (.start source.toList) head rest hsource
  have hoffset : l.offset = byteLength head := by
    obtain ⟨eaten, heaten, hoffset⟩ := hreads.moves
    rw [hrest] at heaten
    rw [hoffset, List.append_cancel_right (hsource.symm.trans heaten)]
    exact Nat.zero_add _
  have htokens : tokenize source = ts ++ l.tokens := by
    rw [tokenize_eq, Lexer.tokens_of_reads hreads]
  rcases Lexer.mark_cases hrest hnext hconsumed with ⟨content, hstate⟩ | hcertain
  · -- in text, the lexer reads the end tag, or it reads text
    have hlower : w.map Char.toLower = name.toLower.toList := by rw [toList_toLower, h.name]
    have hw : TagName w := tagName_of_lower (by rw [hlower]; exact hname)
    have hknown : Lexer.Known l := hreads.invariant (fun _ _ hl hs => Lexer.known_step hl hs) (.inl rfl)
    obtain ⟨cs, offset, last, state⟩ := l
    simp only at hrest hoffset hstate
    subst hrest hoffset hstate
    obtain ⟨rfl, -, hends⟩ := h
    rcases Lexer.reported_or_text hw hends hknown with (⟨stop, more, hreport⟩ | ⟨k, hsilent, hcut⟩) | ⟨more, htext⟩
    · refine .inl ⟨String.ofList (w.map Char.toLower), ⟨byteLength head, stop⟩, ?_, ?_, rfl⟩
      · exact htokens ▸ hreport ▸ List.mem_append_right ts List.mem_cons_self
      · rw [eqIgnoreCase_iff, hlower, String.ofList_toList, toLower_idem]
    · exact .inr (.unended (hreads.trans hsilent) hcut (Nat.le_refl _))
    · exact .inr (.text hreads rfl rfl htext)
  · -- in a tag, a comment or a declaration, that is reported, or the source ends in it
    right
    obtain ⟨start, hstart⟩ := Lexer.start?_of_certain hcertain
    have hbehind : Lexer.Behind l :=
      hreads.invariant (fun _ _ hl hs => Lexer.behind_step hl hs) fun _ hs => absurd hs nofun
    have hlt := hbehind start hstart
    rcases Lexer.reported_of_certain hcertain hstart with
      ⟨token, more, stop, hreport, -, hspan, -, hafter⟩ | ⟨k, hsilent, hcut⟩
    · have hstop := hafter (by rw [hrest]; exact List.cons_ne_nil _ _)
      refine .inside ?_ hspan (hoffset ▸ hlt) (hoffset ▸ hstop)
      exact htokens ▸ hreport ▸ List.mem_append_right ts List.mem_cons_self
    · exact .unended (hreads.trans hsilent) hcut (by omega)

/-- A tag that occurs in a text is not empty. -/
theorem offset_lt_of_occurs {o m k n : Lexer} {before : List Token} {token : Token}
    (h : Lexer.Occurs o before token m k n) : m.offset < n.offset := by
  obtain ⟨inside, -, hk⟩ := h.inside.moves
  obtain ⟨mark, hmark, hn⟩ := Lexer.moves_step h.next
  have hne : mark ≠ [] := by
    rintro rfl
    have hlength := congrArg List.length (h.ends.symm.trans hmark)
    simp at hlength
  obtain ⟨c, cs, rfl⟩ := List.exists_cons_of_ne_nil hne
  have := c.utf8Size_pos
  rw [byteLength] at hn
  omega

/-- **No end tag begins at a hidden place.** -/
theorem not_hidden_of_endTagAt (h : EndTagAt source name offset) : ¬ Hidden source offset := by
  obtain ⟨name', span, hmem, -, rfl⟩ := h
  intro hhidden
  obtain ⟨before, after, hsplit⟩ := List.append_of_mem hmem
  rw [tokenize_eq] at hsplit
  obtain ⟨m, k, n, hoccurs, rfl⟩ := Lexer.occurs_of_tokens rfl hsplit rfl
  obtain rfl : span = ⟨m.offset, n.offset⟩ := Option.some.inj hoccurs.span
  have hlt := offset_lt_of_occurs hoccurs
  cases hhidden with
  | @inside token span' htoken hspan hlo hhi =>
    -- spans of tokens do not overlap
    have hsymm : Std.Symm fun a b : Span => a.before b ∨ b.before a := ⟨fun _ _ => Or.symm⟩
    have hpairs : ((tokenize source).filterMap Token.span?).Pairwise fun a b : Span => a.before b ∨ b.before a :=
      (pairwise_of_laid (laid_tokenize source)).imp .inl
    have hapart := hpairs.forall (List.mem_filterMap.2 ⟨_, hmem, rfl⟩) (List.mem_filterMap.2 ⟨_, htoken, hspan⟩)
      (by rintro rfl; exact Nat.lt_irrefl _ hlo)
    unfold Span.before at hapart
    simp only at hapart hlo hhi
    omega
  | @text ts more l content hreads hoffset hstate htokens =>
    -- the lexer comes to the place in text once
    obtain ⟨hbegins, hhead⟩ := hoccurs.begins
    have hrest : m.rest ≠ [] := by
      intro hnil
      rw [hnil] at hhead
      cases hhead
    obtain rfl : m = l := Lexer.eq_of_text hoccurs.reads hreads hbegins hstate hoffset.symm hrest
    rw [Lexer.tokens_of_reads hoccurs.inside, Lexer.tokens_of_some hoccurs.next, hoccurs.reports] at htokens
    exact absurd (List.cons.inj htokens).1 nofun
  | @unended ts l start hreads hends hle =>
    -- what the source ends in begins behind all that was reported
    obtain ⟨hnone, hstart, -⟩ := hends
    have hclosed := hoccurs.reads.trans (hoccurs.inside.trans (.one hoccurs.next rfl))
    have hn : n.state.start? = none := by
      rw [hoccurs.state]
      rfl
    rcases Lexer.reads_linear hclosed hreads with ⟨vs, hmore⟩ | ⟨vs, hmore⟩
    · have hbehind : Lexer.Behind n := fun s hs => absurd (hn.symm.trans hs) nofun
      have hreach := Lexer.reach_le_of_reads hbehind hmore
      rw [Lexer.reach, Lexer.reach, hn, hstart, Option.getD_none, Option.getD_some] at hreach
      simp only at hle
      omega
    · cases hmore with
      | refl =>
        rw [hn] at hstart
        cases hstart
      | step hs _ =>
        rw [hnone] at hs
        cases hs

/-! ## Elements without an end tag -/

/-- **The search stops at an end tag, unless the place is hidden.** Where the parser has no end tag for an element and
the search finds an end, an end tag with the name of the element begins there exactly when the place is not hidden. -/
theorem innerSpan?_stops_at_endTag_iff {t : Tree} (h : Html.parse source = .ok t) {x : NodeId × Element}
    (hx : x ∈ t.allElements) {l : Location} (hend : l.endTag = none) {r : Span}
    (hr : innerSpan? source x.2.name l = some r) : EndTagAt source x.2.name r.stop ↔ ¬ Hidden source r.stop := by
  obtain ⟨f, hf, hd⟩ := forest_of_parse h
  rw [allElements_of_depicts hd] at hx
  obtain ⟨y, hy, rfl⟩ := List.mem_map.1 hx
  simp only [name_placed] at hr ⊢
  have hname : TagName y.2.1.name.toLower.toList := by
    obtain ⟨tag, hstands⟩ := stands_of_spot (grown_of_text hf) hy
    rw [toLower_of_stands hstands]
    exact hstands.legal.name.chars
  -- what the search finds is where the span ends
  rw [innerSpan?, hend] at hr
  obtain ⟨stop, hstop, hspan⟩ := Option.bind_eq_some_iff.1 hr
  obtain ⟨hbounds, -⟩ := Option.filter_eq_some_iff.1 hspan
  obtain rfl : r.stop = stop := by
    unfold Span.ofBounds? at hbounds
    split at hbounds
    · cases hbounds
    · rw [← Option.some.inj hbounds]
  obtain ⟨head, rest, w, after, hsource, hoffset, hspells⟩ := spells_of_closingTag? hstop
  rw [hoffset]
  refine ⟨not_hidden_of_endTagAt, fun hnot => ?_⟩
  exact (endTagAt_or_hidden hsource hspells hname).resolve_right hnot

/-- The first paragraph ends where the second one starts, and the end tag after both is found for it. -/
theorem innerSpan?_stops_of_paragraphs :
    ∃ t l, Html.parse "<p>a<p>b</p></p>" = .ok t ∧ (∃ x ∈ t.allElements, x.2.name = "p" ∧ x.2.location = some l) ∧
      l.endTag = none ∧ innerSpan? "<p>a<p>b</p></p>" "p" l = some ⟨3, 12⟩ ∧
      EndTagAt "<p>a<p>b</p></p>" "p" 12 ∧ ¬ Hidden "<p>a<p>b</p></p>" 12 := by
  let l : Location := ⟨⟨0, 3⟩, none, ⟨0, 4⟩, false⟩
  have hseen : (Html.parse "<p>a<p>b</p></p>").map (fun t => t.allElements.map fun x => (x.2.name, x.2.location))
      = .ok [("p", some l), ("p", some ⟨⟨4, 7⟩, some ⟨8, 12⟩, ⟨4, 12⟩, false⟩)] := by cbv
  have htokens : tokenize "<p>a<p>b</p></p>" = [.startTag "p" false [] ⟨0, 3⟩, .character 'a',
      .startTag "p" false [] ⟨4, 7⟩, .character 'b', .endTag "p" ⟨8, 12⟩, .endTag "p" ⟨12, 16⟩, .endOfFile 16] := by
    cbv
  have hspan : innerSpan? "<p>a<p>b</p></p>" "p" l = some ⟨3, 12⟩ := by cbv
  have htag : EndTagAt "<p>a<p>b</p></p>" "p" 12 := by
    refine ⟨"p", ⟨12, 16⟩, ?_, beq_self_eq_true _, rfl⟩
    rw [htokens]
    decide
  cases hp : Html.parse "<p>a<p>b</p></p>" with
  | error e =>
    rw [hp] at hseen
    cases hseen
  | ok t =>
    rw [hp] at hseen
    have heach : t.allElements.map (fun x => (x.2.name, x.2.location)) = _ := Except.ok.inj hseen
    have hlisted : ("p", some l) ∈ t.allElements.map fun x => (x.2.name, x.2.location) := by
      rw [heach]
      exact List.mem_cons_self
    obtain ⟨x, hx, hxl⟩ := List.mem_map.1 hlisted
    obtain ⟨hname, hl⟩ := Prod.mk.inj hxl
    have hiff := innerSpan?_stops_at_endTag_iff hp hx rfl (hname ▸ hspan)
    rw [hname] at hiff
    exact ⟨t, l, rfl, ⟨x, hx, hname, hl⟩, rfl, hspan, htag, hiff.1 htag⟩

/-- **The search can stop where there is no end tag.** In the value of an attribute of another tag it takes text for the
end tag of the paragraph. -/
theorem exists_stop_without_endTag :
    ¬ ∀ (source : String) (t : Tree), Html.parse source = .ok t → ∀ x ∈ t.allElements, ∀ l, x.2.location = some l →
      l.endTag = none → ∀ r, innerSpan? source x.2.name l = some r → EndTagAt source x.2.name r.stop := by
  intro hall
  let l : Location := ⟨⟨0, 3⟩, none, ⟨0, 20⟩, false⟩
  have hseen : (Html.parse "<p>a<b title=\"</p>\">").map (fun t => t.allElements.map fun x => (x.2.name, x.2.location))
      = .ok [("p", some l), ("b", some ⟨⟨4, 20⟩, none, ⟨4, 20⟩, false⟩)] := by cbv
  have htokens : tokenize "<p>a<b title=\"</p>\">" = [.startTag "p" false [] ⟨0, 3⟩, .character 'a',
      .startTag "b" false [⟨"title", "</p>"⟩] ⟨4, 20⟩, .endOfFile 20] := by cbv
  have hspan : innerSpan? "<p>a<b title=\"</p>\">" "p" l = some ⟨3, 14⟩ := by cbv
  cases hp : Html.parse "<p>a<b title=\"</p>\">" with
  | error e =>
    rw [hp] at hseen
    cases hseen
  | ok t =>
    rw [hp] at hseen
    have heach : t.allElements.map (fun x => (x.2.name, x.2.location)) = _ := Except.ok.inj hseen
    have hlisted : ("p", some l) ∈ t.allElements.map fun x => (x.2.name, x.2.location) := by
      rw [heach]
      exact List.mem_cons_self
    obtain ⟨x, hx, hxl⟩ := List.mem_map.1 hlisted
    obtain ⟨hname, hl⟩ := Prod.mk.inj hxl
    obtain ⟨name', span, hmem, -, -⟩ := hall _ t hp x hx l hl rfl ⟨3, 14⟩ (hname ▸ hspan)
    rw [htokens] at hmem
    simp at hmem

end LiveMarkup.Source
