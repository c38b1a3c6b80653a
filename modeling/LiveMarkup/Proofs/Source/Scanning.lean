/-
What the search for shortcodes finds.

A shortcode ends at the bracket that ends its opening tag or at a closing tag behind it, and nothing that stands
further on decides about it (`Opens`, `reach_take`). So a text that was found is a shortcode by itself
(`shortcodes_alone`), and the search goes on behind it (`mem_scan`, `scan_ordered`). Main result: `shortcodes_stable`.
-/
import LiveMarkup.Source.Shortcode
import LiveMarkup.Proofs.Css.Preludes
import LiveMarkup.Proofs.Html.Lexing.Run
import LiveMarkup.Proofs.Source.Cut

set_option autoImplicit false

namespace LiveMarkup.Source

open Text

variable {cs name inner after word : List Char} {length n : Nat}

/-! ## Where a word occurs -/

theorem dropWord?_isSome_iff : (dropWord? word cs).isSome = true ↔ word <+: cs := by
  constructor
  · intro h
    obtain ⟨rest, hrest⟩ := Option.isSome_iff_exists.1 h
    exact ⟨rest, (eq_append_of_dropWord? hrest).symm⟩
  · rintro ⟨rest, rfl⟩
    rw [dropWord?_append, Option.isSome_some]

/-- A word occurs where it is found. -/
theorem take_of_indexOf? (h : indexOf? word cs = some n) : cs.take (n + word.length) = cs.take n ++ word := by
  induction cs generalizing n with
  | nil =>
    cases word with
    | nil => rw [List.take_nil, List.take_nil, List.append_nil]
    | cons w word => cases h
  | cons c cs ih =>
    rw [indexOf?] at h
    split at h
    · rename_i hword
      obtain ⟨rest, hrest⟩ := dropWord?_isSome_iff.1 hword
      obtain rfl := Option.some.inj h
      rw [← hrest, Nat.zero_add, List.take_left, List.take_zero, List.nil_append]
    · obtain ⟨m, hm, rfl⟩ := Option.map_eq_some_iff.1 h
      rw [Nat.add_right_comm, List.take_succ_cons, List.take_succ_cons, ih hm, List.cons_append]

/-- What follows the first place of a word does not decide where it is. -/
theorem indexOf?_take (h : indexOf? word cs = some n) : indexOf? word (cs.take (n + word.length)) = some n := by
  induction cs generalizing n with
  | nil => rwa [List.take_nil]
  | cons c cs ih =>
    cases word with
    | nil =>
      rw [indexOf?, dropWord?, Option.isSome_some, if_pos rfl] at h
      obtain rfl := Option.some.inj h
      rfl
    | cons w word =>
      have hcut : (c :: cs).take (n + (w :: word).length) = c :: cs.take (n + word.length) := by
        rw [List.length_cons, ← Nat.add_assoc, List.take_succ_cons]
      rw [indexOf?] at h
      split at h
      · rename_i hword
        obtain rfl := Option.some.inj h
        have hfirst : (w :: word) <+: (c :: cs).take (0 + (w :: word).length) := by
          rw [Nat.zero_add, List.prefix_take_iff]
          exact ⟨dropWord?_isSome_iff.1 hword, le_refl _⟩
        rw [hcut, indexOf?, ← hcut, if_pos (dropWord?_isSome_iff.2 hfirst)]
      · rename_i hword
        obtain ⟨m, hm, rfl⟩ := Option.map_eq_some_iff.1 h
        have hnone : ¬ (w :: word) <+: (c :: cs).take (m + 1 + (w :: word).length) := fun hstart =>
          hword (dropWord?_isSome_iff.2 (hstart.trans (List.take_prefix _ _)))
        have hrest := ih hm
        rw [List.length_cons, ← Nat.add_assoc, Nat.add_right_comm] at hrest
        rw [hcut, indexOf?, ← hcut, if_neg fun hsome => hnone (dropWord?_isSome_iff.1 hsome), hrest]
        rfl

namespace Shortcode

/-! ## An opening tag -/

/-- What ends an opening tag is known once it was read, whatever follows. -/
theorem exists_of_takeTag {quote : Option Char} (h : takeTag quote cs = some inner) :
    ∃ after, cs = inner ++ ']' :: after ∧ ∀ more, takeTag quote (inner ++ ']' :: more) = some inner := by
  fun_induction takeTag quote cs generalizing inner with
  | case1 => cases h
  | case2 quote c cs ih =>
    obtain ⟨inner, hinner, rfl⟩ := Option.map_eq_some_iff.1 h
    obtain ⟨after, rfl, hmore⟩ := ih hinner
    refine ⟨after, rfl, fun more => ?_⟩
    rw [List.cons_append, takeTag, hmore]
    rfl
  | case3 cs =>
    obtain rfl := Option.some.inj h
    exact ⟨cs, rfl, fun more => rfl⟩
  | case4 => cases h
  | case5 c cs hclose hopen ih =>
    obtain ⟨inner, hinner, rfl⟩ := Option.map_eq_some_iff.1 h
    obtain ⟨after, rfl, hmore⟩ := ih hinner
    refine ⟨after, rfl, fun more => ?_⟩
    rw [List.cons_append, takeTag.eq_5 _ _ hclose hopen, hmore]
    rfl

/-- A name and what stands between it and the bracket that ends its opening tag. -/
structure Opens (name inner : List Char) : Prop where
  start : name.head?.any isNameStart = true
  parts : ∀ c ∈ name, isNamePart c = true
  stop : (inner ++ [']']).head?.any (fun c => c == ']' || c == '/' || isBlank c) = true
  tag : ∀ more, takeTag none (inner ++ ']' :: more) = some inner

/-- The closing tag of a name. -/
def closing (name : List Char) : List Char := '[' :: '/' :: name ++ [']']

/-- How many characters behind its opening tag belong to a shortcode. -/
def reach (name inner after : List Char) : Nat :=
  if (trimEnd inner).getLast? = some '/' then 0
  else
    match indexOf? (closing name) after with
    | some n => n + (closing name).length
    | none => 0

theorem reach_le : reach name inner after ≤ after.length := by
  unfold reach
  split
  · exact Nat.zero_le _
  · split
    · rename_i n hn
      have hlength := congrArg List.length (take_of_indexOf? hn)
      rw [List.length_append, List.length_take, List.length_take] at hlength
      have hclosing : 0 < (closing name).length := Nat.zero_lt_succ _
      omega
    · exact Nat.zero_le _

/-- What follows a shortcode does not decide where it ends. -/
theorem reach_take : reach name inner (after.take (reach name inner after)) = reach name inner after := by
  unfold reach
  split
  · rfl
  · cases hindex : indexOf? (closing name) after with
    | none =>
      rw [List.take_zero]
      rfl
    | some n =>
      dsimp only
      rw [indexOf?_take hindex]

/-- What belongs to a shortcode behind its opening tag ends with a bracket. -/
theorem exists_take_reach (name inner after : List Char) :
    ∃ front, ']' :: after.take (reach name inner after) = front ++ [']'] := by
  unfold reach
  split
  · exact ⟨[], rfl⟩
  · split
    · rename_i n hn
      rw [take_of_indexOf? hn, closing, ← List.append_assoc]
      exact ⟨']' :: (after.take n ++ '[' :: '/' :: name), rfl⟩
    · exact ⟨[], rfl⟩

/-- What goes on behind a name is not a part of it. -/
theorem isNamePart_of_stop {c : Char} (h : (c == ']' || c == '/' || isBlank c) = true) : isNamePart c = false := by
  rw [Bool.or_eq_true, Bool.or_eq_true, beq_iff_eq, beq_iff_eq] at h
  rcases h with (rfl | rfl) | hblank
  · decide
  · decide
  · obtain ⟨hword, hdash⟩ := Css.wordEnd_of_isBlank hblank
    rw [isNamePart, Bool.or_eq_false_iff]
    exact ⟨hword, beq_false_of_ne hdash⟩

theorem takeWhile_name (h : Opens name inner) (after : List Char) :
    (name ++ (inner ++ ']' :: after)).takeWhile isNamePart = name := by
  rw [List.takeWhile_append_of_pos h.parts]
  have hstop := h.stop
  cases inner with
  | nil => exact List.append_nil name
  | cons c inner =>
    have hnot := isNamePart_of_stop hstop
    rw [List.cons_append, List.takeWhile_cons_of_neg (Bool.eq_false_iff.1 hnot), List.append_nil]

/-- What is read behind an opening bracket, once its name and the rest of the text are known. -/
theorem read?_of_parts {rest : List Char} (hname : cs.takeWhile isNamePart = name) (hrest : cs.drop name.length = rest) :
    read? cs =
      if name.head?.any isNameStart = true ∧ (rest.head?.any fun c => c == ']' || c == '/' || isBlank c) = true then
        (takeTag none rest).map fun inner =>
          (name, 1 + name.length + inner.length + 1 + reach name inner (rest.drop (inner.length + 1)))
      else none := by
  unfold read?
  simp only [hname, hrest]
  cases hstart : name.head?.any isNameStart with
  | false => simp
  | true =>
    cases hstop : rest.head?.any fun c => c == ']' || c == '/' || isBlank c with
    | false => simp
    | true =>
      cases takeTag none rest with
      | none => simp
      | some inner =>
        simp only [Bool.not_true, Bool.false_eq_true, if_false, and_self, if_true, Option.bind_eq_bind, Option.bind_some,
          Option.map_some, reach, closing]
        split
        · rfl
        · cases indexOf? ('[' :: '/' :: name ++ [']']) (rest.drop (inner.length + 1)) with
          | none => rfl
          | some n =>
            dsimp only
            rw [Nat.add_assoc _ n]

theorem read?_of_opens (h : Opens name inner) (after : List Char) :
    read? (name ++ (inner ++ ']' :: after)) = some (name, 1 + name.length + inner.length + 1 + reach name inner after) := by
  have hstop : ((inner ++ ']' :: after).head?.any fun c => c == ']' || c == '/' || isBlank c) = true := by
    have := h.stop
    cases inner <;> exact this
  have hafter : (inner ++ ']' :: after).drop (inner.length + 1) = after := by
    rw [← List.drop_drop, List.drop_left, List.drop_succ_cons, List.drop_zero]
  rw [read?_of_parts (takeWhile_name h after) List.drop_left, if_pos ⟨h.start, hstop⟩, h.tag after, Option.map_some,
    hafter]

theorem opens_of_read? (h : read? cs = some (name, length)) :
    ∃ inner after, Opens name inner ∧ cs = name ++ (inner ++ ']' :: after) := by
  rw [read?_of_parts rfl rfl] at h
  split at h
  · rename_i hopens
    obtain ⟨inner, htag, hname⟩ := Option.map_eq_some_iff.1 h
    obtain ⟨after, hafter, hmore⟩ := exists_of_takeTag htag
    obtain ⟨rfl, -⟩ := Prod.mk.inj hname
    rw [hafter] at hopens
    refine ⟨inner, after, ⟨hopens.1, ?_, ?_, hmore⟩, ?_⟩
    · exact fun c hc => List.mem_takeWhile_imp hc
    · cases inner <;> exact hopens.2
    · rw [← hafter]
      exact List.prefix_iff_eq_append.1 (List.takeWhile_prefix _) |>.symm
  · cases h

/-! ## A shortcode -/

/-- A placeholder of some name: what its opening bracket and the brackets behind it hold together. -/
def Placeholder (name fragment : List Char) : Prop :=
  ∃ inner after, Opens name inner ∧ fragment = '[' :: (name ++ (inner ++ ']' :: after)) ∧
    reach name inner after = after.length

variable {fragment : List Char}

/-- What is read at an opening bracket is a placeholder, whatever follows it. -/
theorem placeholder_of_read? (h : read? cs = some (name, length)) :
    Placeholder name (('[' :: cs).take length) ∧ (('[' :: cs).take length).length = length := by
  obtain ⟨inner, after, hopens, rfl⟩ := opens_of_read? h
  rw [read?_of_opens hopens] at h
  obtain ⟨-, rfl⟩ := Prod.mk.inj (Option.some.inj h)
  have htake : ('[' :: (name ++ (inner ++ ']' :: after))).take (1 + name.length + inner.length + 1 + reach name inner after) =
      '[' :: (name ++ (inner ++ ']' :: after.take (reach name inner after))) := by
    have hlength : 1 + name.length + inner.length + 1 + reach name inner after =
        (name.length + (inner.length + (reach name inner after + 1))) + 1 := by omega
    rw [hlength, List.take_succ_cons, List.take_length_add_append, List.take_length_add_append, List.take_succ_cons]
  have hle := @reach_le name inner after
  rw [htake]
  refine ⟨⟨inner, _, hopens, rfl, ?_⟩, ?_⟩
  · rw [reach_take, List.length_take, Nat.min_eq_left hle]
  · simp only [List.length_cons, List.length_append, List.length_take, Nat.min_eq_left hle]
    omega

/-- A placeholder is read as itself. -/
theorem read?_of_placeholder (h : Placeholder name fragment) :
    ∃ cs, fragment = '[' :: cs ∧ read? cs = some (name, fragment.length) ∧ cs.head? ≠ some '[' := by
  obtain ⟨inner, after, hopens, rfl, hreach⟩ := h
  refine ⟨_, rfl, ?_, ?_⟩
  · rw [read?_of_opens hopens, hreach]
    simp only [List.length_cons, List.length_append]
    congr 2
    omega
  · have hstart := hopens.start
    cases name with
    | nil => cases hstart
    | cons c name =>
      rintro hbracket
      obtain rfl := Option.some.inj hbracket
      exact absurd hstart (by decide : isNameStart '[' ≠ true)

/-- A placeholder starts with a bracket and its name, and ends with a bracket. -/
theorem exists_of_placeholder (h : Placeholder name fragment) : ∃ inner, fragment = '[' :: (name ++ (inner ++ [']'])) := by
  obtain ⟨inner, after, hopens, rfl, hreach⟩ := h
  obtain ⟨front, hfront⟩ := exists_take_reach name inner after
  rw [hreach, List.take_length] at hfront
  exact ⟨inner ++ front, by rw [hfront, List.append_assoc]⟩

/-! ## The search -/

/-- What a shortcode found behind some characters looks like. -/
def Found (offset : Nat) (cs before after : List Char) (s : Shortcode) : Prop :=
  ∃ name fragment, Placeholder name fragment ∧ cs = before ++ (fragment ++ after) ∧
    s = ⟨String.ofList name, ⟨offset + byteLength before, offset + byteLength before + byteLength fragment⟩,
      String.ofList fragment⟩

theorem found_cons {c : Char} {offset : Nat} {before : List Char} {s : Shortcode}
    (h : Found (offset + c.utf8Size) cs before after s) : Found offset (c :: cs) (c :: before) after s := by
  obtain ⟨name, fragment, hplaceholder, rfl, rfl⟩ := h
  refine ⟨name, fragment, hplaceholder, rfl, ?_⟩
  rw [byteLength, Nat.add_assoc offset]

/-- **What is found is a placeholder of the text**, behind what belongs to an earlier one. -/
theorem exists_found {skip offset : Nat} {s : Shortcode} (h : s ∈ scan skip offset cs) :
    ∃ before after, skip ≤ before.length ∧ Found offset cs before after s := by
  fun_induction scan skip offset cs with
  | case1 => cases h
  | case2 offset skip c cs ih =>
    obtain ⟨before, after, hskip, hfound⟩ := ih h
    exact ⟨c :: before, after, Nat.succ_le_succ hskip, found_cons hfound⟩
  | case3 offset cs ih =>
    obtain ⟨before, after, -, hfound⟩ := ih h
    exact ⟨'[' :: before, after, Nat.zero_le _, found_cons hfound⟩
  | case4 offset cs hnot name length hread fragment ih =>
    rcases List.mem_cons.1 h with rfl | h
    · obtain ⟨hplaceholder, hlength⟩ := placeholder_of_read? hread
      exact ⟨[], ('[' :: cs).drop length, Nat.zero_le _, name, fragment, hplaceholder, (List.take_append_drop _ _).symm, rfl⟩
    · obtain ⟨before, after, -, hfound⟩ := ih h
      exact ⟨'[' :: before, after, Nat.zero_le _, found_cons hfound⟩
  | case5 offset cs hnot hread ih =>
    obtain ⟨before, after, -, hfound⟩ := ih h
    exact ⟨'[' :: before, after, Nat.zero_le _, found_cons hfound⟩
  | case6 offset c cs hdouble hsingle ih =>
    obtain ⟨before, after, -, hfound⟩ := ih h
    exact ⟨c :: before, after, Nat.zero_le _, found_cons hfound⟩

/-- The shortcodes of a text are found in order, each behind the one before. -/
theorem scan_ordered (skip offset : Nat) (cs : List Char) :
    (scan skip offset cs).Pairwise fun s t => s.span.start < t.span.start ∧ s.span.before t.span := by
  fun_induction scan skip offset cs with
  | case1 => exact .nil
  | case2 offset skip c cs ih => exact ih
  | case3 offset cs ih => exact ih
  | case4 offset cs hnot name length hread fragment ih =>
    refine List.pairwise_cons.2 ⟨fun t ht => ?_, ih⟩
    obtain ⟨before, after, hskip, _, _, -, hcs, rfl⟩ := exists_found ht
    -- the next shortcode stands behind what belongs to this one
    have hstart : cs.take (length - 1) <+: before := by
      rw [hcs, List.take_append_of_le_length hskip]
      exact List.take_prefix _ _
    obtain ⟨more, rfl⟩ := hstart
    have hbytes : byteLength fragment ≤ 1 + byteLength (cs.take (length - 1)) := by
      change byteLength (('[' :: cs).take length) ≤ _
      cases length with
      | zero => exact Nat.zero_le _
      | succ n => exact le_refl (byteLength ('[' :: cs.take n))
    dsimp only [Span.before]
    rw [byteLength_append]
    exact ⟨by omega, by omega⟩
  | case5 offset cs hnot hread ih => exact ih
  | case6 offset c cs hdouble hsingle ih => exact ih

/-- Nothing is found in what belongs to an earlier shortcode. -/
theorem scan_of_length_le {skip : Nat} (offset : Nat) (h : cs.length ≤ skip) : scan skip offset cs = [] := by
  refine List.eq_nil_iff_forall_not_mem.2 fun s hs => ?_
  obtain ⟨before, after, hskip, name, fragment, hplaceholder, rfl, -⟩ := exists_found hs
  obtain ⟨inner, rfl⟩ := exists_of_placeholder hplaceholder
  rw [List.length_append, List.length_append, List.length_cons] at h
  omega

/-- **A placeholder by itself is one shortcode.** -/
theorem shortcodes_alone (h : Placeholder name fragment) :
    shortcodes (String.ofList fragment) =
      [⟨String.ofList name, ⟨0, byteLength fragment⟩, String.ofList fragment⟩] := by
  obtain ⟨cs, rfl, hread, hhead⟩ := read?_of_placeholder h
  rw [shortcodes, String.toList_ofList, scan.eq_4 _ _ fun rest hrest => hhead (by rw [hrest]; rfl), hread]
  dsimp only
  rw [List.take_length, List.length_cons, Nat.add_sub_cancel, scan_of_length_le (0 + 1) (Nat.le_refl cs.length), Nat.zero_add]

end Shortcode

/-! ## The shortcodes of a text -/

variable {text : String} {s : Shortcode}

/-- A span lies in a text, with characters in it and between characters at both ends. -/
structure Lies (r : Span) (text : String) : Prop where
  order : r.start < r.stop
  inside : r.stop ≤ text.utf8ByteSize
  starts : isBoundary text.toList r.start = true
  stops : isBoundary text.toList r.stop = true

/-- A shortcode is written as its name in brackets, and is itself when it stands alone. -/
structure Stable (s : Shortcode) : Prop where
  brackets : ∃ inner, s.fragment = "[" ++ s.name ++ inner ++ "]"
  alone : shortcodes s.fragment = [⟨s.name, ⟨0, s.fragment.utf8ByteSize⟩, s.fragment⟩]

/-- A shortcode of a text is a placeholder that is cut out of it. -/
theorem cut_of_mem (h : s ∈ shortcodes text) : ∃ name fragment head tail, Shortcode.Placeholder name fragment ∧
    s.name = String.ofList name ∧ s.fragment = String.ofList fragment ∧ Cut text s.span head fragment tail := by
  obtain ⟨before, after, -, name, fragment, hplaceholder, htext, rfl⟩ := Shortcode.exists_found h
  refine ⟨name, fragment, before, after, hplaceholder, rfl, rfl, htext, ?_, ?_⟩
  · exact (Nat.zero_add _).symm
  · rw [Nat.zero_add]

theorem lies_of_cut {r : Span} {head middle tail : List Char} (h : Cut text r head middle tail)
    (hbytes : 0 < byteLength middle) : Lies r text := by
  have hstart := h.start
  have hstop := h.stop
  refine ⟨by omega, stop_le_of_cut h, ?_, ?_⟩
  · rw [h.whole, ← hstart]
    exact isBoundary_append head (middle ++ tail)
  · rw [h.whole, ← List.append_assoc, ← hstop, ← byteLength_append]
    exact isBoundary_append (head ++ middle) tail

theorem stable_of_placeholder {name fragment : List Char} (h : Shortcode.Placeholder name fragment)
    (hname : s.name = String.ofList name) (hfragment : s.fragment = String.ofList fragment) : Stable s := by
  obtain ⟨inner, hinner⟩ := Shortcode.exists_of_placeholder h
  refine ⟨⟨String.ofList inner, ?_⟩, ?_⟩
  · rw [hname, hfragment, hinner, ← String.toList_inj]
    simp
  · rw [hname, hfragment, utf8ByteSize_eq, String.toList_ofList]
    exact Shortcode.shortcodes_alone h

/-- **The search for shortcodes finds what is one.** What it finds are pieces of the text, in order and apart from each
other, each the name of the shortcode and more in brackets; and such a piece by itself is one shortcode of the same
name, which is the whole of it. -/
theorem shortcodes_stable (text : String) :
    (∀ s ∈ shortcodes text, Lies s.span text ∧ s.span.slice? text = some s.fragment ∧ Stable s) ∧
      (shortcodes text).Pairwise fun s t => s.span.start < t.span.start ∧ s.span.before t.span := by
  refine ⟨fun s hs => ?_, Shortcode.scan_ordered 0 0 text.toList⟩
  obtain ⟨name, fragment, head, tail, hplaceholder, hname, hfragment, hcut⟩ := cut_of_mem hs
  obtain ⟨inner, hinner⟩ := Shortcode.exists_of_placeholder hplaceholder
  refine ⟨lies_of_cut hcut ?_, ?_, stable_of_placeholder hplaceholder hname hfragment⟩
  · rw [hinner, byteLength]
    exact Nat.add_pos_left (Char.utf8Size_pos _) _
  · rw [hfragment]
    exact slice?_of_cut hcut

/-- Behind an escaped and a broken placeholder, one whose value holds a bracket and that reaches up to its closing tag. -/
theorem shortcodes_stable_of_broken_tag :
    (⟨"b", ⟨10, 25⟩, "[b x=']'] t[/b]"⟩ : Shortcode) ∈ shortcodes "é[[b]][a [b x=']'] t[/b]." ∧
      Lies ⟨10, 25⟩ "é[[b]][a [b x=']'] t[/b]." ∧
      shortcodes "[b x=']'] t[/b]" = [⟨"b", ⟨0, "[b x=']'] t[/b]".utf8ByteSize⟩, "[b x=']'] t[/b]"⟩] := by
  have hmem : (⟨"b", ⟨10, 25⟩, "[b x=']'] t[/b]"⟩ : Shortcode) ∈ shortcodes "é[[b]][a [b x=']'] t[/b]." := by decide
  obtain ⟨hlies, -, hstable⟩ := (shortcodes_stable "é[[b]][a [b x=']'] t[/b].").1 _ hmem
  exact ⟨hmem, hlies, hstable.alone⟩

end LiveMarkup.Source
