/-
Named character references.

A name of the table is spelled with its semicolon, and an old name also without it (`Spelling`). The table has two
readers: one is given a whole spelling, the other tries every name at the start of a text. Both take the same spellings
(`spelling_of_lookupEntity?`, `spelling_of_entityMatch?`), and the search through the table gives up a match for a
longer one only (`le_foldl_longerMatch`). So what is found at the start of a text is the longest of its beginnings that
can be looked up. Main result: `longestEntity?_eq_iff`.
-/
import LiveMarkup.Html.Entity
import LiveMarkup.Proofs.Text.Chars

set_option autoImplicit false

namespace LiveMarkup.Html

open Text

/-- The spellings of an entry of the table, and whether they end with the semicolon. -/
inductive Spelling (entry : String × String × Bool) : List Char → Bool → Prop
  | closed : Spelling entry (entry.1.toList ++ [';']) true
  | bare : entry.2.2 = true → Spelling entry entry.1.toList false

/-- What is to be read at the start of a text: the longest of its beginnings that can be looked up, if there is one. -/
inductive LongestReference (text : List Char) : Option EntityMatch → Prop
  | absent : (∀ name, name <+: text → lookupEntity? (String.ofList name) = none) → LongestReference text none
  | present {name rest : List Char} {m : EntityMatch} : splitAt? text m.length = some (name, rest) →
      lookupEntity? (String.ofList name) = some m.replacement → (m.terminated = true ↔ name.getLast? = some ';') →
      (∀ longer, longer <+: text → m.length < byteLength longer → lookupEntity? (String.ofList longer) = none) →
      LongestReference text (some m)

variable {text name : List Char} {entry : String × String × Bool} {terminated : Bool} {replacement : String}
  {c : Char} {m : EntityMatch} {found found' : Option EntityMatch}

/-! ## The table -/

theorem entityTable_nodup : (entityTable.map fun entry => entry.1.toList).Nodup := by decide +kernel

theorem entityTable_no_semicolon : ∀ entry ∈ entityTable, ';' ∉ entry.1.toList := by decide +kernel

/-- The names of characters are of one-byte characters. -/
theorem entityTable_ascii : ∀ entry ∈ entityTable, ∀ c ∈ entry.1.toList, c.toNat ≤ 127 := by
  have hall : entityTable.all (fun entry => entry.1.toList.all (·.toNat ≤ 127)) = true := by decide +kernel
  exact fun entry hentry => List.all_iff_forall_prop.1 (List.all_eq_true.1 hall entry hentry)

/-- The search for a name finds the one entry that has it. -/
theorem find?_entityTable_eq_some_iff :
    entityTable.find? (fun entry => entry.1.toList == name) = some entry ↔
      entry ∈ entityTable ∧ entry.1.toList = name := by
  have hname (other : String × String × Bool)
      (h : entityTable.find? (fun entry => entry.1.toList == name) = some other) : other.1.toList = name := by
    simpa using List.find?_some h
  constructor
  · intro h
    exact ⟨List.mem_of_find?_eq_some h, hname entry h⟩
  · rintro ⟨hentry, rfl⟩
    cases hfound : entityTable.find? (fun other => other.1.toList == entry.1.toList) with
    | none => simpa using List.find?_eq_none.1 hfound entry hentry
    | some other =>
      -- names are distinct, so the first entry with the name is the entry itself
      rw [List.inj_on_of_nodup_map entityTable_nodup (List.mem_of_find?_eq_some hfound) hentry (hname other hfound)]

/-! ## Spellings -/

namespace Spelling

theorem mem (h : Spelling entry name terminated) (hc : c ∈ name) : c ∈ entry.1.toList ∨ c = ';' := by
  cases h with
  | closed => simpa using hc
  | bare => exact .inl hc

theorem ascii (hentry : entry ∈ entityTable) (h : Spelling entry name terminated) :
    ∀ c ∈ name, c.utf8Size = 1 := by
  intro c hc
  rw [utf8Size_eq_one]
  rcases h.mem hc with hname | rfl
  · exact entityTable_ascii entry hentry c hname
  · decide

theorem terminated_iff (hentry : entry ∈ entityTable) (h : Spelling entry name terminated) :
    terminated = true ↔ name.getLast? = some ';' := by
  cases h with
  | closed => simp
  | bare =>
    have hlast : entry.1.toList.getLast? ≠ some ';' := fun hlast =>
      entityTable_no_semicolon entry hentry (List.mem_of_getLast? hlast)
    simp [hlast]

end Spelling

/-! ## Looking a spelling up -/

theorem lookupEntity?_append_semicolon (bare : List Char) : lookupEntity? (String.ofList (bare ++ [';'])) =
    (entityTable.find? (fun entry => entry.1.toList == bare)).map fun entry => entry.2.1 := by
  unfold lookupEntity?
  simp only [String.toList_ofList, List.getLast?_concat, List.dropLast_concat, beq_self_eq_true, if_true, Bool.true_or]
  cases entityTable.find? (fun entry => entry.1.toList == bare) <;> rfl

theorem lookupEntity?_of_getLast?_ne (h : name.getLast? ≠ some ';') : lookupEntity? (String.ofList name) =
    ((entityTable.find? (fun entry => entry.1.toList == name)).filter fun entry => entry.2.2).map
      fun entry => entry.2.1 := by
  unfold lookupEntity?
  simp only [String.toList_ofList, beq_eq_false_iff_ne.2 h, Bool.false_eq_true, if_false, Bool.false_or]
  generalize entityTable.find? (fun entry => entry.1.toList == name) = found
  rcases found with _ | ⟨_, _, _ | _⟩ <;> rfl

/-- Every spelling can be looked up. -/
theorem lookupEntity?_of_spelling (hentry : entry ∈ entityTable) (h : Spelling entry name terminated) :
    lookupEntity? (String.ofList name) = some entry.2.1 := by
  have hfound := find?_entityTable_eq_some_iff.2 ⟨hentry, rfl⟩
  have hlast := h.terminated_iff hentry
  cases h with
  | closed => rw [lookupEntity?_append_semicolon, hfound, Option.map_some]
  | bare hold =>
    rw [lookupEntity?_of_getLast?_ne (by simpa using hlast), hfound, Option.filter_some, if_pos hold, Option.map_some]

/-- Nothing but a spelling can be looked up. -/
theorem spelling_of_lookupEntity? (h : lookupEntity? (String.ofList name) = some replacement) :
    ∃ entry ∈ entityTable, ∃ terminated, Spelling entry name terminated := by
  by_cases hlast : name.getLast? = some ';'
  · obtain ⟨bare, rfl⟩ := List.getLast?_eq_some_iff.1 hlast
    rw [lookupEntity?_append_semicolon] at h
    obtain ⟨entry, hfound, -⟩ := Option.map_eq_some_iff.1 h
    obtain ⟨hentry, rfl⟩ := find?_entityTable_eq_some_iff.1 hfound
    exact ⟨entry, hentry, true, .closed⟩
  · rw [lookupEntity?_of_getLast?_ne hlast] at h
    obtain ⟨entry, hfound, -⟩ := Option.map_eq_some_iff.1 h
    obtain ⟨hfound, hold⟩ := Option.filter_eq_some_iff.1 hfound
    obtain ⟨hentry, rfl⟩ := find?_entityTable_eq_some_iff.1 hfound
    exact ⟨entry, hentry, false, .bare hold⟩

/-! ## Trying an entry at the start of a text -/

/-- What an entry reads is one of its spellings. -/
theorem spelling_of_entityMatch? (h : entityMatch? text entry = some m) :
    Spelling entry (text.take m.length) m.terminated ∧ entry.2.1 = m.replacement := by
  have hlength : entry.1.toList.length = entry.1.length := String.length_toList
  unfold entityMatch? at h
  split at h
  · cases h
  · rename_i rest hdrop
    obtain rfl := Option.some.inj h
    have htake : text.take (entry.1.length + 1) = entry.1.toList ++ [';'] := by
      rw [eq_append_of_dropWord? hdrop, List.append_cons, ← hlength]
      exact List.take_left' List.length_append
    exact ⟨htake ▸ .closed, rfl⟩
  · rename_i rest _ hdrop
    rw [Option.ite_none_right_eq_some] at h
    obtain ⟨hold, h⟩ := h
    obtain rfl := Option.some.inj h
    have htake : text.take entry.1.length = entry.1.toList := by
      rw [eq_append_of_dropWord? hdrop, ← hlength, List.take_left]
    exact ⟨htake ▸ .bare hold, rfl⟩

/-- A spelling that the text begins with is read, or a longer one of the same entry. -/
theorem le_entityMatch? (h : Spelling entry name terminated) (rest : List Char) :
    ∃ m, entityMatch? (name ++ rest) entry = some m ∧ name.length ≤ m.length := by
  have hlength : entry.1.toList.length = entry.1.length := String.length_toList
  cases h with
  | closed =>
    refine ⟨⟨entry.1.length + 1, entry.2.1, true⟩, ?_, ?_⟩
    · rw [← List.append_cons, entityMatch?, dropWord?_append]
      rfl
    · rw [List.length_append, hlength]
      exact Nat.le_refl _
  | bare hold =>
    rw [entityMatch?, dropWord?_append, hlength]
    -- a semicolon behind an old name is read with it
    split
    · rename_i hnone
      cases hnone
    · exact ⟨_, rfl, Nat.le_succ _⟩
    · exact ⟨_, if_pos hold, Nat.le_refl _⟩

/-! ## The longest match -/

/-- What is found at the start of a text is a spelling. -/
theorem spelling_of_longestEntity? (h : longestEntity? text = some m) :
    ∃ entry ∈ entityTable, Spelling entry (text.take m.length) m.terminated ∧ entry.2.1 = m.replacement := by
  obtain ⟨entry, hentry, hmatch⟩ := longestEntity?_mem h
  exact ⟨entry, hentry, spelling_of_entityMatch? hmatch⟩

theorem ascii_of_longestEntity? (h : longestEntity? text = some m) : ∀ c ∈ text.take m.length, c.utf8Size = 1 := by
  obtain ⟨entry, hentry, hspelling, -⟩ := spelling_of_longestEntity? h
  exact hspelling.ascii hentry

theorem le_longerMatch_left (m : EntityMatch) (found : Option EntityMatch) :
    ∃ b, longerMatch (some m) found = some b ∧ m.length ≤ b.length := by
  cases found with
  | none => exact ⟨m, rfl, Nat.le_refl _⟩
  | some m' =>
    by_cases hlt : m.length < m'.length
    · exact ⟨m', if_pos hlt, Nat.le_of_lt hlt⟩
    · exact ⟨m, if_neg hlt, Nat.le_refl _⟩

theorem le_longerMatch_right (best : Option EntityMatch) (m : EntityMatch) :
    ∃ b, longerMatch best (some m) = some b ∧ m.length ≤ b.length := by
  cases best with
  | none => exact ⟨m, rfl, Nat.le_refl _⟩
  | some m' =>
    by_cases hlt : m'.length < m.length
    · exact ⟨m, if_pos hlt, Nat.le_refl _⟩
    · exact ⟨m', if_neg hlt, Nat.le_of_not_lt hlt⟩

/-- **No match is lost but to a longer one**, in whatever order the entries are tried. -/
theorem le_foldl_longerMatch (entries : List (String × String × Bool)) (best : Option EntityMatch)
    (h : best = some m ∨ ∃ entry ∈ entries, entityMatch? text entry = some m) :
    ∃ b, entries.foldl (fun best entry => longerMatch best (entityMatch? text entry)) best = some b ∧
      m.length ≤ b.length := by
  induction entries generalizing best m with
  | nil =>
    obtain rfl | ⟨entry, hentry, -⟩ := h
    · exact ⟨m, rfl, Nat.le_refl _⟩
    · exact absurd hentry List.not_mem_nil
  | cons entry entries ih =>
    rw [List.foldl_cons]
    -- the match is the best so far or found at this entry, and then the best is not shorter, or it is still to come
    have hstep : (∃ b, longerMatch best (entityMatch? text entry) = some b ∧ m.length ≤ b.length) ∨
        ∃ later ∈ entries, entityMatch? text later = some m := by
      obtain rfl | ⟨other, hother, hmatch⟩ := h
      · exact .inl (le_longerMatch_left m _)
      · rcases List.mem_cons.1 hother with rfl | hother
        · exact .inl (hmatch ▸ le_longerMatch_right best m)
        · exact .inr ⟨other, hother, hmatch⟩
    rcases hstep with ⟨b, hb, hle⟩ | hlater
    · obtain ⟨last, hlast, hle'⟩ := ih _ (.inl hb)
      exact ⟨last, hlast, Nat.le_trans hle hle'⟩
    · exact ih _ (.inr hlater)

/-- A beginning that can be looked up is no longer than what is found. -/
theorem le_longestEntity? (hname : name <+: text) (h : lookupEntity? (String.ofList name) = some replacement) :
    ∃ m, longestEntity? text = some m ∧ byteLength name ≤ m.length := by
  obtain ⟨entry, hentry, terminated, hspelling⟩ := spelling_of_lookupEntity? h
  obtain ⟨rest, rfl⟩ := hname
  obtain ⟨m, hmatch, hle⟩ := le_entityMatch? hspelling rest
  obtain ⟨b, hb, hle'⟩ := le_foldl_longerMatch entityTable none (.inr ⟨entry, hentry, hmatch⟩)
  rw [byteLength_of_ascii (hspelling.ascii hentry)]
  exact ⟨b, hb, Nat.le_trans hle hle'⟩

namespace LongestReference

theorem le (hfound : LongestReference text found) (hname : name <+: text)
    (h : lookupEntity? (String.ofList name) = some replacement) :
    ∃ m, found = some m ∧ byteLength name ≤ m.length := by
  cases hfound with
  | absent habsent => cases (habsent name hname).symm.trans h
  | @present _ _ m _ _ _ hlonger =>
    refine ⟨m, rfl, Nat.le_of_not_lt fun hlt => ?_⟩
    cases (hlonger name hname hlt).symm.trans h

/-- A text has one longest beginning. -/
theorem unique (h : LongestReference text found) (h' : LongestReference text found') : found = found' := by
  cases h with
  | absent habsent =>
    cases h' with
    | absent => rfl
    | present hsplit' hlookup' => cases (habsent _ ⟨_, splitAt?_append hsplit'⟩).symm.trans hlookup'
  | @present name rest m hsplit hlookup hterminated hlonger =>
    obtain ⟨m', rfl, hle⟩ := h'.le ⟨rest, splitAt?_append hsplit⟩ hlookup
    rw [byteLength_of_splitAt? hsplit] at hle
    cases h' with
    | @present name' rest' _ hsplit' hlookup' hterminated' hlonger' =>
      -- the longer one of the two would be too long for the other
      have hlength : m.length = m'.length := by
        refine Nat.le_antisymm hle (Nat.le_of_not_lt fun hlt => ?_)
        rw [← byteLength_of_splitAt? hsplit'] at hlt
        cases (hlonger name' ⟨rest', splitAt?_append hsplit'⟩ hlt).symm.trans hlookup'
      obtain ⟨rfl, rfl⟩ := Prod.mk.inj (Option.some.inj (hsplit.symm.trans (hlength ▸ hsplit')))
      have hreplacement : m.replacement = m'.replacement := Option.some.inj (hlookup.symm.trans hlookup')
      have hterminated : m.terminated = m'.terminated := Bool.eq_iff_iff.2 (hterminated.trans hterminated'.symm)
      calc some m = some ⟨m.length, m.replacement, m.terminated⟩ := rfl
        _ = some m' := by rw [hlength, hreplacement, hterminated]

end LongestReference

/-- **What is found at the start of a text is the longest of its beginnings that can be looked up**, with what it stands
for there and whether it ends with a semicolon. Nothing is found only where no beginning can be looked up. -/
theorem longestEntity?_eq_iff (text : List Char) (found : Option EntityMatch) :
    longestEntity? text = found ↔ LongestReference text found := by
  have hlongest : LongestReference text (longestEntity? text) := by
    cases hfound : longestEntity? text with
    | none =>
      refine .absent fun name hname => Option.eq_none_iff_forall_ne_some.2 fun replacement hlookup => ?_
      obtain ⟨m, hm, -⟩ := le_longestEntity? hname hlookup
      cases hfound.symm.trans hm
    | some m =>
      obtain ⟨entry, hentry, hspelling, hreplacement⟩ := spelling_of_longestEntity? hfound
      have hbytes : byteLength (text.take m.length) = m.length := by
        rw [byteLength_of_ascii (hspelling.ascii hentry), List.length_take,
          Nat.min_eq_left (length_of_longestEntity? hfound).2]
      have hsplit := splitAt?_byteLength (text.take m.length) (text.drop m.length)
      rw [List.take_append_drop, hbytes] at hsplit
      have hlookup := lookupEntity?_of_spelling hentry hspelling
      rw [hreplacement] at hlookup
      refine .present hsplit hlookup (hspelling.terminated_iff hentry) fun longer hlonger hlt => ?_
      refine Option.eq_none_iff_forall_ne_some.2 fun replacement hlookup' => ?_
      obtain ⟨m', hm', hle⟩ := le_longestEntity? hlonger hlookup'
      obtain rfl := Option.some.inj (hfound.symm.trans hm')
      exact Nat.not_lt_of_le hle hlt
  exact ⟨fun h => h ▸ hlongest, hlongest.unique⟩

/-- An old name is read without its semicolon, also at the start of a longer word. -/
example : longestEntity? "notit;".toList = some ⟨3, "\u00ac", false⟩ := by cbv

end LiveMarkup.Html
