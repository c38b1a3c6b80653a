/-
What is written as JSON is read again.

A value of texts and flags that is written without white space is read back, whatever follows it. Strings are the
heart of it: a character is written as it is or as an escape, and either is read as one code point, and since no
character is a surrogate the code points are never joined. Values are nested, so the main fact `takeValue_write` is
proved for values, items and members at once; the budget of steps that the reader gives itself is enough.
-/
import LiveMarkup.Json.Fields
import LiveMarkup.Json.Parse
import LiveMarkup.Json.Print

set_option autoImplicit false

namespace LiveMarkup.Json

open Text

/-! ## Strings -/

theorem hex4?_hexDigit : ∀ n < 0x20, hex4? '0' '0' (hexDigit (n / 16)) (hexDigit (n % 16)) = some n := by
  decide

/-- A character that needs no escape is read as it is. -/
theorem takeCodes_plain {c : Char} (hquote : c ≠ '"') (hslash : c ≠ '\\') (hcontrol : ¬ c.toNat < 0x20)
    (cs : List Char) : takeCodes (c :: cs) = (takeCodes cs).map fun (codes, rest) => (c.toNat :: codes, rest) := by
  rw [takeCodes.eq_4 c cs hquote (fun _ _ _ _ _ h _ => hslash h) (fun _ _ h _ => hslash h)]
  rw [if_neg (not_or.2 ⟨hcontrol, hslash⟩)]
  cases takeCodes cs <;> rfl

/-- A written character is read as its code point. -/
theorem takeCodes_writeChar (c : Char) (cs : List Char) :
    takeCodes (writeChar c ++ cs) = (takeCodes cs).map fun (codes, rest) => (c.toNat :: codes, rest) := by
  unfold writeChar
  split
  case h_8 hquote hslash _ _ _ _ _ =>
    split
    · rename_i hcontrol
      rw [List.cons_append, List.cons_append, List.cons_append, List.cons_append, List.cons_append,
        List.cons_append, List.nil_append, takeCodes, hex4?_hexDigit _ hcontrol]
      cases takeCodes cs <;> rfl
    · rename_i hcontrol
      exact takeCodes_plain hquote hslash hcontrol cs
  all_goals
    rw [List.cons_append, List.cons_append, List.nil_append, takeCodes.eq_3 _ _ (by simp)]
    cases takeCodes cs <;> rfl

theorem takeCodes_written (text : List Char) (cs : List Char) :
    takeCodes (text.flatMap writeChar ++ '"' :: cs) = some (text.map Char.toNat, cs) := by
  induction text with
  | nil => rw [List.flatMap_nil, List.nil_append, takeCodes, List.map_nil]
  | cons c text ih => rw [List.flatMap_cons, List.append_assoc, takeCodes_writeChar, ih]; rfl

theorem char?_toNat (c : Char) : char? c.toNat = some c := by
  have hvalid : c.toNat.isValidChar := c.valid
  rw [char?, if_pos hvalid, Char.ofNat_toNat]

/-- Code points of characters stand for these characters: none of them is a surrogate. -/
theorem textOfCodes_toNat (text : List Char) : textOfCodes (text.map Char.toNat) = some text := by
  induction text with
  | nil => rfl
  | cons c text ih =>
    cases text with
    | nil => rw [List.map_cons, List.map_nil, textOfCodes, char?_toNat]; rfl
    | cons d text =>
      have hvalid : c.toNat < 0xd800 ∨ 0xdfff < c.toNat ∧ c.toNat < 0x110000 := c.valid
      have hsurrogate : ¬ (0xd800 ≤ c.toNat ∧ c.toNat < 0xdc00) := by omega
      rw [List.map_cons] at ih
      rw [List.map_cons, List.map_cons, textOfCodes, if_neg hsurrogate, char?_toNat, ih]
      rfl

/-- A written string is read back. -/
theorem takeText_written (text : String) (cs : List Char) :
    takeText (text.toList.flatMap writeChar ++ '"' :: cs) = some (some text, cs) := by
  rw [takeText, takeCodes_written, Option.map_some]
  simp only [textOfCodes_toNat, Option.map_some, String.ofList_toList]

/-! ## Values -/

mutual

/-- Whether a value has no numbers, and all its strings and names stand for texts. -/
def isPlain : Json → Bool
  | .number _ | .brokenString | .brokenObject => false
  | .array items => allPlain items
  | .object members => allMembersPlain members
  | .null | .bool _ | .string _ => true

/-- Whether all items are plain. -/
def allPlain : List Json → Bool
  | [] => true
  | j :: rest => j.isPlain && allPlain rest

/-- Whether the values of all members are plain. -/
def allMembersPlain : List (String × Json) → Bool
  | [] => true
  | (_, j) :: rest => j.isPlain && allMembersPlain rest

end

mutual

/-- A plain value can be read. -/
theorem isReadable_of_isPlain : ∀ j : Json, j.isPlain = true → j.isReadable = true
  | .null, _ | .bool _, _ | .string _, _ => rfl
  | .number _, h | .brokenString, h | .brokenObject, h => absurd h nofun
  | .array items, h => allReadable_of_allPlain items h
  | .object members, h => allMembersReadable_of_allMembersPlain members h

theorem allReadable_of_allPlain : ∀ items : List Json, allPlain items = true → allReadable items = true
  | [], _ => rfl
  | j :: rest, h => by
    obtain ⟨hj, hrest⟩ := Bool.and_eq_true_iff.1 h
    exact Bool.and_eq_true_iff.2 ⟨isReadable_of_isPlain j hj, allReadable_of_allPlain rest hrest⟩

theorem allMembersReadable_of_allMembersPlain :
    ∀ members : List (String × Json), allMembersPlain members = true → allMembersReadable members = true
  | [], _ => rfl
  | (_, j) :: rest, h => by
    obtain ⟨hj, hrest⟩ := Bool.and_eq_true_iff.1 h
    exact Bool.and_eq_true_iff.2 ⟨isReadable_of_isPlain j hj, allMembersReadable_of_allMembersPlain rest hrest⟩

end

/-- A plain value starts with a character that is neither white space nor the end of an array. -/
theorem write_of_isPlain {j : Json} (h : j.isPlain = true) :
    ∃ c cs, j.write = c :: cs ∧ isSpace c = false ∧ c ≠ ']' := by
  cases j with
  | null => exact ⟨_, _, rfl, rfl, by decide⟩
  | bool b => cases b <;> exact ⟨_, _, rfl, rfl, by decide⟩
  | string text => exact ⟨_, _, rfl, rfl, by decide⟩
  | array items => cases items <;> exact ⟨_, _, rfl, rfl, by decide⟩
  | object members => cases members <;> exact ⟨_, _, rfl, rfl, by decide⟩
  | number n => exact absurd h nofun
  | brokenString => exact absurd h nofun
  | brokenObject => exact absurd h nofun

theorem skipSpace_of_not {c : Char} (h : isSpace c = false) (cs : List Char) : skipSpace (c :: cs) = c :: cs := by
  rw [skipSpace, List.dropWhile_cons, h]
  rfl

theorem takeValue_quote (fuel : Nat) (cs : List Char) : takeValue (fuel + 1) ('"' :: cs) = takeString cs := rfl

/-- What follows an opening bracket and is not the closing one are items. -/
theorem takeValue_bracket {fuel : Nat} {c : Char} {cs : List Char} (hspace : isSpace c = false) (hend : c ≠ ']') :
    takeValue (fuel + 1) ('[' :: c :: cs) =
      (takeItems fuel (c :: cs)).map fun (items, rest) => (.array items, rest) := by
  have hopen : skipSpace ('[' :: c :: cs) = '[' :: c :: cs := skipSpace_of_not rfl _
  simp [takeValue, hopen, skipSpace_of_not hspace, hend]

/-- What follows an opening brace and is a name are members. -/
theorem takeValue_brace (fuel : Nat) (cs : List Char) :
    takeValue (fuel + 1) ('\x7b' :: '"' :: cs) = (takeMembers fuel ('"' :: cs)).map fun (members, rest) =>
      ((namedMembers? members).elim .brokenObject .object, rest) := rfl

theorem namedMembers?_named (members : List (String × Json)) :
    namedMembers? (members.map fun (name, value) => (some name, value)) = some members := by
  induction members with
  | nil => rfl
  | cons member members ih =>
    rw [namedMembers?] at ih ⊢
    rw [List.map_cons, List.mapM_cons, ih]
    rfl

theorem write_array_cons (item : Json) (items : List Json) :
    (Json.array (item :: items)).write = '[' :: (item.write ++ writeItems items) := by
  rw [write, List.cons_append]

theorem write_object_cons (name : String) (value : Json) (members : List (String × Json)) :
    (Json.object ((name, value) :: members)).write = '\x7b' :: '"' ::
      (name.toList.flatMap writeChar ++ '"' :: ':' :: (value.write ++ writeMembers members)) := by
  simp [write, writeString]

theorem writeMembers_cons (name : String) (value : Json) (members : List (String × Json)) :
    writeMembers ((name, value) :: members) = ',' :: '"' ::
      (name.toList.flatMap writeChar ++ '"' :: ':' :: (value.write ++ writeMembers members)) := by
  simp [writeMembers, writeString]

/-- An item is followed by the end of the array, or by a comma and the next item. -/
theorem writeItems_cases (items : List Json) :
    (items = [] ∧ writeItems items = [']']) ∨ ∃ written, writeItems items = ',' :: written := by
  cases items with
  | nil => exact .inl ⟨rfl, rfl⟩
  | cons item items => exact .inr ⟨_, rfl⟩

/-- A member is followed by the end of the object, or by a comma and the next member. -/
theorem writeMembers_cases (members : List (String × Json)) :
    (members = [] ∧ writeMembers members = ['\x7d']) ∨ ∃ written, writeMembers members = ',' :: written := by
  cases members with
  | nil => exact .inl ⟨rfl, rfl⟩
  | cons member members => exact .inr ⟨_, rfl⟩

mutual

/-- **A plain value that was written is read back**, whatever follows it. -/
theorem takeValue_write : ∀ j : Json, j.isPlain = true → ∀ (fuel : Nat) (rest : List Char),
    2 * j.write.length ≤ fuel → takeValue fuel (j.write ++ rest) = some (j, rest)
  | j, h, 0, _, hfuel => by
    obtain ⟨c, cs, hwrite, -⟩ := write_of_isPlain h
    rw [hwrite, List.length_cons] at hfuel
    omega
  | .null, _, _ + 1, _, _ => rfl
  | .bool true, _, _ + 1, _, _ | .bool false, _, _ + 1, _, _ => rfl
  | .number _, h, _ + 1, _, _ | .brokenString, h, _ + 1, _, _ | .brokenObject, h, _ + 1, _, _ => absurd h nofun
  | .string text, _, fuel + 1, rest, _ => by
    have hwrite : (Json.string text).write ++ rest = '"' :: (text.toList.flatMap writeChar ++ '"' :: rest) := by
      rw [write, writeString, List.cons_append, List.cons_append, List.append_assoc]
      rfl
    rw [hwrite, takeValue_quote, takeString, takeText_written]
    rfl
  | .array [], _, _ + 1, _, _ => rfl
  | .array (item :: items), h, fuel + 1, rest, hfuel => by
    rw [write_array_cons, List.length_cons] at hfuel
    have hitems := takeItems_write (item :: items) h fuel (item.write ++ writeItems items) rest
      (by rw [writeItems, List.cons_append]) (by omega)
    obtain ⟨c, written, hwritten, hspace, hend⟩ := write_of_isPlain (Bool.and_eq_true_iff.1 h).1
    rw [hwritten, List.cons_append, List.cons_append] at hitems
    rw [write_array_cons, hwritten, List.cons_append, List.cons_append, List.cons_append,
      takeValue_bracket hspace hend, hitems]
    rfl
  | .object [], _, _ + 1, _, _ => rfl
  | .object ((name, value) :: members), h, fuel + 1, rest, hfuel => by
    rw [write_object_cons, List.length_cons] at hfuel
    have hmembers := takeMembers_write ((name, value) :: members) h fuel _ rest (writeMembers_cons ..) (by omega)
    rw [List.cons_append] at hmembers
    rw [write_object_cons, List.cons_append, List.cons_append, takeValue_brace, hmembers, Option.map_some]
    dsimp only
    rw [namedMembers?_named]
    rfl

/-- The items of an array that were written are read back. -/
theorem takeItems_write : ∀ items : List Json, allPlain items = true → ∀ (fuel : Nat) (written rest : List Char),
    writeItems items = ',' :: written → 2 * written.length + 1 ≤ fuel →
      takeItems fuel (written ++ rest) = some (items, rest)
  | [], _, _, _, _, hwritten, _ => absurd (List.cons.inj hwritten).1 (by decide)
  | _ :: _, _, 0, _, _, _, hfuel => absurd hfuel (Nat.not_succ_le_zero _)
  | item :: items, h, fuel + 1, written, rest, hwritten, hfuel => by
    obtain ⟨hitem, hitems⟩ := Bool.and_eq_true_iff.1 h
    rw [writeItems, List.cons_append] at hwritten
    obtain rfl := (List.cons.inj hwritten).2
    rw [List.length_append] at hfuel
    rw [takeItems, List.append_assoc, takeValue_write item hitem fuel _ (by omega)]
    rcases writeItems_cases items with ⟨rfl, hend⟩ | ⟨next, hnext⟩
    · rw [hend]
      rfl
    · rw [hnext, List.length_cons] at hfuel
      have hrest := takeItems_write items hitems fuel next rest hnext (by omega)
      rw [hnext, List.cons_append]
      change (takeItems fuel (next ++ rest)).bind _ = _
      rw [hrest]
      rfl

/-- The members of an object that were written are read back. -/
theorem takeMembers_write : ∀ members : List (String × Json), allMembersPlain members = true →
    ∀ (fuel : Nat) (written rest : List Char),
    writeMembers members = ',' :: written → 2 * written.length + 1 ≤ fuel →
      takeMembers fuel (written ++ rest) = some (members.map fun (name, value) => (some name, value), rest)
  | [], _, _, _, _, hwritten, _ => absurd (List.cons.inj hwritten).1 (by decide)
  | _ :: _, _, 0, _, _, _, hfuel => absurd hfuel (Nat.not_succ_le_zero _)
  | (name, value) :: members, h, fuel + 1, written, rest, hwritten, hfuel => by
    obtain ⟨hvalue, hmembers⟩ := Bool.and_eq_true_iff.1 h
    rw [writeMembers_cons] at hwritten
    obtain rfl := (List.cons.inj hwritten).2
    simp only [List.length_cons, List.length_append] at hfuel
    have htext : takeText (name.toList.flatMap writeChar ++ '"' :: ':' :: (value.write ++ writeMembers members) ++
        rest) = some (some name, ':' :: (value.write ++ (writeMembers members ++ rest))) := by
      rw [List.append_assoc, List.cons_append, List.cons_append, List.append_assoc, takeText_written]
    rw [List.cons_append, takeMembers, skipSpace_of_not rfl]
    change (takeText _).bind _ = _
    rw [htext]
    change (takeValue fuel (value.write ++ (writeMembers members ++ rest))).bind _ = _
    rw [takeValue_write value hvalue fuel _ (by omega)]
    rcases writeMembers_cases members with ⟨rfl, hend⟩ | ⟨next, hnext⟩
    · rw [hend]
      rfl
    · rw [hnext, List.length_cons] at hfuel
      have hrest := takeMembers_write members hmembers fuel next rest hnext (by omega)
      rw [hnext, List.cons_append]
      change (takeMembers fuel (next ++ rest)).bind _ = _
      rw [hrest]
      rfl

end

/-- **A plain value is read back from its text.** -/
theorem parse?_compact {j : Json} (h : j.isPlain = true) : parse? j.compact = some j := by
  have hvalue := takeValue_write j h (2 * j.write.length + 2) [] (by omega)
  rw [List.append_nil] at hvalue
  rw [parse?, compact, String.toList_ofList]
  change (takeValue _ j.write).bind _ = _
  rw [hvalue]
  rfl

/-! ## Records -/

/-- A member is found by its name when no other member has it. -/
theorem filter_name {members : List (String × Json)} (h : (members.map (·.1)).Nodup) (name : String) :
    (members.filter fun (n, _) => n == name) = ((members.lookup name).map fun value => (name, value)).toList := by
  induction members with
  | nil => rfl
  | cons member members ih =>
    obtain ⟨n, value⟩ := member
    obtain ⟨hfresh, hrest⟩ := List.nodup_cons.1 h
    by_cases hn : n = name
    · subst hn
      -- no later member has the name
      have hnone : (members.filter fun (m, _) => m == n) = [] := by
        refine List.filter_eq_nil_iff.2 fun m hm heq => hfresh ?_
        exact List.mem_map.2 ⟨m, hm, beq_iff_eq.1 heq⟩
      rw [List.filter_cons_of_pos (by exact beq_self_eq_true n), hnone, List.lookup_cons_self]
      rfl
    · rw [List.filter_cons_of_neg (by simpa using hn), ih hrest, List.lookup_cons,
        beq_eq_false_iff_ne.2 (Ne.symm hn)]

/-- The fields of an object whose members have different names. -/
theorem fields?_object {members : List (String × Json)} (h : (members.map (·.1)).Nodup) (names : List String) :
    (Json.object members).fields? names = some (names.map fun name => members.lookup name) := by
  induction names with
  | nil => rfl
  | cons name names ih =>
    rw [fields?] at ih ⊢
    rw [List.mapM_cons, filter_name h, ih, List.map_cons]
    cases members.lookup name <;> rfl

end LiveMarkup.Json
