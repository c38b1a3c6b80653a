/-
Scripts that are written into their own address.

The payload of a `data:` URL writes the bytes of a text, either in Base64, which is read back (`decode?_encode`), or as
characters that stand for themselves and percent escapes between them (`Escaped`). Every payload writes bytes in one
way, and they are what it is decoded to (`escaped_iff`). So a URL loads the text whose bytes it writes and no other, in
whatever case its scheme is spelled (`load_dataUrl`).
-/
import LiveMarkup.Script.Load
import LiveMarkup.Proofs.Text.Chars

set_option autoImplicit false

namespace LiveMarkup

namespace Text

variable {b : UInt8} {bytes rest : List UInt8} {c : Char} {n : Nat} {text : String}

/-! ## The bytes of a text -/

/-- The bytes of characters, one after the other. -/
def utf8 (cs : List Char) : List UInt8 := cs.flatMap String.utf8EncodeChar

theorem toList_loop (front back done : List UInt8) :
    ByteArray.toList.loop ⟨(front ++ back).toArray⟩ front.length done = done.reverse ++ back := by
  induction back generalizing front done with
  | nil => rw [ByteArray.toList.loop, if_neg (by simp [ByteArray.size]), List.append_nil]
  | cons b back ih =>
    have hnext := ih (front ++ [b]) (b :: done)
    rw [List.append_assoc, List.length_append, List.reverse_cons, List.append_assoc] at hnext
    rw [ByteArray.toList.loop, if_pos (by simp [ByteArray.size])]
    have hget : ByteArray.get! ⟨(front ++ b :: back).toArray⟩ front.length = b := by
      simp [ByteArray.get!]
    rw [hget]
    exact hnext

theorem toList_byteArray (bytes : List UInt8) : (⟨bytes.toArray⟩ : ByteArray).toList = bytes :=
  toList_loop [] bytes []

theorem toUTF8_eq (text : String) : text.toUTF8 = ⟨(utf8 text.toList).toArray⟩ := by
  rw [String.toUTF8_eq_toByteArray, ← String.utf8Encode_toList, List.utf8Encode]
  exact ByteArray.ext List.data_toByteArray

theorem toList_toUTF8 (text : String) : text.toUTF8.toList = utf8 text.toList := by
  rw [toUTF8_eq, toList_byteArray]

/-- **Bytes are read as the text that they are the bytes of.** -/
theorem fromUTF8?_eq_some_iff : String.fromUTF8? ⟨bytes.toArray⟩ = some text ↔ bytes = text.toUTF8.toList := by
  constructor
  · intro h
    unfold String.fromUTF8? at h
    split at h
    · obtain rfl := Option.some.inj h
      exact (toList_byteArray bytes).symm
    · cases h
  · rintro rfl
    rw [toList_toUTF8, ← toUTF8_eq, String.fromUTF8?]
    exact dif_pos text.isValidUTF8

/-- The byte of an ASCII character is its code; the bytes of any other are no codes of ASCII. -/
theorem utf8EncodeChar_cases (c : Char) :
    (c.toNat ≤ 0x7f ∧ String.utf8EncodeChar c = [.ofNat c.toNat]) ∨
      (0x7f < c.toNat ∧ ∀ b ∈ String.utf8EncodeChar c, 0x7f < b.toNat) := by
  by_cases hascii : c.toNat ≤ 0x7f
  · exact .inl ⟨hascii, String.utf8EncodeChar_eq_singleton ((utf8Size_eq_one c).2 hascii)⟩
  · refine .inr ⟨by omega, ?_⟩
    have hbyte {n : Nat} (hlow : 0x7f < n) (hhigh : n < 0x100) : 0x7f < (UInt8.ofNat n).toNat := by
      rw [UInt8.toNat_ofNat_of_lt' hhigh]
      exact hlow
    rw [String.utf8EncodeChar, if_neg (show ¬ c.val.toNat ≤ 127 from hascii)]
    split
    · simp only [List.forall_mem_cons]
      exact ⟨hbyte (by omega) (by omega), hbyte (by omega) (by omega), by simp⟩
    · split
      · simp only [List.forall_mem_cons]
        exact ⟨hbyte (by omega) (by omega), hbyte (by omega) (by omega), hbyte (by omega) (by omega), by simp⟩
      · simp only [List.forall_mem_cons]
        exact ⟨hbyte (by omega) (by omega), hbyte (by omega) (by omega), hbyte (by omega) (by omega),
          hbyte (by omega) (by omega), by simp⟩

/-- Digits are ASCII characters. -/
theorem toNat_le_of_digitValue? {base : Nat} (h : digitValue? base c = some n) : c.toNat ≤ 0x7f := by
  by_contra hc
  have hle (d : Char) (hd : d.toNat ≤ 0x7f) : ¬ c ≤ d := by
    rw [Char.le_def, UInt32.le_iff_toNat_le]
    exact fun hcd => hc (Nat.le_trans hcd hd)
  have h9 := hle '9' (by decide)
  have hf := hle 'f' (by decide)
  have hF := hle 'F' (by decide)
  simp [digitValue?, h9, hf, hF] at h

/-! ## Base64 -/

namespace Base64

/-- A digit has the value that it stands for, and it is no equals sign. -/
theorem value?_digit : ∀ n < 64, value? (digit n) = some n ∧ digit n ≠ '=' := by
  decide +kernel

/-- **What is written in Base64 is read back.** -/
theorem decode?_encode (bytes : List UInt8) : decode? (encode bytes) = some bytes := by
  have hvalue (n : Nat) (hn : n < 64) : value? (digit n) = some n := (value?_digit n hn).1
  have hpad (n : Nat) (hn : n < 64) (h : digit n = '=') : False := (value?_digit n hn).2 h
  have hbyte (b : UInt8) {n : Nat} (hn : n = b.toNat) : UInt8.ofNat n = b := by rw [hn, UInt8.ofNat_toNat]
  fun_induction encode bytes with
  | case1 => rfl
  | case2 a =>
    have ha := a.toNat_lt
    rw [decode?, hvalue _ (by omega), hvalue _ (by omega)]
    simp only [Option.bind_eq_bind, Option.bind_some]
    rw [if_pos (by omega), hbyte a (by omega)]
  | case3 a b =>
    have ha := a.toNat_lt
    have hb := b.toNat_lt
    rw [decode?, hvalue _ (by omega), hvalue _ (by omega), hvalue _ (by omega)]
    · simp only [Option.bind_eq_bind, Option.bind_some]
      rw [if_pos (by omega), hbyte a (by omega), hbyte b (by omega)]
    · exact hpad _ (by omega)
  | case4 a b c rest ih =>
    have ha := a.toNat_lt
    have hb := b.toNat_lt
    have hc := c.toNat_lt
    rw [decode?, hvalue _ (by omega), hvalue _ (by omega), hvalue _ (by omega), hvalue _ (by omega), ih]
    · simp only [Option.bind_eq_bind, Option.bind_some, Option.pure_def]
      rw [hbyte a (by omega), hbyte b (by omega), hbyte c (by omega)]
    · exact fun _ h _ => hpad _ (by omega) h
    · exact fun h _ => hpad _ (by omega) h

end Base64

end Text

/-! ## Percent escapes -/

namespace Script

open Text

variable {a b : UInt8} {bytes rest : List UInt8} {c : Char} {cs : List Char} {n : Nat} {scheme text url : String}

/-- The bytes that are written with percent escapes. -/
inductive Escaped : List Char → List UInt8 → Prop
  | nil : Escaped [] []
  /-- Two hexadecimal digits behind a percent sign are a byte. -/
  | escape {a b : Char} {high low : Nat} {cs : List Char} {bytes : List UInt8} : digitValue? 16 a = some high →
      digitValue? 16 b = some low → Escaped cs bytes → Escaped ('%' :: a :: b :: cs) (.ofNat (16 * high + low) :: bytes)
  /-- Any other character is its own bytes. -/
  | literal {c : Char} {cs : List Char} {bytes : List UInt8} : c ≠ '%' → Escaped cs bytes →
      Escaped (c :: cs) (String.utf8EncodeChar c ++ bytes)
  /-- A percent sign without the two digits is its own byte. -/
  | malformed {cs : List Char} {bytes : List UInt8} :
      (∀ a b rest, cs = a :: b :: rest → isDigitOf 16 a = false ∨ isDigitOf 16 b = false) → Escaped cs bytes →
      Escaped ('%' :: cs) (0x25 :: bytes)

theorem hexValue?_ofNat (h : c.toNat ≤ 0x7f) : hexValue? (.ofNat c.toNat) = digitValue? 16 c := by
  rw [hexValue?, UInt8.toNat_ofNat_of_lt' (by omega : c.toNat < 0x100), Char.ofNat_toNat]

/-- A byte that is no code of ASCII is no digit. -/
theorem hexValue?_eq_none (h : 0x7f < b.toNat) : hexValue? b = none := by
  rw [Option.eq_none_iff_forall_ne_some]
  intro n hn
  have hle := toNat_le_of_digitValue? hn
  have hvalid : b.toNat.isValidChar := .inl (Nat.lt_trans b.toNat_lt (by decide))
  rw [Char.toNat_ofNat, if_pos hvalid] at hle
  omega

/-- A digit is one byte, and the byte has its value. -/
theorem utf8EncodeChar_of_digit (h : digitValue? 16 c = some n) :
    ∃ b, String.utf8EncodeChar c = [b] ∧ hexValue? b = some n := by
  have hascii := toNat_le_of_digitValue? h
  rcases utf8EncodeChar_cases c with ⟨-, hbytes⟩ | ⟨hlarge, -⟩
  · exact ⟨.ofNat c.toNat, hbytes, (hexValue?_ofNat hascii).trans h⟩
  · omega

/-- **The first byte of a text is a digit only if its first character is.** -/
theorem exists_digit (h : utf8 cs = b :: rest) (hb : hexValue? b = some n) :
    ∃ c tail, cs = c :: tail ∧ digitValue? 16 c = some n ∧ utf8 tail = rest := by
  cases cs with
  | nil => cases h
  | cons c tail =>
    rw [utf8, List.flatMap_cons] at h
    rcases utf8EncodeChar_cases c with ⟨hascii, hbytes⟩ | ⟨-, hlarge⟩
    · rw [hbytes] at h
      obtain ⟨rfl, htail⟩ := List.cons.inj h
      exact ⟨c, tail, rfl, (hexValue?_ofNat hascii).symm.trans hb, htail⟩
    · obtain ⟨first, others, hbytes⟩ := List.exists_cons_of_ne_nil (@String.utf8EncodeChar_ne_nil c)
      rw [hbytes] at h
      obtain ⟨rfl, -⟩ := List.cons.inj h
      rw [hexValue?_eq_none (hlarge first (by rw [hbytes]; exact List.mem_cons_self))] at hb
      cases hb

theorem percentDecode_cons (h : b ≠ 0x25) (rest : List UInt8) : percentDecode (b :: rest) = b :: percentDecode rest := by
  rw [percentDecode]
  rintro a c tail rfl
  exact absurd rfl h

theorem percentDecode_append (h : ∀ b ∈ bytes, b ≠ 0x25) (rest : List UInt8) :
    percentDecode (bytes ++ rest) = bytes ++ percentDecode rest := by
  induction bytes with
  | nil => rfl
  | cons b bytes ih =>
    obtain ⟨hb, hbytes⟩ := List.forall_mem_cons.1 h
    rw [List.cons_append, percentDecode_cons hb, ih hbytes, List.cons_append]

/-- A percent sign that is no escape is kept. -/
theorem percentDecode_malformed
    (h : ∀ a b tail, rest = a :: b :: tail → hexValue? a = none ∨ hexValue? b = none) :
    percentDecode (0x25 :: rest) = 0x25 :: percentDecode rest := by
  match rest with
  | [] => rfl
  | [a] => rfl
  | a :: b :: tail =>
    rw [percentDecode]
    rcases h a b tail rfl with hnone | hnone
    · rw [hnone]
    · rw [hnone]
      cases hexValue? a <;> rfl

/-- The byte of the percent sign is in no other character. -/
theorem ne_percent_of_mem (hc : c ≠ '%') : ∀ b ∈ String.utf8EncodeChar c, b ≠ 0x25 := by
  rcases utf8EncodeChar_cases c with ⟨hascii, hbytes⟩ | ⟨-, hlarge⟩
  · rw [hbytes, List.forall_mem_singleton]
    intro hcode
    have hnat := congrArg UInt8.toNat hcode
    rw [UInt8.toNat_ofNat_of_lt' (by omega : c.toNat < 0x100)] at hnat
    exact hc (Char.toNat_inj.1 hnat)
  · -- a byte of a character outside ASCII is above all codes of ASCII
    rintro b hb rfl
    exact absurd (hlarge _ hb) (by decide)

/-- Bytes that begin with two digits are those of a text that does. -/
theorem digits_of_utf8 (h : utf8 cs = a :: b :: rest) (ha : hexValue? a ≠ none) (hb : hexValue? b ≠ none) :
    ∃ c d tail, cs = c :: d :: tail ∧ isDigitOf 16 c = true ∧ isDigitOf 16 d = true := by
  obtain ⟨high, hhigh⟩ := Option.ne_none_iff_exists'.1 ha
  obtain ⟨low, hlow⟩ := Option.ne_none_iff_exists'.1 hb
  obtain ⟨c, tail, rfl, hc, htail⟩ := exists_digit h hhigh
  obtain ⟨d, tail, rfl, hd, -⟩ := exists_digit htail hlow
  exact ⟨c, d, tail, rfl, Option.isSome_iff_exists.2 ⟨high, hc⟩, Option.isSome_iff_exists.2 ⟨low, hd⟩⟩

/-- **What is written with escapes is what is decoded.** -/
theorem percentDecode_of_escaped (h : Escaped cs bytes) : percentDecode (utf8 cs) = bytes := by
  induction h with
  | nil => rfl
  | @escape a b high low cs bytes ha hb _ ih =>
    obtain ⟨first, hfirst, hhigh⟩ := utf8EncodeChar_of_digit ha
    obtain ⟨second, hsecond, hlow⟩ := utf8EncodeChar_of_digit hb
    have hbytes : utf8 ('%' :: a :: b :: cs) = 0x25 :: first :: second :: utf8 cs := by
      simp only [utf8, List.flatMap_cons, hfirst, hsecond]
      rfl
    rw [hbytes, percentDecode, hhigh, hlow]
    exact congrArg _ ih
  | literal hc _ ih =>
    rw [utf8, List.flatMap_cons, percentDecode_append (ne_percent_of_mem hc)]
    exact congrArg _ ih
  | @malformed cs bytes hcs _ ih =>
    have hbytes : utf8 ('%' :: cs) = 0x25 :: utf8 cs := rfl
    rw [hbytes, percentDecode_malformed, ih]
    intro a b tail htail
    by_contra! hdigits
    obtain ⟨c, d, tail, rfl, hc, hd⟩ := digits_of_utf8 htail hdigits.1 hdigits.2
    rcases hcs c d tail rfl with hnot | hnot
    · exact Bool.false_ne_true (hnot.symm.trans hc)
    · exact Bool.false_ne_true (hnot.symm.trans hd)

theorem exists_escaped : ∀ cs : List Char, ∃ bytes, Escaped cs bytes
  | [] => ⟨[], .nil⟩
  | c :: cs => by
    -- what a percent sign writes is told by the two characters behind it, so the recursion may go on after three
    by_cases hc : c = '%'
    · subst hc
      by_cases hdigits : ∃ a b rest high low, cs = a :: b :: rest ∧ digitValue? 16 a = some high ∧
          digitValue? 16 b = some low
      · obtain ⟨a, b, rest, high, low, rfl, ha, hb⟩ := hdigits
        obtain ⟨bytes, h⟩ := exists_escaped rest
        exact ⟨_, .escape ha hb h⟩
      · obtain ⟨bytes, h⟩ := exists_escaped cs
        refine ⟨_, .malformed (fun a b rest hcs => ?_) h⟩
        by_contra! hboth
        simp only [ne_eq, Bool.not_eq_false, isDigitOf, Option.isSome_iff_exists] at hboth
        obtain ⟨⟨high, ha⟩, low, hb⟩ := hboth
        exact hdigits ⟨a, b, rest, high, low, hcs, ha, hb⟩
    · obtain ⟨bytes, h⟩ := exists_escaped cs
      exact ⟨_, .literal hc h⟩
termination_by cs => cs.length

/-- **Every text writes bytes with escapes in one way**, and they are what it is decoded to. -/
theorem escaped_iff : Escaped cs bytes ↔ percentDecode (utf8 cs) = bytes := by
  refine ⟨percentDecode_of_escaped, ?_⟩
  rintro rfl
  obtain ⟨bytes, h⟩ := exists_escaped cs
  rwa [percentDecode_of_escaped h]

/-! ## Addresses -/

/-- A name that is `data` in lower case has its four characters, none of them a colon or a comma. -/
theorem data_of_toLower (hscheme : scheme.toLower = "data") :
    scheme.toList.length = 4 ∧ ':' ∉ scheme.toList ∧ ',' ∉ scheme.toList := by
  have hlower : scheme.toList.map Char.toLower = "data".toList := by
    rw [← hscheme, String.toLower]
    exact String.toList_map.symm
  have hnot {c : Char} (hc : c.toLower ∉ "data".toList) : c ∉ scheme.toList :=
    fun hmem => hc (hlower ▸ List.mem_map_of_mem hmem)
  refine ⟨?_, hnot (by decide), hnot (by decide)⟩
  rw [← List.length_map Char.toLower, hlower]
  rfl

/-- A text is parted at the first place of a character. -/
theorem span_ne_append {front : List Char} (h : c ∉ front) (rest : List Char) :
    (front ++ c :: rest).span (· ≠ c) = (front, c :: rest) := by
  have hfront : ∀ d ∈ front, decide (d ≠ c) = true := by
    intro d hd
    rw [decide_eq_true_eq]
    rintro rfl
    exact h hd
  rw [List.span_eq_takeWhile_dropWhile, List.takeWhile_append_of_pos hfront, List.dropWhile_append_of_pos hfront]
  simp

theorem schemeOf_append (hscheme : ':' ∉ scheme.toList) (rest : String) :
    schemeOf (scheme ++ ":" ++ rest) = scheme.toLower := by
  have hlist : (scheme ++ ":" ++ rest).toList = scheme.toList ++ ':' :: rest.toList := by simp
  have hspan := span_ne_append hscheme rest.toList
  rw [List.span_eq_takeWhile_dropWhile] at hspan
  rw [schemeOf, hlist, if_pos (by simp), (Prod.mk.inj hspan).1, String.ofList_toList]

/-- A word without a colon ends a text with a colon in it only if it ends what stands behind the colon. -/
theorem isSuffix_behind_colon {word front back : List Char} (hword : ':' ∉ word) :
    word <:+ front ++ ':' :: back ↔ word <:+ back := by
  constructor
  · intro h
    rcases List.suffix_or_suffix_of_suffix h (List.suffix_append front (':' :: back)) with hshort | hlong
    · rcases List.suffix_cons_iff.1 hshort with rfl | hback
      · exact absurd List.mem_cons_self hword
      · exact hback
    · exact absurd (hlong.mem List.mem_cons_self) hword
  · exact fun h => h.trans ((List.suffix_cons ':' back).trans (List.suffix_append front (':' :: back)))

/-- **A `data:` URL is parted at its first comma.** The scheme can be left in the description, but how the resource is
written is told by what stands behind the scheme. -/
theorem parse?_dataUrl {description : String} (hscheme : scheme.toLower = "data") (hcomma : ',' ∉ description.toList)
    (payload : String) :
    ∃ u, DataUrl.parse? (scheme ++ ":" ++ description ++ "," ++ payload) = some u ∧ u.payload = payload.toList ∧
      (u.isBase64 = true ↔ ";base64".toList <:+ description.toList) := by
  -- the scheme is cut off only if it is in lower case; otherwise the description begins with it
  obtain ⟨hlength, -, hfirst⟩ := data_of_toLower hscheme
  have hlist : (scheme ++ ":" ++ description ++ "," ++ payload).toList =
      scheme.toList ++ ':' :: (description.toList ++ ',' :: payload.toList) := by simp
  rw [DataUrl.parse?, hlist]
  by_cases hlower : "data:".toList.isPrefixOf (scheme.toList ++ ':' :: (description.toList ++ ',' :: payload.toList)) = true
  · have hbody : (scheme.toList ++ ':' :: (description.toList ++ ',' :: payload.toList)).drop 5 =
        description.toList ++ ',' :: payload.toList := by
      rw [List.append_cons]
      exact List.drop_left' (by rw [List.length_append, hlength, List.length_singleton])
    rw [if_pos hlower, hbody, span_ne_append hcomma]
    exact ⟨_, rfl, rfl, List.isSuffixOf_iff_suffix⟩
  · have hbody : scheme.toList ++ ':' :: (description.toList ++ ',' :: payload.toList) =
        (scheme.toList ++ ':' :: description.toList) ++ ',' :: payload.toList := by simp
    have hnone : ',' ∉ scheme.toList ++ ':' :: description.toList := by simp [hfirst, hcomma]
    rw [if_neg hlower, hbody, span_ne_append hnone]
    exact ⟨_, rfl, rfl, List.isSuffixOf_iff_suffix.trans (isSuffix_behind_colon (by decide))⟩

/-- **A `data:` URL loads the text whose bytes it writes**, if it writes any. -/
theorem load_eq_ok_iff (hscheme : schemeOf url = "data") :
    load url = .ok text ↔ ∃ u, DataUrl.parse? url = some u ∧ u.decode? = some text.toUTF8.toList := by
  rw [load, if_pos hscheme]
  cases DataUrl.parse? url with
  | none => simp
  | some u =>
    simp only [Option.some.injEq, exists_eq_left']
    cases u.decode? with
    | none => simp
    | some bytes =>
      rw [Option.some.injEq, ← fromUTF8?_eq_some_iff]
      cases htext : String.fromUTF8? ⟨bytes.toArray⟩ with
      | none => simp [htext]
      | some other => simp [htext, pure, Except.pure]

/-- The payload of a URL is in Base64 or written with escapes, as the end of the description tells. -/
theorem load_dataUrl_iff {description payload : String} (hscheme : scheme.toLower = "data")
    (hcomma : ',' ∉ description.toList) :
    load (scheme ++ ":" ++ description ++ "," ++ payload) = .ok text ↔
      (";base64".toList <:+ description.toList ∧ Base64.decode? payload.toList = some text.toUTF8.toList) ∨
        (¬ ";base64".toList <:+ description.toList ∧ Escaped payload.toList text.toUTF8.toList) := by
  obtain ⟨u, hparse, hpayload, hbase64⟩ := parse?_dataUrl hscheme hcomma payload
  have hurl : schemeOf (scheme ++ ":" ++ description ++ "," ++ payload) = "data" := by
    have hfirst := schemeOf_append (data_of_toLower hscheme).2.1 (description ++ "," ++ payload)
    rw [← String.append_assoc, ← String.append_assoc] at hfirst
    exact hfirst.trans hscheme
  rw [load_eq_ok_iff hurl, hparse]
  simp only [Option.some.injEq, exists_eq_left', DataUrl.decode?, hpayload]
  by_cases hend : ";base64".toList <:+ description.toList
  · simp only [hbase64.2 hend, hend, if_true, true_and, not_true_eq_false, false_and, or_false]
  · rw [if_neg (mt hbase64.1 hend), String.ofList_toList, toList_toUTF8 payload, Option.some.injEq, ← escaped_iff]
    simp only [hend, false_and, not_false_eq_true, true_and, false_or]

/-- **A `data:` URL decodes to the text it encodes**, in whatever case its scheme is spelled. A payload that is not in
Base64 is loaded as the text whose bytes it writes with escapes, and as nothing else. -/
theorem load_dataUrl {description : String} (hscheme : scheme.toLower = "data") (hcomma : ',' ∉ description.toList)
    (text : String) :
    (¬ ";base64".toList <:+ description.toList → ∀ payload : String,
      load (scheme ++ ":" ++ description ++ "," ++ payload) = .ok text ↔ Escaped payload.toList text.toUTF8.toList) ∧
    load (scheme ++ ":" ++ description ++ ";base64," ++ String.ofList (Base64.encode text.toUTF8.toList)) = .ok text := by
  constructor
  · intro hplain payload
    rw [load_dataUrl_iff hscheme hcomma]
    simp only [hplain, false_and, not_false_eq_true, true_and, false_or]
  · have hend : ";base64".toList <:+ (description ++ ";base64").toList := by
      rw [String.toList_append]
      exact List.suffix_append ..
    have hcomma' : ',' ∉ (description ++ ";base64").toList := by simp [hcomma]
    have hload := (@load_dataUrl_iff _ text _ (String.ofList (Base64.encode text.toUTF8.toList)) hscheme hcomma').2
      (.inl ⟨hend, by rw [String.toList_ofList, Base64.decode?_encode]⟩)
    have hurl : scheme ++ ":" ++ (description ++ ";base64") ++ "," = scheme ++ ":" ++ description ++ ";base64," := by
      simp only [String.append_assoc]
      rfl
    rwa [hurl] at hload

/-- A payload of letters, escapes and percent signs that are no escapes, with the same text in Base64. -/
theorem load_dataUrl_of_mixed :
    ("DaTa".toLower = "data" ∧ ',' ∉ "text/plain;charset=utf-8".toList ∧
        ¬ ";base64".toList <:+ "text/plain;charset=utf-8".toList) ∧
      load "DaTa:text/plain;charset=utf-8,é%C3%a9%2C%g%" = .ok "éé,%g%" ∧
      load "DaTa:text/plain;charset=utf-8;base64,w6nDqSwlZyU=" = .ok "éé,%g%" := by
  have hscheme : "DaTa".toLower = "data" := by decide +kernel
  have hcomma : ',' ∉ "text/plain;charset=utf-8".toList := by decide
  have hplain : ¬ ";base64".toList <:+ "text/plain;charset=utf-8".toList := by decide
  have hescaped : Escaped "é%C3%a9%2C%g%".toList "éé,%g%".toUTF8.toList := by
    rw [escaped_iff, toList_toUTF8]
    decide +kernel
  have hdigits : String.ofList (Base64.encode "éé,%g%".toUTF8.toList) = "w6nDqSwlZyU=" := by
    rw [toList_toUTF8]
    decide +kernel
  obtain ⟨hload, hbase64⟩ := load_dataUrl hscheme hcomma "éé,%g%"
  rw [hdigits] at hbase64
  exact ⟨⟨hscheme, hcomma, hplain⟩, (hload hplain "é%C3%a9%2C%g%").2 hescaped, hbase64⟩

end Script

end LiveMarkup
