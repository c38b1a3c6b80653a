/-
Named character references.

Edited text uses a few dozen of the names that the standard lists; the table here holds those, and an
unknown name is left in the text as it stands. Most names need a closing semicolon. Some old ones are
also read without it, and then the longest name wins: a text is read by the longest spelling that it
begins with.
-/
import LiveMarkup.Text.Words

set_option autoImplicit false

namespace LiveMarkup.Html

open Text

/-- The names of characters, without ampersand and semicolon, with the text that each stands for, and
whether the name is also read without its semicolon. -/
def entityTable : List (String × String × Bool) :=
  [("AElig", "\u00c6", true), ("Aacute", "\u00c1", true), ("Agrave", "\u00c0", true),
   ("Alpha", "\u0391", false), ("Aring", "\u00c5", true), ("Auml", "\u00c4", true),
   ("Beta", "\u0392", false), ("Ccedil", "\u00c7", true), ("Delta", "\u0394", false),
   ("Eacute", "\u00c9", true), ("Gamma", "\u0393", false), ("Lambda", "\u039b", false),
   ("Ntilde", "\u00d1", true), ("Oacute", "\u00d3", true), ("Omega", "\u03a9", false),
   ("Ouml", "\u00d6", true), ("Pi", "\u03a0", false), ("Sigma", "\u03a3", false),
   ("Uuml", "\u00dc", true), ("aacute", "\u00e1", true), ("acute", "\u00b4", true),
   ("aelig", "\u00e6", true), ("agrave", "\u00e0", true), ("alpha", "\u03b1", false),
   ("amp", "&", true), ("apos", "'", false), ("aring", "\u00e5", true), ("auml", "\u00e4", true),
   ("beta", "\u03b2", false), ("brvbar", "\u00a6", true), ("bull", "\u2022", false),
   ("ccedil", "\u00e7", true), ("cedil", "\u00b8", true), ("cent", "\u00a2", true),
   ("check", "\u2713", false), ("copy", "\u00a9", true), ("curren", "\u00a4", true),
   ("dagger", "\u2020", false), ("darr", "\u2193", false), ("deg", "\u00b0", true),
   ("delta", "\u03b4", false), ("divide", "\u00f7", true), ("eacute", "\u00e9", true),
   ("ecirc", "\u00ea", true), ("egrave", "\u00e8", true), ("emsp", "\u2003", false),
   ("ensp", "\u2002", false), ("epsilon", "\u03b5", false), ("euml", "\u00eb", true),
   ("euro", "\u20ac", false), ("frac12", "\u00bd", true), ("frac14", "\u00bc", true),
   ("frac34", "\u00be", true), ("gamma", "\u03b3", false), ("ge", "\u2265", false), ("gt", ">", true),
   ("harr", "\u2194", false), ("hearts", "\u2665", false), ("hellip", "\u2026", false),
   ("iacute", "\u00ed", true), ("iexcl", "\u00a1", true), ("infin", "\u221e", false),
   ("iquest", "\u00bf", true), ("iuml", "\u00ef", true), ("lambda", "\u03bb", false),
   ("laquo", "\u00ab", true), ("larr", "\u2190", false), ("ldquo", "\u201c", false),
   ("le", "\u2264", false), ("lsaquo", "\u2039", false), ("lsquo", "\u2018", false),
   ("lt", "<", true), ("macr", "\u00af", true), ("mdash", "\u2014", false), ("micro", "\u00b5", true),
   ("middot", "\u00b7", true), ("minus", "\u2212", false), ("mu", "\u03bc", false),
   ("nbsp", "\u00a0", true), ("ndash", "\u2013", false), ("ne", "\u2260", false),
   ("not", "\u00ac", true), ("ntilde", "\u00f1", true), ("oacute", "\u00f3", true),
   ("omega", "\u03c9", false), ("ordf", "\u00aa", true), ("ordm", "\u00ba", true),
   ("ouml", "\u00f6", true), ("para", "\u00b6", true), ("pi", "\u03c0", false),
   ("plusmn", "\u00b1", true), ("pound", "\u00a3", true), ("quot", "\"", true),
   ("raquo", "\u00bb", true), ("rarr", "\u2192", false), ("rdquo", "\u201d", false),
   ("reg", "\u00ae", true), ("rsaquo", "\u203a", false), ("rsquo", "\u2019", false),
   ("sect", "\u00a7", true), ("shy", "\u00ad", true), ("sigma", "\u03c3", false),
   ("sup1", "\u00b9", true), ("sup2", "\u00b2", true), ("sup3", "\u00b3", true),
   ("szlig", "\u00df", true), ("theta", "\u03b8", false), ("thinsp", "\u2009", false),
   ("times", "\u00d7", true), ("trade", "\u2122", false), ("uacute", "\u00fa", true),
   ("uarr", "\u2191", false), ("uuml", "\u00fc", true), ("yen", "\u00a5", true),
   ("zwj", "\u200d", false), ("zwnj", "\u200c", false)]

/-- A named reference at the start of a text. -/
structure EntityMatch where
  /-- The length of the name in the text, with the semicolon when there is one. -/
  length : Nat
  /-- The text that the reference stands for. -/
  replacement : String
  /-- Whether the reference ends with its semicolon. -/
  terminated : Bool
deriving DecidableEq, Repr

/-- How one entry of the table reads the start of a text. -/
def entityMatch? (text : List Char) (entry : String × String × Bool) : Option EntityMatch :=
  match dropWord? entry.1.toList text with
  | none => none
  | some (';' :: _) => some ⟨entry.1.length + 1, entry.2.1, true⟩
  | some _ => if entry.2.2 then some ⟨entry.1.length, entry.2.1, false⟩ else none

/-- The longer of two matches; the first when they are equally long. -/
def longerMatch (best : Option EntityMatch) (found : Option EntityMatch) : Option EntityMatch :=
  match best, found with
  | none, found => found
  | best, none => best
  | some best, some found => if best.length < found.length then some found else some best

/-- The longest named reference at the start of the text that follows an ampersand. -/
def longestEntity? (text : List Char) : Option EntityMatch :=
  entityTable.foldl (fun best entry => longerMatch best (entityMatch? text entry)) none

/-- The text that a name stands for, the name being given without its ampersand and with or without
its semicolon. -/
def lookupEntity? (name : String) : Option String :=
  let cs := name.toList
  let closed := cs.getLast? == some ';'
  let bare := if closed then cs.dropLast else cs
  match entityTable.find? (fun entry => entry.1.toList == bare) with
  | none => none
  | some (_, replacement, legacy) => if closed || legacy then some replacement else none

/-- Every name of the table has a character. -/
theorem entityTable_name_pos : ∀ entry ∈ entityTable, 0 < entry.1.length := by decide +kernel

/-- A match covers part of the text, and not nothing. -/
theorem length_of_entityMatch? {text : List Char} {entry : String × String × Bool} {m : EntityMatch}
    (name_pos : 0 < entry.1.length) (h : entityMatch? text entry = some m) :
    0 < m.length ∧ m.length ≤ text.length := by
  have hlen : entry.1.toList.length = entry.1.length := String.length_toList
  unfold entityMatch? at h
  split at h
  · simp at h
  · rename_i hd
    have hd := length_of_dropWord? hd
    simp only [List.length_cons] at hd
    obtain rfl := Option.some.inj h
    simp only
    omega
  · rename_i hd
    have hd := length_of_dropWord? hd
    simp only [Option.ite_none_right_eq_some, Option.some.injEq] at h
    obtain ⟨_, rfl⟩ := h
    simp only
    omega

/-- The longer of two matches is one of them. -/
theorem longerMatch_eq (best found : Option EntityMatch) :
    longerMatch best found = best ∨ longerMatch best found = found := by
  unfold longerMatch
  split
  · exact .inr rfl
  · exact .inl rfl
  · split
    · exact .inr rfl
    · exact .inl rfl

/-- What a longest reference is: one of the matches in the table. -/
theorem longestEntity?_mem {text : List Char} {found : EntityMatch} (h : longestEntity? text = some found) :
    ∃ entry ∈ entityTable, entityMatch? text entry = some found := by
  have fold : ∀ (entries : List (String × String × Bool)) (best : Option EntityMatch),
      entries.foldl (fun best entry => longerMatch best (entityMatch? text entry)) best = some found →
      best = some found ∨ ∃ entry ∈ entries, entityMatch? text entry = some found := by
    intro entries
    -- the best match so far is kept or replaced by a later one, so it always is one of the entries
    induction entries with
    | nil => intro best hb; exact .inl hb
    | cons entry entries ih =>
      intro best hb
      rcases ih _ hb with hbest | ⟨e, he, hm⟩
      · rcases longerMatch_eq best (entityMatch? text entry) with heq | heq
        · exact .inl (heq ▸ hbest)
        · exact .inr ⟨entry, List.mem_cons_self, heq ▸ hbest⟩
      · exact .inr ⟨e, List.mem_cons_of_mem _ he, hm⟩
  rcases fold _ _ h with hnone | hentry
  · cases hnone
  · exact hentry

/-- The longest reference covers part of the text, and not nothing. -/
theorem length_of_longestEntity? {text : List Char} {m : EntityMatch}
    (h : longestEntity? text = some m) : 0 < m.length ∧ m.length ≤ text.length := by
  obtain ⟨entry, hentry, hmatch⟩ := longestEntity?_mem h
  exact length_of_entityMatch? (entityTable_name_pos entry hentry) hmatch

end LiveMarkup.Html
