import YunPin.JsonText

/-! The two directions of `encoding/json`: how a string is written, and how a value is stored into a
variable of a given type, unknown fields not being allowed. -/
namespace JsonText
open ByteText List

def letterFor (r : ℕ) : Option UInt8 :=
  if r = 0x22 then some 0x22
  else if r = 0x5C then some 0x5C
  else if r = 0x08 then some 0x62
  else if r = 0x0C then some 0x66
  else if r = 0x0A then some 0x6E
  else if r = 0x0D then some 0x72
  else if r = 0x09 then some 0x74
  else none

/-- An ASCII character in a string; for HTML three more of them are escaped. -/
def asciiEscape (html : Bool) (r : ℕ) : Bytes :=
  match letterFor r with
  | some letter => [0x5C, letter]
  | none =>
    if r < 0x20 ∨ (html ∧ (r = 0x26 ∨ r = 0x3C ∨ r = 0x3E)) then
      [0x5C, 0x75, 0x30, 0x30, hexDigit (r/16), hexDigit (r%16)]
    else [UInt8.ofNat r]

variable {r : ℕ}

theorem letterFor_facts {letter : UInt8} (h : letterFor r = some letter) :
    letter ≠ 0x75 ∧ escapeByte letter = some (UInt8.ofNat r) ∧ 0x20 ≤ letter := by
  rw [letterFor] at h
  split_ifs at h with h1 h2 h3 h4 h5 h6 h7
  all_goals
    cases h
    subst r
    decide

theorem hexUnit_digits (hr : r < 0x80) :
    hexUnit 0x30 0x30 (hexDigit (r/16)) (hexDigit (r%16)) = some r := by
  have hzero : hexValue 0x30 = some 0 := by decide
  rw [hexUnit, hzero, hexValue_hexDigit _ (by omega), hexValue_hexDigit _ (by omega)]
  exact congrArg some (by omega)

theorem asciiEscape_reads (html : Bool) (hr : r < 0x80) : ∃ ps, Spells r ps ∧
    ∀ rest, scanString (asciiEscape html r ++ rest) =
      (scanString rest).map (fun q => (ps ++ q.1, q.2)) := by
  have hbyte : (encodeRune r).map Piece.byte = [.byte (UInt8.ofNat r)] := by
    rw [encodeRune_ascii r hr]
    rfl
  rw [asciiEscape]
  cases hletter : letterFor r with
  | some letter =>
    obtain ⟨hne, hescape, -⟩ := letterFor_facts hletter
    exact ⟨_, .inl hbyte.symm, scanString_letter hne hescape⟩
  | none =>
    dsimp only
    by_cases hunit : r < 0x20 ∨ (html = true ∧ (r = 0x26 ∨ r = 0x3C ∨ r = 0x3E))
    · rw [if_pos hunit]
      exact ⟨_, .inr ⟨rfl, by omega⟩, scanString_unit (hexUnit_digits hr)⟩
    · rw [if_neg hunit]
      refine ⟨_, .inl hbyte.symm, scanString_plain [UInt8.ofNat r] ?_⟩
      intro b hb
      rw [mem_singleton.mp hb]
      have hlow : 0x20 ≤ r := not_lt.mp (fun hlt => hunit (.inl hlt))
      have hnat := toNat_byte r (by omega)
      refine ⟨fun he => ?_, fun he => ?_, ?_⟩
      · rw [he] at hnat
        rw [← hnat] at hletter
        cases hletter
      · rw [he] at hnat
        rw [← hnat] at hletter
        cases hletter
      · rw [UInt8.le_iff_toNat_le, hnat]
        exact hlow

theorem asciiEscape_visible (html : Bool) (hr : r < 0x80) : ∀ b ∈ asciiEscape html r, 0x20 ≤ b := by
  intro b hb
  have hdigit (n : ℕ) (hn : n < 16) : 0x20 ≤ hexDigit n := by
    rcases hexDigit_lower n hn with hlow | hlow
    · exact le_trans (by decide) hlow.1
    · exact le_trans (by decide) hlow.1
  rw [asciiEscape] at hb
  cases hletter : letterFor r with
  | some letter =>
    rw [hletter] at hb
    rcases mem_pair.mp hb with rfl | rfl
    · decide
    · exact (letterFor_facts hletter).2.2
  | none =>
    rw [hletter] at hb
    dsimp only at hb
    split_ifs at hb with hunit
    · simp only [mem_cons, not_mem_nil, or_false] at hb
      rcases hb with rfl | rfl | rfl | rfl | rfl | rfl
      · decide
      · decide
      · decide
      · decide
      · exact hdigit _ (by omega)
      · exact hdigit _ (by omega)
    · rw [mem_singleton.mp hb, UInt8.le_iff_toNat_le, toNat_byte r (by omega)]
      exact not_lt.mp (fun hlt => hunit (.inl hlt))

def goEscapeRune (r : ℕ) : Bytes :=
  if r < 0x80 then asciiEscape true r
  else if r = 0x2028 ∨ r = 0x2029 then [0x5C, 0x75, 0x32, 0x30, 0x32, hexDigit (r%16)]
  else encodeRune r

def scanRunes : ℕ → Bytes → List (Option ℕ)
  | _, [] => []
  | k+1, _ :: rest => scanRunes k rest
  | 0, b :: rest =>
    match runeSize b rest with
    | some n => some (runeValue b rest n) :: scanRunes (n-1) rest
    | none => none :: scanRunes 0 rest

def goEscape : Option ℕ → Bytes
  | some r => goEscapeRune r
  | none => lit "\\ufffd"

def goQuote (s : Bytes) : Bytes := 0x22 :: ((scanRunes 0 s).flatMap goEscape ++ [0x22])

theorem scanRunes_valid (k : ℕ) {s : Bytes} (h : validFrom k s = true) :
    scanRunes k s = (runesFrom k s).map some := by
  induction s generalizing k with
  | nil => cases k <;> rfl
  | cons b rest ih =>
    cases k with
    | succ k => exact ih k h
    | zero =>
      rw [validFrom] at h
      rw [scanRunes, runesFrom]
      cases hsize : runeSize b rest with
      | none =>
        rw [hsize] at h
        cases h
      | some n =>
        rw [hsize] at h
        exact congrArg (_ :: ·) (ih (n-1) h)

theorem visible_encodeRune (hr : 0x80 ≤ r) (b : UInt8) (hb : b ∈ encodeRune r) :
    b ≠ 0x22 ∧ b ≠ 0x5C ∧ 0x20 ≤ b := by
  have hle := le_of_mem_encodeRune hr b hb
  refine ⟨?_, ?_, ?_⟩
  · rintro rfl
    exact absurd hle (by decide)
  · rintro rfl
    exact absurd hle (by decide)
  · rw [UInt8.le_iff_toNat_le]
    exact le_trans (by decide) hle

def goWriter : RuneWriter where
  write := goEscapeRune
  reads r hr := by
    by_cases hascii : r < 0x80
    · rw [goEscapeRune, if_pos hascii]
      exact asciiEscape_reads true hascii
    rw [goEscapeRune, if_neg hascii]
    by_cases hline : r = 0x2028 ∨ r = 0x2029
    · rw [if_pos hline]
      refine ⟨[.unit r], Or.inr ⟨rfl, by omega⟩, scanString_unit ?_⟩
      rcases hline with rfl | rfl <;> decide
    · rw [if_neg hline]
      exact ⟨_, Or.inl rfl, scanString_plain _ (visible_encodeRune (not_lt.mp hascii))⟩
  visible r hr := by
    by_cases hascii : r < 0x80
    · rw [goEscapeRune, if_pos hascii]
      exact asciiEscape_visible true hascii
    rw [goEscapeRune, if_neg hascii]
    by_cases hline : r = 0x2028 ∨ r = 0x2029
    · rw [if_pos hline]
      intro b hb
      have hdigit : hexDigit (r%16) = 0x38 ∨ hexDigit (r%16) = 0x39 := by
        rcases hline with rfl | rfl
        · exact Or.inl rfl
        · exact Or.inr rfl
      simp only [mem_cons, not_mem_nil, or_false] at hb
      rcases hdigit with hd | hd
      · rw [hd] at hb
        rcases hb with rfl | rfl | rfl | rfl | rfl | rfl <;> decide
      · rw [hd] at hb
        rcases hb with rfl | rfl | rfl | rfl | rfl | rfl <;> decide
    · rw [if_neg hline]
      exact fun b hb => (visible_encodeRune (not_lt.mp hascii) b hb).2.2

variable (key s : Bytes) (members : List Member)

theorem goQuote_eq (hs : validUTF8 s = true) : goQuote s = goWriter.quote s := by
  rw [goQuote, scanRunes_valid 0 hs, flatMap_map]
  rfl

theorem denotes_goQuote (hs : validUTF8 s = true) : Denotes (goQuote s) (.string s) := by
  rw [goQuote_eq s hs]
  exact denotes_string goWriter s hs

def Member.ofString (key s : Bytes) : Member := ⟨key, goQuote s, .string s⟩

def Member.ofBool (key : Bytes) (b : Bool) : Member := ⟨key, boolText b, .bool b⟩

def Member.ofNat (key : Bytes) (n : ℕ) : Member := ⟨key, decimal n, .number (decimal n)⟩

def Member.ofInt (key : Bytes) (z : ℤ) : Member := ⟨key, intText z, .number (intText z)⟩

def memberTexts (members : List Member) : Bytes :=
  objectText (members.map (fun m => (m.key, m.text)))

def memberValues (members : List Member) : Value :=
  .object (members.map (fun m => (m.key, m.value)))

def Member.ofObject (key : Bytes) (members : List Member) : Member :=
  ⟨key, memberTexts members, memberValues members⟩

def Member.ofSlice (key : Bytes) (elements : Option (List (List Member))) : Member :=
  ⟨key,
    match elements with
    | none => nullText
    | some l => arrayText (l.map memberTexts),
    match elements with
    | none => .null
    | some l => .array (l.map memberValues)⟩

theorem Member.written_ofString (hkey : PlainKey key) (hs : validUTF8 s = true) :
    (Member.ofString key s).Written := ⟨hkey, denotes_goQuote s hs⟩

theorem Member.written_ofBool {b : Bool} (hkey : PlainKey key) :
    (Member.ofBool key b).Written := ⟨hkey, denotes_bool b⟩

theorem Member.written_ofNat {n : ℕ} (hkey : PlainKey key) :
    (Member.ofNat key n).Written := ⟨hkey, denotes_decimal n⟩

theorem Member.written_ofInt {z : ℤ} (hkey : PlainKey key) :
    (Member.ofInt key z).Written := ⟨hkey, denotes_int z⟩

theorem denotes_members (h : ∀ m ∈ members, m.Written) :
    Denotes (memberTexts members) (memberValues members) := denotes_object h

theorem Member.written_ofObject (hkey : PlainKey key) (h : ∀ m ∈ members, m.Written) :
    (Member.ofObject key members).Written :=
  ⟨hkey, denotes_members members h⟩

theorem Member.written_ofSlice {elements : Option (List (List Member))} (hkey : PlainKey key)
    (h : ∀ l ∈ elements, ∀ members ∈ l, ∀ m ∈ members, m.Written) :
    (Member.ofSlice key elements).Written := by
  cases elements with
  | none => exact ⟨hkey, denotes_null⟩
  | some l =>
    have hall := denotes_array (l.map (fun members => (memberTexts members, memberValues members)))
      (by
        intro e he
        obtain ⟨members, hmem, rfl⟩ := mem_map.mp he
        exact denotes_members members (h l rfl members hmem))
    rw [map_map, map_map] at hall
    exact ⟨hkey, hall⟩

theorem asciiEscape_length {html : Bool} (r : ℕ) : (asciiEscape html r).length ≤ 6 := by
  rw [asciiEscape]
  cases letterFor r with
  | some letter => exact (by decide : 2 ≤ 6)
  | none =>
    dsimp only
    split_ifs
    · exact le_refl 6
    · exact (by decide : 1 ≤ 6)

theorem goEscape_length (rune : Option ℕ) : (goEscape rune).length ≤ 6 := by
  cases rune with
  | none => decide
  | some r =>
    rw [goEscape, goEscapeRune]
    split_ifs
    · exact asciiEscape_length r
    · exact le_refl 6
    · rw [encodeRune]
      split_ifs <;> simp

theorem scanRunes_length (k : ℕ) (s : Bytes) : (scanRunes k s).length ≤ s.length := by
  induction s generalizing k with
  | nil => cases k <;> exact le_refl 0
  | cons b rest ih =>
    cases k with
    | succ k => exact le_trans (ih k) (Nat.le_succ _)
    | zero =>
      rw [scanRunes]
      cases runeSize b rest with
      | none => exact Nat.succ_le_succ (ih 0)
      | some n => exact Nat.succ_le_succ (ih (n-1))

theorem goQuote_length : (goQuote s).length ≤ 6*s.length+2 := by
  have hall (runes : List (Option ℕ)) : (runes.flatMap goEscape).length ≤ 6*runes.length := by
    induction runes with
    | nil => exact le_refl 0
    | cons rune rest ih =>
      have hrune := goEscape_length rune
      rw [flatMap_cons, length_append, length_cons]
      omega
  have hescaped := hall (scanRunes 0 s)
  have hcount := scanRunes_length 0 s
  rw [goQuote, length_cons, length_append, length_singleton]
  omega

theorem commaJoin_length (texts : List Bytes) :
    (commaJoin texts).length ≤ (texts.map (fun t => t.length+1)).sum := by
  induction texts with
  | nil => exact le_refl 0
  | cons t rest ih =>
    rw [map_cons, sum_cons]
    cases rest with
    | nil => exact Nat.le_add_right_of_le (Nat.le_succ _)
    | cons u rest =>
      rw [commaJoin_cons, length_append, length_cons]
      omega

theorem memberTexts_length : (memberTexts members).length ≤
    (members.map (fun m => m.key.length+m.text.length+4)).sum+2 := by
  have hjoin := commaJoin_length ((members.map (fun m => (m.key, m.text))).map memberText)
  have hsum : (((members.map (fun m => (m.key, m.text))).map memberText).map
      (fun t => t.length+1)).sum = (members.map (fun m => m.key.length+m.text.length+4)).sum := by
    rw [map_map, map_map]
    refine congrArg List.sum (map_congr_left (fun m _ => ?_))
    simp only [Function.comp_apply, memberText, length_cons, length_append]
    omega
  rw [hsum] at hjoin
  rw [memberTexts, objectText, length_cons, length_append, length_singleton]
  omega

/-- How a value is stored into a variable: from what the variable holds to what it holds then, if the
value has the right type. -/
abbrev Target (α : Type) := α → Value → Option α

namespace Target

variable {α β : Type}

def string : Target Bytes
  | a, .null => some a
  | _, .string s => some s
  | _, _ => none

def bool : Target Bool
  | a, .null => some a
  | _, .bool b => some b
  | _, _ => none

def parseUint (bound : ℕ) (text : Bytes) : Option ℕ :=
  if text ≠ [] ∧ text.all isDigit ∧ digitsValue text < bound then some (digitsValue text) else none

def parseInt (text : Bytes) : Option ℤ :=
  if text.head? = some 0x2D then
    (parseUint (2^63+1) text.tail).map (fun n : ℕ => -Int.ofNat n)
  else (parseUint (2^63) text).map Int.ofNat

def uint64 : Target UInt64
  | a, .null => some a
  | _, .number text => (parseUint (2^64) text).map UInt64.ofNat
  | _, _ => none

def uint32 : Target UInt32
  | a, .null => some a
  | _, .number text => (parseUint (2^32) text).map UInt32.ofNat
  | _, _ => none

def int : Target ℤ
  | a, .null => some a
  | _, .number text => parseInt text
  | _, _ => none

def pointer (zero : α) (t : Target α) : Target (Option α)
  | _, .null => some none
  | a, v => (t (a.getD zero) v).map some

/-- A slice, which is none when it is nil. It is reset before the elements are appended. -/
def slice (zero : α) (t : Target α) : Target (Option (List α))
  | _, .null => some none
  | _, .array elements => (elements.mapM (t zero)).map some
  | _, _ => none

structure Field (α : Type) where
  name : Bytes
  store : Target α

def field (name : Bytes) (get : α → β) (put : α → β → α) (t : Target β) : Field α :=
  ⟨name, fun a v => (t (get a) v).map (put a)⟩

/-- Case folding as far as it reaches ASCII letters: the long s and the Kelvin sign do. -/
def foldRune (r : ℕ) : ℕ :=
  if 0x61 ≤ r ∧ r ≤ 0x7A then r-0x20 else if r = 0x17F then 0x53 else if r = 0x212A then 0x4B else r

def foldName (name : Bytes) : List ℕ := (runes name).map foldRune

/-- The field with this name, or else one whose name differs in case only. -/
def findField (fields : List (Field α)) (key : Bytes) : Option (Field α) :=
  (fields.find? (fun f => f.name = key)).or
    (fields.find? (fun f => foldName f.name = foldName key))

def storeMembers (fields : List (Field α)) : α → List (Bytes × Value) → Option α
  | a, [] => some a
  | a, (key, v) :: rest =>
    match findField fields key with
    | none => none
    | some f =>
      match f.store a v with
      | none => none
      | some a => storeMembers fields a rest

def struct (fields : List (Field α)) : Target α
  | a, .null => some a
  | a, .object members => storeMembers fields a members
  | _, _ => none

theorem parseUint_decimal {bound n : ℕ} (h : n < bound) : parseUint bound (decimal n) = some n := by
  rw [parseUint, digitsValue_decimal, if_pos]
  exact ⟨decimal_ne_nil n, all_eq_true.mpr (isDigit_decimal n), h⟩

theorem parseInt_intText {z : ℤ} (hlow : -2^63 ≤ z) (hhigh : z < 2^63) :
    parseInt (intText z) = some z := by
  rw [intText]
  by_cases hz : z < 0
  · rw [if_pos hz, parseInt, head?_cons, if_pos rfl, tail_cons,
      parseUint_decimal (by omega), Option.map_some]
    have hneg : -Int.ofNat z.natAbs = z := by
      rw [Int.ofNat_eq_natCast]
      omega
    rw [hneg]
  · have hsign : ¬(decimal z.natAbs).head? = some 0x2D := fun hhead =>
      absurd (isDigit_decimal _ _ (mem_of_mem_head? hhead)) (by decide)
    have hpos : Int.ofNat z.natAbs = z := Int.natAbs_of_nonneg (not_lt.mp hz)
    rw [if_neg hz, parseInt, if_neg hsign, parseUint_decimal (by omega), Option.map_some, hpos]

theorem storeMembers_append (fields : List (Field α)) (a : α) (l m : List (Bytes × Value)) :
    storeMembers fields a (l ++ m) =
      (storeMembers fields a l).bind (fun a => storeMembers fields a m) := by
  induction l generalizing a with
  | nil => rfl
  | cons e l ih =>
    rw [cons_append, storeMembers, storeMembers]
    cases findField fields e.1 with
    | none => rfl
    | some f =>
      dsimp only
      cases f.store a e.2 with
      | none => rfl
      | some b => exact ih b

theorem storeMembers_cons {fields : List (Field α)} {a a' : α} {key : Bytes} {v : Value}
    (rest : List (Bytes × Value)) {f : Field α} (hfind : findField fields key = some f)
    (hstore : f.store a v = some a') :
    storeMembers fields a ((key, v) :: rest) = storeMembers fields a' rest := by
  rw [storeMembers, hfind]
  dsimp only
  rw [hstore]

end Target
end JsonText
