import YunPin.Utf8

/-! JSON text as the strict decoder of a Go program reads it, and as a program writes it. A reader
returns what follows the value, and every writer says what a reader gets from its text. -/
namespace JsonText
open ByteText List

/-- A number keeps its text, since the target type decides what it may be. -/
inductive Value where
  | null
  | bool (b : Bool)
  | number (text : Bytes)
  | string (s : Bytes)
  | array (elements : List Value)
  | object (members : List (Bytes × Value))

/-- What stands in a string: a byte, also one written with a letter escape, or a UTF-16 unit written
with four digits. -/
inductive Piece where
  | byte (b : UInt8)
  | unit (u : ℕ)
  deriving DecidableEq, Repr

def escapeByte (c : UInt8) : Option UInt8 :=
  if c = 0x22 ∨ c = 0x5C ∨ c = 0x2F then some c
  else if c = 0x62 then some 0x08
  else if c = 0x66 then some 0x0C
  else if c = 0x6E then some 0x0A
  else if c = 0x72 then some 0x0D
  else if c = 0x74 then some 0x09
  else none

def hexUnit (a b c d : UInt8) : Option ℕ :=
  match hexValue a, hexValue b, hexValue c, hexValue d with
  | some a, some b, some c, some d => some (((a*16+b)*16+c)*16+d)
  | _, _, _, _ => none

def leadingUnit : Bytes → Option ℕ
  | x :: y :: z :: w :: _ => hexUnit x y z w
  | _ => none

def escapeAt : Bytes → Option (Piece × ℕ)
  | [] => none
  | d :: rest =>
    if d = 0x75 then (leadingUnit rest).map (fun u => (.unit u, 5))
    else (escapeByte d).map (fun b => (.byte b, 1))

/-- The piece that starts with a byte, and how many further bytes it takes. -/
def pieceAt (c : UInt8) (rest : Bytes) : Option (Piece × ℕ) :=
  if c = 0x5C then escapeAt rest else if c < 0x20 then none else some (.byte c, 0)

/-- The string up to its closing quote; the opening one has been read. The number counts the bytes
still owed to the current piece. -/
def scanFrom : ℕ → Bytes → Option (List Piece × Bytes)
  | _, [] => none
  | k+1, _ :: rest => scanFrom k rest
  | 0, c :: rest =>
    if c = 0x22 then some ([], rest)
    else
      match pieceAt c rest with
      | some (p, n) => (scanFrom n rest).map (fun r => (p :: r.1, r.2))
      | none => none

def scanString (s : Bytes) : Option (List Piece × Bytes) := scanFrom 0 s

def bytesOf : List Piece → Bytes
  | .byte b :: rest => b :: bytesOf rest
  | _ => []

def replacementChar : Bytes := [0xEF, 0xBF, 0xBD]

/-- The text of a unit and whether the unit after it belongs to it. Half of a surrogate pair comes out
as U+FFFD. -/
def unitAt (u : ℕ) (rest : List Piece) : Bytes × ℕ :=
  if u < 0xD800 ∨ 0xE000 ≤ u then (encodeRune u, 0)
  else
    match rest with
    | .unit v :: _ =>
      if u < 0xDC00 ∧ 0xDC00 ≤ v ∧ v < 0xE000 then
        (encodeRune (0x10000+(u-0xD800)*0x400+(v-0xDC00)), 1)
      else (replacementChar, 0)
    | _ => (replacementChar, 0)

/-- The text of a string. A byte that starts no rune comes out as U+FFFD. The number counts the pieces
still owed to the current rune. -/
def unquoteFrom : ℕ → List Piece → Bytes
  | _, [] => []
  | k+1, .byte b :: rest => b :: unquoteFrom k rest
  | k+1, .unit _ :: rest => unquoteFrom k rest
  | 0, .byte b :: rest =>
    match runeSize b (bytesOf rest) with
    | some n => b :: unquoteFrom (n-1) rest
    | none => replacementChar ++ unquoteFrom 0 rest
  | 0, .unit u :: rest => (unitAt u rest).1 ++ unquoteFrom (unitAt u rest).2 rest

def readString (s : Bytes) : Option (Bytes × Bytes) :=
  (scanString s).map (fun r => (unquoteFrom 0 r.1, r.2))

def Spells (r : ℕ) (ps : List Piece) : Prop :=
  ps = (encodeRune r).map .byte ∨ (ps = [.unit r] ∧ r < 0xD800)

variable (w : RuneWriter) {p : Bytes} (text : Bytes) (n : ℕ) (c : UInt8) (tail rest s : Bytes)

theorem bytesOf_bytes (rest : List Piece) :
    bytesOf (tail.map .byte ++ rest) = tail ++ bytesOf rest := by
  induction tail with
  | nil => rfl
  | cons b tail ih => exact congrArg (b :: ·) ih

theorem unquoteFrom_bytes (rest : List Piece) :
    unquoteFrom tail.length (tail.map .byte ++ rest) = tail ++ unquoteFrom 0 rest := by
  induction tail with
  | nil => rfl
  | cons b tail ih => exact congrArg (b :: ·) ih

theorem unquoteFrom_spells {r : ℕ} (hr : IsScalar r) {ps : List Piece} (h : Spells r ps)
    (rest : List Piece) : unquoteFrom 0 (ps ++ rest) = encodeRune r ++ unquoteFrom 0 rest := by
  rcases h with rfl | ⟨rfl, hlow⟩
  · obtain ⟨b, tail, he, hreads⟩ := reads_encodeRune hr
    rw [he, map_cons, cons_append, unquoteFrom, bytesOf_bytes, hreads.runeSize]
    dsimp only
    rw [Nat.add_sub_cancel, unquoteFrom_bytes]
    rfl
  · have hunit : unitAt r rest = (encodeRune r, 0) := if_pos (.inl hlow)
    rw [singleton_append, unquoteFrom, hunit]

structure RuneWriter where
  write : ℕ → Bytes
  reads : ∀ r, IsScalar r → ∃ ps, Spells r ps ∧
    ∀ rest, scanString (write r ++ rest) = (scanString rest).map (fun q => (ps ++ q.1, q.2))
  visible : ∀ r, IsScalar r → ∀ b ∈ write r, 0x20 ≤ b

def RuneWriter.quote (w : RuneWriter) (s : Bytes) : Bytes :=
  0x22 :: ((runes s).flatMap w.write ++ [0x22])

theorem readString_runes {l : List ℕ} (hl : ∀ r ∈ l, IsScalar r) (rest : Bytes) :
    readString (l.flatMap w.write ++ 0x22 :: rest) = some (encodeRunes l, rest) := by
  suffices hpieces : ∃ ps, scanString (l.flatMap w.write ++ 0x22 :: rest) = some (ps, rest) ∧
      unquoteFrom 0 ps = encodeRunes l by
    obtain ⟨ps, hscan, htext⟩ := hpieces
    rw [readString, hscan, Option.map_some, htext]
  induction l with
  | nil =>
    have hend : scanString (0x22 :: rest) = some ([], rest) := by
      rw [scanString, scanFrom, if_pos rfl]
    exact ⟨[], hend, rfl⟩
  | cons r l ih =>
    have hr := hl r mem_cons_self
    obtain ⟨ps, hscan, htext⟩ := ih (forall_mem_cons.mp hl).2
    obtain ⟨qs, hspells, hread⟩ := w.reads r hr
    refine ⟨qs ++ ps, ?_, ?_⟩
    · rw [flatMap_cons, append_assoc, hread, hscan]
      rfl
    · rw [unquoteFrom_spells hr hspells, htext]
      rfl

theorem readString_quote (hs : validUTF8 s = true) (rest : Bytes) :
    readString ((w.quote s ++ rest).tail) = some (s, rest) := by
  have hread := readString_runes w (runes_scalar s) rest
  rw [encodeRunes_runes, toValidUTF8_of_valid s hs] at hread
  rw [RuneWriter.quote, cons_append, tail_cons, append_assoc]
  exact hread

theorem scanFrom_append_left : scanFrom tail.length (tail ++ rest) = scanString rest := by
  induction tail with
  | nil => rfl
  | cons b tail ih => exact ih

theorem scanString_cons (p : Piece) (hc : c ≠ 0x22)
    (h : pieceAt c (tail ++ rest) = some (p, tail.length)) :
    scanString (c :: (tail ++ rest)) = (scanString rest).map (fun q => (p :: q.1, q.2)) := by
  rw [scanString, scanFrom, if_neg hc, h]
  dsimp only
  rw [scanFrom_append_left]

theorem scanString_plain (l : Bytes) (h : ∀ b ∈ l, b ≠ 0x22 ∧ b ≠ 0x5C ∧ 0x20 ≤ b) (rest : Bytes) :
    scanString (l ++ rest) = (scanString rest).map (fun q => (l.map .byte ++ q.1, q.2)) := by
  induction l with
  | nil =>
    rw [nil_append]
    cases scanString rest <;> rfl
  | cons b l ih =>
    obtain ⟨hquote, hslash, hlow⟩ := h b mem_cons_self
    have hpiece : pieceAt b (l ++ rest) = some (.byte b, 0) :=
      (if_neg hslash).trans (if_neg (not_lt.mpr hlow))
    have hcons := scanString_cons b [] (l ++ rest) (.byte b) hquote hpiece
    rw [nil_append] at hcons
    rw [cons_append, hcons, ih (forall_mem_cons.mp h).2,
      Option.map_map]
    rfl

theorem scanString_letter {d b : UInt8} (hd : d ≠ 0x75) (h : escapeByte d = some b) (rest : Bytes) :
    scanString (0x5C :: d :: rest) = (scanString rest).map (fun q => (.byte b :: q.1, q.2)) := by
  apply scanString_cons 0x5C [d] rest (.byte b) (by decide)
  rw [pieceAt, if_pos rfl, singleton_append, escapeAt, if_neg hd, h]
  rfl

theorem scanString_unit {x y z w : UInt8} {u : ℕ} (h : hexUnit x y z w = some u) (rest : Bytes) :
    scanString (0x5C :: 0x75 :: x :: y :: z :: w :: rest) =
      (scanString rest).map (fun q => (.unit u :: q.1, q.2)) := by
  apply scanString_cons 0x5C [0x75, x, y, z, w] rest (.unit u) (by decide)
  have hlead : leadingUnit (x :: y :: z :: w :: rest) = some u := h
  rw [pieceAt, if_pos rfl, cons_append, escapeAt, if_pos rfl]
  exact congrArg (Option.map _) hlead

theorem leadingUnit_append {u : ℕ} (h : leadingUnit p = some u) :
    leadingUnit (p ++ s) = some u := by
  match p, h with
  | _ :: _ :: _ :: _ :: _, h => exact h

theorem escapeAt_append {r : Piece × ℕ} (h : escapeAt rest = some r) :
    escapeAt (rest ++ s) = some r := by
  cases rest with
  | nil => cases h
  | cons d rest =>
    simp only [cons_append, escapeAt] at h ⊢
    split_ifs at h ⊢
    · obtain ⟨u, hu, heq⟩ := Option.map_eq_some_iff.mp h
      rw [leadingUnit_append s hu, Option.map_some, heq]
    · exact h

theorem pieceAt_append {r : Piece × ℕ} (h : pieceAt c rest = some r) :
    pieceAt c (rest ++ s) = some r := by
  rw [pieceAt] at h ⊢
  split_ifs at h ⊢
  · exact escapeAt_append rest s h
  · exact h

theorem scanFrom_append (k : ℕ) (ps : List Piece) (rest s : Bytes)
    (h : scanFrom k p = some (ps, rest)) : scanFrom k (p ++ s) = some (ps, rest ++ s) := by
  induction p generalizing k ps with
  | nil => cases k <;> cases h
  | cons c p ih =>
    cases k with
    | succ k => exact ih k ps h
    | zero =>
      simp only [cons_append, scanFrom] at h ⊢
      split_ifs at h ⊢
      · cases h
        rfl
      split at h
      · rename_i q n hpiece
        obtain ⟨r, hr, heq⟩ := Option.map_eq_some_iff.mp h
        cases heq
        simp only [pieceAt_append c p s hpiece, ih n r.1 hr, Option.map_some]
      · cases h

theorem readString_append (h : readString p = some (text, rest)) :
    readString (p ++ s) = some (text, rest ++ s) := by
  obtain ⟨r, hr, heq⟩ := Option.map_eq_some_iff.mp h
  cases heq
  rw [readString, scanString, scanFrom_append 0 r.1 r.2 s hr]
  rfl

def isSpace (c : UInt8) : Bool := c = 0x20 ∨ c = 0x09 ∨ c = 0x0A ∨ c = 0x0D

def skipSpace (s : Bytes) : Bytes := s.dropWhile isSpace

def isDigit (c : UInt8) : Bool := 0x30 ≤ c ∧ c ≤ 0x39

def isNumberByte (c : UInt8) : Bool :=
  isDigit c ∨ c = 0x2B ∨ c = 0x2D ∨ c = 0x2E ∨ c = 0x45 ∨ c = 0x65

def isExponent : Bytes → Bool
  | [] => true
  | c :: rest =>
    let digits := if rest.head? = some 0x2B ∨ rest.head? = some 0x2D then rest.tail else rest
    (c = 0x45 ∨ c = 0x65) ∧ digits ≠ [] ∧ digits.all isDigit

def isFraction : Bytes → Bool
  | [] => true
  | c :: rest =>
    if c = 0x2E then rest.takeWhile isDigit ≠ [] ∧ isExponent (rest.dropWhile isDigit)
    else isExponent (c :: rest)

def isNumber (text : Bytes) : Bool :=
  let text := if text.head? = some 0x2D then text.tail else text
  let digits := text.takeWhile isDigit
  digits ≠ [] ∧ (digits.head? = some 0x30 → digits = [0x30]) ∧ isFraction (text.dropWhile isDigit)

/-- The bytes that can stand in a number, as many as there are. They have to be a number as a whole,
since none of them can follow a number. -/
def readNumber (s : Bytes) : Option (Value × Bytes) :=
  if isNumber (s.takeWhile isNumberByte) then
    some (.number (s.takeWhile isNumberByte), s.dropWhile isNumberByte)
  else none

def trueText : Bytes := [0x74, 0x72, 0x75, 0x65]
def falseText : Bytes := [0x66, 0x61, 0x6C, 0x73, 0x65]
def nullText : Bytes := [0x6E, 0x75, 0x6C, 0x6C]

example : trueText = lit "true" ∧ falseText = lit "false" ∧ nullText = lit "null" := by decide

def readWord (word : Bytes) (v : Value) (s : Bytes) : Option (Value × Bytes) :=
  if word.isPrefixOf s then some (v, s.drop word.length) else none

def readScalar (s : Bytes) : Option (Value × Bytes) :=
  match s with
  | [] => none
  | c :: rest =>
    if c = 0x22 then (readString rest).map (fun r => (.string r.1, r.2))
    else if c = 0x74 then readWord trueText (.bool true) s
    else if c = 0x66 then readWord falseText (.bool false) s
    else if c = 0x6E then readWord nullText .null s
    else readNumber s

def readKey (s : Bytes) : Option (Bytes × Bytes) :=
  match skipSpace s with
  | [] => none
  | c :: rest =>
    if c = 0x22 then
      match readString rest with
      | none => none
      | some (key, rest) =>
        match skipSpace rest with
        | [] => none
        | c :: rest => if c = 0x3A then some (key, rest) else none
    else none

mutual

/-- The first number bounds the recursion; the length of the text is enough. -/
def readValue : ℕ → Bytes → Option (Value × Bytes)
  | 0, _ => none
  | n+1, s =>
    match skipSpace s with
    | [] => none
    | c :: rest =>
      if c = 0x5B then
        match skipSpace rest with
        | [] => none
        | d :: after =>
          if d = 0x5D then some (.array [], after)
          else (readElements n (d :: after)).map (fun r => (.array r.1, r.2))
      else if c = 0x7B then
        match skipSpace rest with
        | [] => none
        | d :: after =>
          if d = 0x7D then some (.object [], after)
          else (readMembers n (d :: after)).map (fun r => (.object r.1, r.2))
      else readScalar (c :: rest)

def readElements : ℕ → Bytes → Option (List Value × Bytes)
  | 0, _ => none
  | n+1, s =>
    match readValue n s with
    | none => none
    | some (v, rest) =>
      match skipSpace rest with
      | [] => none
      | c :: rest =>
        if c = 0x2C then (readElements n rest).map (fun r => (v :: r.1, r.2))
        else if c = 0x5D then some ([v], rest)
        else none

def readMembers : ℕ → Bytes → Option (List (Bytes × Value) × Bytes)
  | 0, _ => none
  | n+1, s =>
    match readKey s with
    | none => none
    | some (key, rest) =>
      match readValue n rest with
      | none => none
      | some (v, rest) =>
        match skipSpace rest with
        | [] => none
        | c :: rest =>
          if c = 0x2C then (readMembers n rest).map (fun r => ((key, v) :: r.1, r.2))
          else if c = 0x7D then some ([(key, v)], rest)
          else none

end

def decodeOne (s : Bytes) : Option Value :=
  match readValue s.length s with
  | none => none
  | some (v, rest) => if skipSpace rest = [] then some v else none

example : (decodeOne (lit " [1, \"a\\n\", null] ")).isSome = true := by decide

def Delimited (rest : Bytes) : Prop := ∀ c ∈ rest.head?, isNumberByte c = false

def Visible (text : Bytes) : Prop := ∀ b ∈ text, 0x20 ≤ b

/-- A text from which a reader gets the value, whatever follows. It starts with a byte of its own. -/
structure Denotes (text : Bytes) (v : Value) : Prop where
  start : ∀ c ∈ text.head?, isSpace c = false ∧ c ≠ 0x5D
  nonempty : text ≠ []
  visible : Visible text
  reads : ∀ n rest, text.length ≤ n → Delimited rest → readValue n (text ++ rest) = some (v, rest)

theorem Visible.cons {c : UInt8} {text : Bytes} (hc : 0x20 ≤ c) (h : Visible text) :
    Visible (c :: text) := forall_mem_cons.mpr ⟨hc, h⟩

theorem Visible.append {text other : Bytes} (h : Visible text) (h' : Visible other) :
    Visible (text ++ other) := forall_mem_append.mpr ⟨h, h'⟩

theorem visible_nil : Visible [] := fun _ hb => absurd hb not_mem_nil

theorem skipSpace_cons (h : isSpace c = false) : skipSpace (c :: rest) = c :: rest :=
  dropWhile_cons_of_neg (by rw [h]; exact Bool.false_ne_true)

theorem readValue_scalar (hn : n ≠ 0) (hspace : isSpace c = false) (harray : c ≠ 0x5B)
    (hobject : c ≠ 0x7B) :
    readValue n (c :: rest) = readScalar (c :: rest) := by
  obtain ⟨n, rfl⟩ := Nat.exists_eq_succ_of_ne_zero hn
  rw [readValue, skipSpace_cons c rest hspace]
  dsimp only
  rw [if_neg harray, if_neg hobject]

theorem denotes_string (hs : validUTF8 s = true) : Denotes (w.quote s) (.string s) := by
  refine ⟨fun c hc => by cases hc; decide, cons_ne_nil _ _, ?_, fun n rest hn _ => ?_⟩
  · refine Visible.cons (by decide) (Visible.append ?_ (Visible.cons (by decide) visible_nil))
    intro b hb
    obtain ⟨r, hr, hmem⟩ := mem_flatMap.mp hb
    exact w.visible r (runes_scalar s r hr) b hmem
  · have hread := readString_quote w s hs rest
    simp only [RuneWriter.quote, length_cons, cons_append, tail_cons] at hn hread ⊢
    rw [readValue_scalar n _ _ (by omega) (by decide) (by decide) (by decide), readScalar,
      if_pos rfl, hread]
    rfl

theorem denotes_word {c : UInt8} {tail : Bytes} {v : Value}
    (hc : isSpace c = false ∧ c ≠ 0x5D ∧ c ≠ 0x5B ∧ c ≠ 0x7B) (hvisible : Visible (c :: tail))
    (h : ∀ rest, readScalar (c :: (tail ++ rest)) = some (v, rest)) : Denotes (c :: tail) v := by
  refine ⟨fun d hd => ?_, cons_ne_nil _ _, hvisible, fun n rest hn _ => ?_⟩
  · cases hd
    exact ⟨hc.1, hc.2.1⟩
  · rw [length_cons] at hn
    rw [cons_append, readValue_scalar n c _ (by omega) hc.1 hc.2.2.1 hc.2.2.2, h rest]

theorem visible_of_all (h : text.all (fun b => decide (0x20 ≤ b)) = true) :
    Visible text := fun b hb => of_decide_eq_true (all_eq_true.mp h b hb)

def boolText (b : Bool) : Bytes := if b then trueText else falseText

theorem denotes_bool (b : Bool) : Denotes (boolText b) (.bool b) := by
  cases b with
  | true | false => exact denotes_word (by decide) (visible_of_all _ rfl) (fun _ => rfl)

theorem denotes_null : Denotes nullText .null :=
  denotes_word (by decide) (visible_of_all _ rfl) (fun _ => rfl)

theorem takeWhile_append_delimited {text rest : Bytes} (h : ∀ c ∈ text, isNumberByte c = true)
    (hrest : Delimited rest) :
    (text ++ rest).takeWhile isNumberByte = text ∧ (text ++ rest).dropWhile isNumberByte = rest := by
  rw [takeWhile_append_of_pos h, dropWhile_append_of_pos h]
  cases rest with
  | nil => simp
  | cons c rest => simp [hrest c rfl]

theorem denotes_number {text : Bytes} (hbytes : ∀ c ∈ text, isNumberByte c = true)
    (hnumber : isNumber text = true) : Denotes text (.number text) := by
  have hne : text ≠ [] := by
    rintro rfl
    exact absurd hnumber (by decide)
  have hfirst (c : UInt8) (hc : isNumberByte c = true) : isSpace c = false ∧ c ≠ 0x5D ∧ c ≠ 0x5B ∧
      c ≠ 0x7B ∧ c ≠ 0x22 ∧ c ≠ 0x74 ∧ c ≠ 0x66 ∧ c ≠ 0x6E ∧ 0x20 ≤ c := by
    revert c
    decide +kernel
  refine ⟨fun c hc => ?_, hne, fun c hc => ?_, fun n rest hn hrest => ?_⟩
  · obtain ⟨hspace, hclose, -⟩ := hfirst c (hbytes c (mem_of_mem_head? hc))
    exact ⟨hspace, hclose⟩
  · obtain ⟨-, -, -, -, -, -, -, -, hlow⟩ := hfirst c (hbytes c hc)
    exact hlow
  · obtain ⟨htake, hdrop⟩ := takeWhile_append_delimited hbytes hrest
    obtain ⟨c, text, rfl⟩ := exists_cons_of_ne_nil hne
    obtain ⟨hspace, -, harray, hobject, hquote, htrue, hfalse, hnull, -⟩ :=
      hfirst c (hbytes c mem_cons_self)
    rw [length_cons] at hn
    rw [cons_append] at htake hdrop ⊢
    rw [readValue_scalar n c _ (by omega) hspace harray hobject, readScalar,
      if_neg hquote, if_neg htrue, if_neg hfalse, if_neg hnull, readNumber, htake, hdrop,
      if_pos hnumber]

def commaJoin : List Bytes → Bytes
  | [] => []
  | [t] => t
  | t :: rest => t ++ 0x2C :: commaJoin rest

theorem commaJoin_cons (t u : Bytes) (rest : List Bytes) :
    commaJoin (t :: u :: rest) = t ++ 0x2C :: commaJoin (u :: rest) := rfl

theorem exists_commaJoin (t : Bytes) (rest : List Bytes) :
    ∃ more, commaJoin (t :: rest) = t ++ more := by
  cases rest with
  | nil => exact ⟨[], (append_nil t).symm⟩
  | cons u rest => exact ⟨_, rfl⟩

def arrayText (elements : List Bytes) : Bytes := 0x5B :: (commaJoin elements ++ [0x5D])

def memberText (member : Bytes × Bytes) : Bytes := 0x22 :: (member.1 ++ 0x22 :: 0x3A :: member.2)

def objectText (members : List (Bytes × Bytes)) : Bytes :=
  0x7B :: (commaJoin (members.map memberText) ++ [0x7D])

theorem visible_commaJoin {texts : List Bytes} (h : ∀ t ∈ texts, Visible t) :
    Visible (commaJoin texts) := by
  induction texts with
  | nil => exact visible_nil
  | cons t rest ih =>
    cases rest with
    | nil => exact h t mem_cons_self
    | cons u rest =>
      rw [commaJoin_cons]
      exact Visible.append (h t mem_cons_self)
        (Visible.cons (by decide) (ih (forall_mem_cons.mp h).2))

theorem readElements_commaJoin {l : List (Bytes × Value)} (hne : l ≠ [])
    (h : ∀ e ∈ l, Denotes e.1 e.2) (n : ℕ) (rest : Bytes)
    (hn : (commaJoin (l.map Prod.fst)).length+1 ≤ n) :
    readElements n (commaJoin (l.map Prod.fst) ++ 0x5D :: rest) = some (l.map Prod.snd, rest) := by
  induction l generalizing n with
  | nil => exact absurd rfl hne
  | cons e l ih =>
    obtain ⟨n, rfl⟩ := Nat.exists_eq_succ_of_ne_zero (show n ≠ 0 by omega)
    have hdenotes := h e mem_cons_self
    have hpos := length_pos_of_ne_nil hdenotes.nonempty
    cases l with
    | nil =>
      have hread := hdenotes.reads n (0x5D :: rest) (Nat.le_of_succ_le_succ hn)
        (fun c hc => by cases hc; decide)
      simp only [map_cons, map_nil, commaJoin, readElements, hread]
      rfl
    | cons e' l =>
      simp only [map_cons, commaJoin_cons, length_append, length_cons] at hn ih ⊢
      have hread := hdenotes.reads n (0x2C :: (commaJoin (e'.1 :: l.map Prod.fst) ++ 0x5D :: rest))
        (by omega) (fun c hc => by cases hc; decide)
      have hrest := ih (cons_ne_nil _ _) (forall_mem_cons.mp h).2 n
        (by omega)
      rw [append_assoc, cons_append, readElements, hread]
      simp only [skipSpace_cons _ _ (show isSpace 0x2C = false by decide), if_true, hrest]
      rfl

theorem denotes_array (l : List (Bytes × Value)) (h : ∀ e ∈ l, Denotes e.1 e.2) :
    Denotes (arrayText (l.map Prod.fst)) (.array (l.map Prod.snd)) := by
  refine ⟨fun c hc => by cases hc; decide, cons_ne_nil _ _, ?_, fun n rest hn _ => ?_⟩
  · refine Visible.cons (by decide) (Visible.append (visible_commaJoin ?_)
      (Visible.cons (by decide) visible_nil))
    intro t ht
    obtain ⟨e, he, rfl⟩ := mem_map.mp ht
    exact (h e he).visible
  · rw [arrayText, length_cons, length_append, length_singleton] at hn
    obtain ⟨n, rfl⟩ := Nat.exists_eq_succ_of_ne_zero (show n ≠ 0 by omega)
    rw [arrayText, cons_append, append_assoc, singleton_append, readValue,
      skipSpace_cons _ _ (by decide)]
    cases l with
    | nil => rfl
    | cons e l =>
      have helements := readElements_commaJoin (cons_ne_nil _ _) h n rest (by omega)
      -- the first element starts with a byte of its own
      have hdenotes := h e mem_cons_self
      obtain ⟨c, text, he⟩ := exists_cons_of_ne_nil hdenotes.nonempty
      obtain ⟨hspace, hclose⟩ := hdenotes.start c (by rw [he]; rfl)
      obtain ⟨more, hmore⟩ := exists_commaJoin e.1 (l.map Prod.fst)
      rw [he] at hmore
      rw [map_cons, he, hmore, cons_append, cons_append] at helements ⊢
      simp only [skipSpace_cons c _ hspace, if_neg hclose, helements, if_true, Option.map_some,
        map_cons]

def isPlainByte (b : UInt8) : Bool := b ≠ 0x22 ∧ b ≠ 0x5C ∧ 0x20 ≤ b ∧ b < 0x80

def PlainKey (key : Bytes) : Prop := key.all isPlainByte = true

variable {key : Bytes}

theorem PlainKey.byte (h : PlainKey key) {b : UInt8} (hb : b ∈ key) :
    b ≠ 0x22 ∧ b ≠ 0x5C ∧ 0x20 ≤ b ∧ b < 0x80 :=
  of_decide_eq_true (all_eq_true.mp h b hb)

theorem unquoteFrom_ascii (h : ∀ b ∈ key, b < 0x80) : unquoteFrom 0 (key.map .byte) = key := by
  induction key with
  | nil => rfl
  | cons b key ih =>
    have hsize : runeSize b (bytesOf (key.map .byte)) = some 1 := by
      have hneed : runeNeed b = some 1 := if_pos (h b mem_cons_self)
      rw [runeSize, hneed]
      rfl
    rw [map_cons, unquoteFrom, hsize]
    exact congrArg (b :: ·) (ih (forall_mem_cons.mp h).2)

theorem readKey_plain (h : PlainKey key) (rest : Bytes) :
    readKey (0x22 :: (key ++ 0x22 :: 0x3A :: rest)) = some (key, rest) := by
  have hread : readString (key ++ 0x22 :: 0x3A :: rest) = some (key, 0x3A :: rest) := by
    have hend : scanString (0x22 :: 0x3A :: rest) = some ([], 0x3A :: rest) := by
      rw [scanString, scanFrom, if_pos rfl]
    rw [readString, scanString_plain key (fun b hb => ⟨(h.byte hb).1, (h.byte hb).2.1,
      (h.byte hb).2.2.1⟩), hend, Option.map_some, Option.map_some, append_nil,
      unquoteFrom_ascii (fun b hb => (h.byte hb).2.2.2)]
  rw [readKey, skipSpace_cons _ _ (by decide)]
  simp only [if_true, hread, skipSpace_cons _ _ (show isSpace 0x3A = false by decide)]

structure Member where
  key : Bytes
  text : Bytes
  value : Value

def Member.Written (m : Member) : Prop := PlainKey m.key ∧ Denotes m.text m.value

theorem readMembers_commaJoin {l : List Member} (hne : l ≠ []) (h : ∀ m ∈ l, m.Written) (n : ℕ)
    (rest : Bytes) (hn : (commaJoin (l.map (fun m => memberText (m.key, m.text)))).length+1 ≤ n) :
    readMembers n (commaJoin (l.map (fun m => memberText (m.key, m.text))) ++ 0x7D :: rest) =
      some (l.map (fun m => (m.key, m.value)), rest) := by
  induction l generalizing n with
  | nil => exact absurd rfl hne
  | cons m l ih =>
    obtain ⟨n, rfl⟩ := Nat.exists_eq_succ_of_ne_zero (show n ≠ 0 by omega)
    obtain ⟨hkey, hdenotes⟩ := h m mem_cons_self
    cases l with
    | nil =>
      simp only [map_cons, map_nil, commaJoin, memberText, length_cons,
        length_append, cons_append, append_assoc] at hn ⊢
      have hread := hdenotes.reads n (0x7D :: rest) (by omega) (fun c hc => by cases hc; decide)
      simp only [readMembers, readKey_plain hkey, hread]
      rfl
    | cons m' l =>
      simp only [map_cons, commaJoin_cons, length_append, length_cons] at hn ih ⊢
      have hrest := ih (cons_ne_nil _ _) (forall_mem_cons.mp h).2 n
        (by omega)
      generalize commaJoin (memberText (m'.key, m'.text) ::
        l.map (fun m => memberText (m.key, m.text))) = more at hn hrest ⊢
      simp only [memberText, length_cons, length_append, cons_append,
        append_assoc] at hn ⊢
      have hread := hdenotes.reads n (0x2C :: (more ++ 0x7D :: rest)) (by omega)
        (fun c hc => by cases hc; decide)
      simp only [readMembers, readKey_plain hkey, hread, if_true, hrest,
        skipSpace_cons _ _ (show isSpace 0x2C = false by decide)]
      rfl

theorem denotes_object {l : List Member} (h : ∀ m ∈ l, m.Written) :
    Denotes (objectText (l.map (fun m => (m.key, m.text))))
      (.object (l.map (fun m => (m.key, m.value)))) := by
  refine ⟨fun c hc => by cases hc; decide, cons_ne_nil _ _, ?_, fun n rest hn _ => ?_⟩
  · refine Visible.cons (by decide) (Visible.append (visible_commaJoin ?_)
      (Visible.cons (by decide) visible_nil))
    intro t ht
    obtain ⟨e, he, rfl⟩ := mem_map.mp ht
    obtain ⟨m, hm, rfl⟩ := mem_map.mp he
    obtain ⟨hkey, hdenotes⟩ := h m hm
    exact Visible.cons (by decide) (Visible.append (fun b hb => (hkey.byte hb).2.2.1)
      (Visible.cons (by decide) (Visible.cons (by decide) hdenotes.visible)))
  · rw [objectText, map_map] at hn ⊢
    rw [length_cons, length_append, length_singleton] at hn
    obtain ⟨n, rfl⟩ := Nat.exists_eq_succ_of_ne_zero (show n ≠ 0 by omega)
    rw [cons_append, append_assoc, singleton_append, readValue,
      skipSpace_cons _ _ (by decide)]
    cases l with
    | nil => rfl
    | cons m l =>
      have hmembers := readMembers_commaJoin (cons_ne_nil _ _) h n rest
        (Nat.le_of_succ_le_succ hn)
      -- a member starts with its quote
      obtain ⟨more, hmore⟩ := exists_commaJoin (memberText (m.key, m.text))
        (l.map (fun m => memberText (m.key, m.text)))
      simp only [map_cons, Function.comp_def, hmore] at hmembers ⊢
      rw [memberText, cons_append, cons_append] at hmembers ⊢
      simp only [skipSpace_cons _ _ (show isSpace 0x22 = false by decide), hmembers,
        if_neg (show (0x7B : UInt8) ≠ 0x5B by decide), if_true, Option.map_some,
        if_neg (show (0x22 : UInt8) ≠ 0x7D by decide)]

theorem decodeOne_denotes {v : Value} (h : Denotes text v) : decodeOne text = some v := by
  have hread := h.reads text.length [] le_rfl (fun c hc => by cases hc)
  rw [append_nil] at hread
  rw [decodeOne, hread]
  rfl

def decimal (n : ℕ) : Bytes := (Nat.toDigits 10 n).map (fun c => UInt8.ofNat c.toNat)

theorem digit_facts {c : Char} (hc : c ∈ Nat.toDigits 10 n) : 48 ≤ c.toNat ∧ c.toNat ≤ 57 := by
  have hd := Nat.isDigit_of_mem_toDigits (by decide) (by decide) hc
  simp only [Char.isDigit, Bool.and_eq_true, decide_eq_true_eq] at hd
  exact hd

theorem isDigit_decimal : ∀ b ∈ decimal n, isDigit b = true := by
  intro b hb
  obtain ⟨c, hc, rfl⟩ := mem_map.mp hb
  have hd := digit_facts n hc
  rw [isDigit, decide_eq_true_eq, UInt8.le_iff_toNat_le, UInt8.le_iff_toNat_le,
    toNat_byte _ (by omega)]
  exact hd

def digitsValue (text : Bytes) : ℕ := text.foldl (fun n c => 10*n+(c.toNat-48)) 0

theorem digitsValue_decimal : digitsValue (decimal n) = n := by
  have hchars := Nat.ofDigitChars_toDigits (b := 10) (n := n) (by decide) (by decide)
  rw [Nat.ofDigitChars_eq_foldl] at hchars
  rw [digitsValue, decimal, foldl_map]
  refine Eq.trans (foldl_ext _ _ _ ?_) hchars
  intro m c hc
  have hd := digit_facts n hc
  rw [toNat_byte _ (by omega)]
  rfl

theorem decimal_ne_nil : decimal n ≠ [] := by
  rw [decimal, Ne, map_eq_nil_iff]
  exact Nat.toDigits_ne_nil

theorem isNumberByte_digit (h : isDigit c = true) : isNumberByte c = true :=
  decide_eq_true (.inl h)

theorem toDigits_head (h : (Nat.toDigits 10 n).head? = some '0') : n = 0 := by
  induction n using Nat.strong_induction_on with
  | _ n ih =>
    by_cases hlow : n < 10
    · rw [Nat.toDigits_of_lt_base hlow] at h
      have hall : ∀ m : Fin 10, [Nat.digitChar m].head? = some '0' → m.val = 0 := by decide
      exact hall ⟨n, hlow⟩ h
    · rw [Nat.toDigits_of_base_le (by decide) (not_lt.mp hlow), head?_append_of_ne_nil _
        Nat.toDigits_ne_nil] at h
      have hzero := ih (n/10) (by omega) h
      omega

theorem decimal_head (h : (decimal n).head? = some 0x30) : decimal n = [0x30] := by
  rw [decimal, head?_map] at h
  obtain ⟨c, hc, hbyte⟩ := Option.map_eq_some_iff.mp h
  have hd := digit_facts n (mem_of_mem_head? hc)
  have hchar : c = '0' := by
    have hnat := congrArg UInt8.toNat hbyte
    rw [toNat_byte _ (by omega)] at hnat
    exact Char.toNat_inj.mp hnat
  rw [hchar] at hc
  rw [toDigits_head n hc]
  rfl

theorem digits_number (h : ∀ b ∈ text, isDigit b = true) (hne : text ≠ [])
    (hzero : text.head? = some 0x30 → text = [0x30]) (sign : Bool) :
    isNumber (if sign then 0x2D :: text else text) = true := by
  have hall : text.takeWhile isDigit = text ∧ text.dropWhile isDigit = [] :=
    ⟨takeWhile_eq_self_iff.mpr h, dropWhile_eq_nil_iff.mpr h⟩
  have hsign : text.head? ≠ some 0x2D := by
    intro hhead
    exact absurd (h 0x2D (mem_of_mem_head? hhead)) (by decide)
  rw [imp_iff_not_or] at hzero
  cases sign <;> simp [isNumber, hsign, hall, hne, hzero, isFraction]

theorem denotes_decimal : Denotes (decimal n) (.number (decimal n)) :=
  denotes_number (fun b hb => isNumberByte_digit b (isDigit_decimal n b hb))
    (digits_number (decimal n) (isDigit_decimal n) (decimal_ne_nil n) (decimal_head n) false)

theorem decimal_length_le {k : ℕ} (hk : 0 < k) (h : n < 10^k) : (decimal n).length ≤ k := by
  rw [decimal, length_map]
  exact (Nat.length_toDigits_le_iff (by decide) hk).mpr h

def intText (z : ℤ) : Bytes := if z < 0 then 0x2D :: decimal z.natAbs else decimal z.natAbs

theorem denotes_int (z : ℤ) : Denotes (intText z) (.number (intText z)) := by
  have hnumber := digits_number (decimal z.natAbs) (isDigit_decimal _) (decimal_ne_nil _)
    (decimal_head _) (decide (z < 0))
  rw [intText]
  by_cases hz : z < 0
  · rw [if_pos hz]
    rw [decide_eq_true hz, if_pos rfl] at hnumber
    apply denotes_number _ hnumber
    intro c hc
    rcases mem_cons.mp hc with rfl | hc
    · decide
    · exact isNumberByte_digit c (isDigit_decimal _ c hc)
  · rw [if_neg hz]
    exact denotes_decimal _

end JsonText
