import YunPin.ByteText

/-! The UTF-8 loop that the C++ front end writes out in several functions: it decodes the scalars of
a text and gives up on any malformed, overlong, surrogate or out-of-range encoding. -/
namespace YunPin.ScalarText
open ByteText

/-- What the first byte says: its bits of the code point, the width and the least code point. -/
def leadByte (first : ℕ) : Option (ℕ × ℕ × ℕ) :=
  if first < 0x80 then some (first, 1, 0)
  else if first &&& 0xE0 = 0xC0 then some (first &&& 0x1F, 2, 0x80)
  else if first &&& 0xF0 = 0xE0 then some (first &&& 0x0F, 3, 0x800)
  else if first &&& 0xF8 = 0xF0 then some (first &&& 0x07, 4, 0x10000)
  else none

def decodeScalar (first : UInt8) (rest : Bytes) : Option (ℕ × ℕ) :=
  match leadByte first.toNat with
  | none => none
  | some (bits, width, minimum) =>
    let continuation := rest.take (width-1)
    if continuation.length < width-1 ∨
        ¬continuation.all (fun b => decide (b.toNat &&& 0xC0 = 0x80)) then none
    else
      let codepoint := continuation.foldl (fun c b => (c <<< 6) ||| (b.toNat &&& 0x3F)) bits
      if (width > 1 ∧ codepoint < minimum) ∨ codepoint > 0x10FFFF ∨
          (0xD800 ≤ codepoint ∧ codepoint ≤ 0xDFFF) then none
      else some (codepoint, width)

def scalarsFrom : (skip : ℕ) → Bytes → Option (List ℕ)
  | _, [] => some []
  | skip+1, _ :: rest => scalarsFrom skip rest
  | 0, first :: rest =>
    match decodeScalar first rest with
    | none => none
    | some (codepoint, width) => (scalarsFrom (width-1) rest).map (codepoint :: ·)

def scalars (text : Bytes) : Option (List ℕ) := scalarsFrom 0 text

def utf8ScalarCount (text : Bytes) : Option ℕ :=
  match scalars text with
  | none => none
  | some [] => none
  | some cs => some cs.length

def isDirectionalControl (codepoint : ℕ) : Bool :=
  (0x202A ≤ codepoint ∧ codepoint ≤ 0x202E) ∨ (0x2066 ≤ codepoint ∧ codepoint ≤ 0x2069)

def countSafeUtf8 (value : Bytes) : Option ℕ :=
  match scalars value with
  | none => none
  | some cs => if cs.any isDirectionalControl then none else some cs.length

def isCjkIdeograph (codepoint : ℕ) : Bool :=
  (0x3400 ≤ codepoint ∧ codepoint ≤ 0x4DBF) ∨ (0x4E00 ≤ codepoint ∧ codepoint ≤ 0x9FFF) ∨
    (0xF900 ≤ codepoint ∧ codepoint ≤ 0xFAFF) ∨ (0x20000 ≤ codepoint ∧ codepoint ≤ 0x2FA1F) ∨
    (0x30000 ≤ codepoint ∧ codepoint ≤ 0x323AF)

def isPureCjkAtLeast (text : Bytes) (minimumScalars : ℕ) : Bool :=
  match scalars text with
  | none => false
  | some cs => cs.all isCjkIdeograph ∧ minimumScalars ≤ cs.length

theorem utf8ScalarCount_of_safe {text : Bytes} {n : ℕ} (h : countSafeUtf8 text = some n)
    (hn : n ≠ 0) : utf8ScalarCount text = some n := by
  rw [countSafeUtf8] at h
  rw [utf8ScalarCount]
  cases hs : scalars text with
  | none =>
    rw [hs] at h
    cases h
  | some cs =>
    rw [hs] at h
    dsimp only at h
    split_ifs at h
    cases h
    cases cs with
    | nil => exact absurd rfl hn
    | cons c cs => rfl

end YunPin.ScalarText
