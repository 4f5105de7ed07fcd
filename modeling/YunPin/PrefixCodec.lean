import YunPin.SortedMap

/-! Self-delimiting binary codecs: a decoder reads exactly what the encoder wrote,
whatever follows. Codecs of compound types are put together from smaller ones. -/

/-- A codec of `α`; the decoder returns what follows. -/
structure PrefixCodec (α : Type) where
  encode : α → List UInt8
  decode : List UInt8 → Option (α × List UInt8)
  decode_encode : ∀ a rest, decode (encode a ++ rest) = some (a, rest)

namespace PrefixCodec
open List Option

variable {α β : Type}

/-- The codec of a type that is coded as another one. -/
def retype (c : PrefixCodec α) (pack : α → β) (unpack : β → α)
    (h : ∀ b, pack (unpack b) = b) : PrefixCodec β where
  encode b := c.encode (unpack b)
  decode bytes := (c.decode bytes).map (fun r => (pack r.1, r.2))
  decode_encode b rest := by rw [c.decode_encode, map_some, h]

def pair (c : PrefixCodec α) (d : PrefixCodec β) : PrefixCodec (α × β) where
  encode p := c.encode p.1 ++ d.encode p.2
  decode bytes :=
    match c.decode bytes with
    | none => none
    | some (a, rest) => (d.decode rest).map (fun r => ((a, r.1), r.2))
  decode_encode p rest := by
    rw [append_assoc, c.decode_encode]
    simp only [d.decode_encode, map_some]

def byte : PrefixCodec UInt8 where
  encode b := [b]
  decode bytes :=
    match bytes with
    | [] => none
    | b :: rest => some (b, rest)
  decode_encode _ _ := rfl

def decodeUnary : List UInt8 → Option (ℕ × List UInt8)
  | [] => none
  | b :: rest => if b = 1 then (decodeUnary rest).map (fun r => (r.1+1, r.2)) else some (0, rest)

/-- In unary: short to state, and the samples have small numbers. -/
def nat : PrefixCodec ℕ where
  encode n := List.replicate n 1 ++ [0]
  decode := decodeUnary
  decode_encode n rest := by
    induction n with
    | zero => rfl
    | succ n ih =>
      rw [replicate_succ, cons_append, cons_append, decodeUnary, if_pos rfl, ih,
        map_some]

def decodeMany (c : PrefixCodec α) : ℕ → List UInt8 → Option (List α × List UInt8)
  | 0, bytes => some ([], bytes)
  | n+1, bytes =>
    match c.decode bytes with
    | none => none
    | some (a, rest) => (decodeMany c n rest).map (fun r => (a :: r.1, r.2))

theorem decodeMany_flatMap (c : PrefixCodec α) (l : List α) {rest : List UInt8} :
    decodeMany c l.length (l.flatMap c.encode ++ rest) = some (l, rest) := by
  induction l with
  | nil => rfl
  | cons a l ih =>
    rw [flatMap_cons, append_assoc, length_cons, decodeMany, c.decode_encode]
    simp only [ih, map_some]

def list (c : PrefixCodec α) : PrefixCodec (List α) where
  encode l := nat.encode l.length ++ l.flatMap c.encode
  decode bytes :=
    match nat.decode bytes with
    | none => none
    | some (n, rest) => decodeMany c n rest
  decode_encode l rest := by
    rw [append_assoc, nat.decode_encode]
    exact decodeMany_flatMap c l

def bool : PrefixCodec Bool := nat.retype (fun n => decide (n ≠ 0)) Bool.toNat (by decide)

def int : PrefixCodec ℤ :=
  (nat.pair bool).retype (fun p => if p.2 then -p.1 else p.1) (fun i => (i.natAbs, decide (i < 0)))
    (by intro i; simp only [decide_eq_true_eq]; split_ifs <;> omega)

def uint64 : PrefixCodec UInt64 := nat.retype UInt64.ofNat UInt64.toNat (fun _ => UInt64.ofNat_toNat)

def option (c : PrefixCodec α) : PrefixCodec (Option α) :=
  c.list.retype List.head? Option.toList (by intro o; cases o <;> rfl)

def sortedMap {K V : Type} [LinearOrder K] (c : PrefixCodec (K × V)) :
    PrefixCodec (SortedMap K V) :=
  c.list.retype SortedMap.ofList SortedMap.entries SortedMap.ofList_entries

end PrefixCodec
