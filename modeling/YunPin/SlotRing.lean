import Mathlib

/-! A ring of slots between one writer and one reader. Both count from the start, and the number of
a slot is a count modulo the size, so an index that has wrapped is told apart by its count. -/
namespace SlotRing
open List

variable {α : Type*} {n : ℕ} [NeZero n]

/-- The slots from the reader's to the writer's hold what was written and not yet read. One slot
stays free, since equal indices mean an empty ring. -/
structure Holds (slots : Fin n → α) (head tail : Fin n) (written : List α) (read : ℕ) : Prop where
  head : head = Fin.ofNat n written.length
  tail : tail = Fin.ofNat n read
  read_le : read ≤ written.length
  room : written.length < read+n
  kept : ∀ i a, read ≤ i → written[i]? = some a → slots (Fin.ofNat n i) = a

theorem eq_of_ofNat_eq {i j : ℕ} (h : Fin.ofNat n i = Fin.ofNat n j) (hle : i ≤ j)
    (hlt : j < i+n) : i = j := by
  have hdvd : n ∣ j-i := (Nat.modEq_iff_dvd' hle).mp (congrArg Fin.val h)
  have hzero : j-i = 0 := Nat.eq_zero_of_dvd_of_lt hdvd (by omega)
  omega

theorem ofNat_next (i : ℕ) : Fin.ofNat n ((Fin.ofNat n i).val+1) = Fin.ofNat n (i+1) :=
  Fin.ext (Nat.mod_add_mod i n 1)

namespace Holds

variable {slots : Fin n → α} {head tail : Fin n} {written : List α} {read : ℕ}
  (h : Holds slots head tail written read)
include h

theorem space (hne : Fin.ofNat n (head.val+1) ≠ tail) : written.length+1 < read+n := by
  refine lt_of_le_of_ne h.room (fun hfull => hne ?_)
  rw [h.head, ofNat_next, hfull, h.tail]
  exact Fin.ext (Nat.add_mod_right read n)

theorem unread (hne : tail ≠ head) : read < written.length := by
  refine lt_of_le_of_ne h.read_le (fun hempty => hne ?_)
  rw [h.tail, h.head, hempty]

theorem front (hlt : read < written.length) : written[read]? = some (slots tail) := by
  rw [getElem?_eq_getElem hlt, h.tail, h.kept read _ le_rfl (getElem?_eq_getElem hlt)]

/-- Writing at the head touches nothing that is still to be read. -/
theorem fill (a : α) : Holds (Function.update slots head a) head tail written read := by
  refine { h with kept := fun i b hi hb => ?_ }
  have hlt : i < written.length := (List.getElem?_eq_some_iff.mp hb).1
  have hroom := h.room
  have hne : Fin.ofNat n i ≠ head := by
    intro heq
    have hsame := eq_of_ofNat_eq (heq.trans h.head) hlt.le (by omega)
    omega
  rw [Function.update_of_ne hne]
  exact h.kept i b hi hb

theorem publish (hspace : written.length+1 < read+n) :
    Holds slots (Fin.ofNat n (head.val+1)) tail (written ++ [slots head]) read where
  head := by rw [h.head, ofNat_next, length_append, length_singleton]
  tail := h.tail
  read_le := h.read_le.trans (by simp)
  room := by rwa [length_append, length_singleton]
  kept i b hi hb := by
    rcases lt_or_ge i written.length with hlt | hge
    · rw [getElem?_append_left hlt] at hb
      exact h.kept i b hi hb
    · rw [getElem?_append_right hge, getElem?_singleton] at hb
      split_ifs at hb with hlast
      rw [show i = written.length by omega, ← h.head]
      exact Option.some.inj hb

theorem advance (hlt : read < written.length) :
    Holds slots head (Fin.ofNat n (tail.val+1)) written (read+1) :=
  { h with
    tail := by rw [h.tail, ofNat_next]
    read_le := hlt
    room := h.room.trans (by omega)
    kept := fun i b hi hb => h.kept i b (by omega) hb }

end Holds
end SlotRing
