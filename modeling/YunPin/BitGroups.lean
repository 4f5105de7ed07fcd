import Mathlib

/-! Numbers as groups of bits, highest group first. A list of groups of known length is
determined by its number. -/
namespace BitGroups
open List

/-- The number that the groups of `b` bits make up. -/
def value (b : ℕ) (groups : List ℕ) : ℕ := groups.foldl (fun v d => v*2^b+d) 0

theorem value_concat (b : ℕ) (groups : List ℕ) (d : ℕ) :
    value b (groups ++ [d]) = value b groups*2^b+d := by
  rw [value, foldl_append]
  rfl

theorem value_lt {b : ℕ} {groups : List ℕ} (h : ∀ d ∈ groups, d < 2^b) :
    value b groups < 2^(b*groups.length) := by
  induction groups using List.reverseRecOn with
  | nil => simp [value]
  | append_singleton groups d ih =>
    have hd := h d (by simp)
    have hlt := ih (fun x hx => h x (by simp [hx]))
    rw [value_concat, length_append, length_singleton, Nat.mul_add, pow_add, Nat.mul_one]
    calc value b groups*2^b+d < (value b groups+1)*2^b := by rw [Nat.add_mul]; omega
      _ ≤ 2^(b*groups.length)*2^b := Nat.mul_le_mul_right _ hlt

/-- Groups of `b` bits can be read off the number when one knows how many there are. -/
theorem value_injective {b : ℕ} (xs ys : List ℕ) (hlen : xs.length = ys.length)
    (hx : ∀ d ∈ xs, d < 2^b) (hy : ∀ d ∈ ys, d < 2^b) (h : value b xs = value b ys) : xs = ys := by
  induction xs using List.reverseRecOn generalizing ys with
  | nil => exact (length_eq_zero_iff.mp hlen.symm).symm
  | append_singleton xs d ih =>
    rcases eq_nil_or_concat ys with rfl | ⟨ys, e, rfl⟩
    · simp at hlen
    · rw [concat_eq_append] at *
      simp only [length_append, length_singleton, Nat.add_right_cancel_iff] at hlen
      have hd := hx d (by simp)
      have he := hy e (by simp)
      rw [value_concat, value_concat] at h
      have hde : d = e := by
        have hmod := congrArg (· % 2^b) h
        simpa [Nat.mul_add_mod', Nat.mod_eq_of_lt hd, Nat.mod_eq_of_lt he] using hmod
      subst hde
      have hq : value b xs = value b ys :=
        Nat.eq_of_mul_eq_mul_right (Nat.two_pow_pos b) (Nat.add_right_cancel h)
      rw [ih ys hlen (fun x hx' => hx x (by simp [hx'])) (fun x hx' => hy x (by simp [hx'])) hq]

end BitGroups
