import Mathlib

/-! Maps of bit words that respect exclusive or. They are determined by their values on
the powers of two, so an identity between two of them is a finite check. -/
namespace XorLinear
open List

/-- The map respects exclusive or. -/
def Additive (f : ℕ → ℕ) : Prop := ∀ x y, f (x ^^^ y) = f x ^^^ f y

variable {f g : ℕ → ℕ}

theorem Additive.zero (hf : Additive f) : f 0 = 0 := by
  have h := hf 0 0
  rwa [Nat.xor_self, Nat.xor_self] at h

theorem additive_id : Additive (fun x => x) := fun _ _ => rfl

theorem Additive.comp (hf : Additive f) (hg : Additive g) : Additive (fun x => f (g x)) := by
  intro x y
  show f (g (x ^^^ y)) = _
  rw [hg, hf]

theorem Additive.xor (hf : Additive f) (hg : Additive g) : Additive (fun x => f x ^^^ g x) := by
  intro x y
  show f (x ^^^ y) ^^^ g (x ^^^ y) = (f x ^^^ g x) ^^^ (f y ^^^ g y)
  rw [hf, hg]
  ac_rfl

theorem additive_and (m : ℕ) : Additive (fun x => x &&& m) := fun _ _ => Nat.and_xor_distrib_right

theorem additive_shiftLeft (n : ℕ) : Additive (fun x => x <<< n) := fun _ _ =>
  Nat.shiftLeft_xor_distrib

theorem additive_shiftRight (n : ℕ) : Additive (fun x => x >>> n) := fun _ _ =>
  Nat.shiftRight_xor_distrib

theorem additive_bit (n g : ℕ) : Additive (fun x => x/2^n%2*g) := by
  intro x y
  have hbit : (x ^^^ y)/2^n%2 = (x/2^n%2) ^^^ (y/2^n%2) := by
    rw [← Nat.shiftRight_eq_div_pow, Nat.shiftRight_xor_distrib, ← pow_one 2,
      Nat.xor_mod_two_pow, pow_one, Nat.shiftRight_eq_div_pow, Nat.shiftRight_eq_div_pow]
  show (x ^^^ y)/2^n%2*g = (x/2^n%2*g) ^^^ (y/2^n%2*g)
  rw [hbit]
  rcases Nat.mod_two_eq_zero_or_one (x/2^n) with hx | hx <;>
    rcases Nat.mod_two_eq_zero_or_one (y/2^n) with hy | hy <;> simp [hx, hy]

/-- Two such maps agree on all words when they agree on the powers of two. -/
theorem Additive.ext (hf : Additive f) (hg : Additive g) (n : ℕ) (h : ∀ i < n, f (2^i) = g (2^i)) :
    ∀ v < 2^n, f v = g v := by
  induction n with
  | zero =>
    intro v hv
    obtain rfl : v = 0 := by omega
    rw [hf.zero, hg.zero]
  | succ n ih =>
    intro v hv
    -- Split off the highest bit.
    have hlow : ∀ w < 2^n, f w = g w := ih (fun i hi => h i (by omega))
    by_cases hbit : v < 2^n
    · exact hlow v hbit
    · have hv' : v ^^^ 2^n < 2^n := by
        apply Nat.lt_pow_two_of_testBit
        intro i hi
        rw [Nat.testBit_xor, Nat.testBit_two_pow]
        by_cases hin : n = i
        · subst hin
          have htop : v.testBit n = true := by
            rw [Nat.testBit_eq_decide_div_mod_eq, decide_eq_true_eq]
            have hdiv : v/2^n = 1 := Nat.div_eq_of_lt_le (by omega) (by rw [pow_succ] at hv; omega)
            rw [hdiv]
          rw [htop]
          simp
        · have hhigh : v.testBit i = false :=
            Nat.testBit_eq_false_of_lt (hv.trans_le (Nat.pow_le_pow_right (by decide) (by omega)))
          rw [hhigh]
          simp [hin]
      have hsplit : v = (v ^^^ 2^n) ^^^ 2^n := (Nat.xor_xor_cancel_right v (2^n)).symm
      rw [hsplit, hf, hg, hlow _ hv', h n (by omega)]

theorem shiftLeft_xor_of_lt {a n b : ℕ} (h : b < 2^n) : (a <<< n) ^^^ b = a*2^n+b := by
  rw [← Nat.shiftLeft_eq, Nat.shiftLeft_add_eq_or_of_lt h]
  apply Nat.eq_of_testBit_eq
  intro i
  rw [Nat.testBit_xor, Nat.testBit_or, Nat.testBit_shiftLeft]
  by_cases hi : n ≤ i
  · rw [Nat.testBit_eq_false_of_lt (h.trans_le (Nat.pow_le_pow_right (by decide) hi))]
    simp
  · simp [hi]

theorem Additive.foldl (hf : Additive f) (a b : ℕ) (xs ys : List ℕ) (h : xs.length = ys.length) :
    xs.foldl (fun c v => f c ^^^ v) a ^^^ ys.foldl (fun c v => f c ^^^ v) b =
      (List.zipWith (· ^^^ ·) xs ys).foldl (fun c v => f c ^^^ v) (a ^^^ b) := by
  induction xs generalizing a b ys with
  | nil =>
    obtain rfl := length_eq_zero_iff.mp h.symm
    rfl
  | cons x xs ih =>
    match ys, h with
    | y :: ys, h =>
      rw [foldl_cons, foldl_cons, zipWith_cons_cons, foldl_cons,
        ih _ _ ys (Nat.succ.inj h), hf]
      congr 1
      ac_rfl

end XorLinear
