import YunPin.XorLinear

/-! Vectors over the field of 32 elements, packed five bits to a coordinate into words of
30 bits. The field is GF(2)[α] with α⁵ = α³+1; a scalar is the number whose bits are its
coefficients. Three vectors are shown to be independent by eliminating a coordinate and
comparing what is left up to a scalar. -/
namespace QuintetWords
open XorLinear List

def timesAlpha (v : ℕ) : ℕ :=
  ((v &&& 0x1ef7bdef) <<< 1) ^^^ ((v >>> 4) &&& 0x2108421) ^^^ (((v >>> 4) &&& 0x2108421) <<< 3)

def smul (s v : ℕ) : ℕ :=
  (s%2)*v ^^^ (s/2%2)*timesAlpha v ^^^ (s/4%2)*timesAlpha (timesAlpha v) ^^^
    (s/8%2)*timesAlpha (timesAlpha (timesAlpha v)) ^^^
    (s/16%2)*timesAlpha (timesAlpha (timesAlpha (timesAlpha v)))

def inverse (s : ℕ) : ℕ := (0x7ecedf3aa39c322bc656feb8649165eb10ac5020 >>> (5*s)) &&& 31

def quintet (p v : ℕ) : ℕ := (v >>> (5*p)) &&& 31

theorem additive_timesAlpha : Additive timesAlpha :=
  ((additive_shiftLeft 1).comp (additive_and 0x1ef7bdef)).xor
    ((additive_and 0x2108421).comp (additive_shiftRight 4)) |>.xor
    ((additive_shiftLeft 3).comp ((additive_and 0x2108421).comp (additive_shiftRight 4)))

variable (q p s : ℕ) (ss vs : List ℕ) (v : ℕ)

theorem additive_quintet : Additive (quintet p) :=
  (additive_and 31).comp (additive_shiftRight (5*p))

theorem additive_scale (b : ℕ) (f : ℕ → ℕ) (hf : Additive f) : Additive (fun v => b%2*f v) := by
  intro x y
  show b%2*f (x ^^^ y) = (b%2*f x) ^^^ (b%2*f y)
  rw [hf]
  rcases Nat.mod_two_eq_zero_or_one b with h | h <;> simp [h]

theorem additive_smul : Additive (smul s) := by
  have h1 := additive_timesAlpha
  have h2 := h1.comp h1
  have h3 := h1.comp h2
  have h4 := h1.comp h3
  exact ((((additive_scale s _ additive_id).xor (additive_scale (s/2) _ h1)).xor
    (additive_scale (s/4) _ h2)).xor (additive_scale (s/8) _ h3)).xor (additive_scale (s/16) _ h4)

theorem additive_smul_left : Additive (fun s => smul s v) := by
  have h0 := additive_bit 0 v
  simp only [pow_zero, Nat.div_one] at h0
  exact (((h0.xor (additive_bit 1 _)).xor (additive_bit 2 _)).xor (additive_bit 3 _)).xor
    (additive_bit 4 _)

def Word (v : ℕ) : Prop := v < 2^30

theorem word_xor {v w : ℕ} (hv : Word v) (hw : Word w) : Word (v ^^^ w) := Nat.xor_lt_two_pow hv hw

theorem word_zero : Word 0 := Nat.two_pow_pos 30

theorem word_timesAlpha : Word (timesAlpha v) := by
  have hlow : (v &&& 0x1ef7bdef) <<< 1 < 2^30 := by
    rw [Nat.shiftLeft_eq]
    have : v &&& 0x1ef7bdef ≤ 0x1ef7bdef := Nat.and_le_right
    omega
  have hcarry : (v >>> 4) &&& 0x2108421 ≤ 0x2108421 := Nat.and_le_right
  have hhigh : ((v >>> 4) &&& 0x2108421) <<< 3 < 2^30 := by
    rw [Nat.shiftLeft_eq]
    omega
  exact word_xor (word_xor hlow (show _ < 2^30 by omega)) hhigh

theorem word_smul (s : ℕ) {v : ℕ} (hv : Word v) : Word (smul s v) := by
  have hscale (b w : ℕ) (hw : Word w) : Word (b%2*w) := by
    rcases Nat.mod_two_eq_zero_or_one b with h | h
    · rw [h, Nat.zero_mul]
      exact word_zero
    · rwa [h, Nat.one_mul]
  exact word_xor (word_xor (word_xor (word_xor (hscale _ _ hv) (hscale _ _ (word_timesAlpha _)))
    (hscale _ _ (word_timesAlpha _))) (hscale _ _ (word_timesAlpha _))) (hscale _ _ (word_timesAlpha _))

theorem timesAlpha_five (hv : Word v) :
    timesAlpha (timesAlpha (timesAlpha (timesAlpha (timesAlpha v)))) =
      timesAlpha (timesAlpha (timesAlpha v)) ^^^ v := by
  have h1 := additive_timesAlpha
  have h3 := h1.comp (h1.comp h1)
  exact (h1.comp (h1.comp h3)).ext (h3.xor additive_id) 30 (by decide) v hv

theorem smul_one : smul 1 v = v := by simp [smul]

theorem timesAlpha_smul (hs : s < 32) (hv : Word v) :
    timesAlpha (smul s v) = smul (timesAlpha s) v := by
  -- Both sides are additive in the scalar.
  have hbasis : ∀ i < 5, timesAlpha (smul (2^i) v) = smul (timesAlpha (2^i)) v := by
    intro i hi
    interval_cases i
    · rw [show timesAlpha (2^0) = 2 by decide]
      simp [smul]
    · rw [show timesAlpha (2^1) = 4 by decide]
      simp [smul]
    · rw [show timesAlpha (2^2) = 8 by decide]
      simp [smul]
    · rw [show timesAlpha (2^3) = 16 by decide]
      simp [smul]
    · rw [show timesAlpha (2^4) = 9 by decide]
      simp only [smul]
      norm_num
      rw [timesAlpha_five v hv, Nat.xor_comm]
  exact (additive_timesAlpha.comp (additive_smul_left v)).ext
    ((additive_smul_left v).comp additive_timesAlpha) 5 hbasis s hs

theorem timesAlpha_lt (h : s < 32) : timesAlpha s < 32 := by
  revert s
  decide

theorem smul_lt {s t : ℕ} (h : t < 32) : smul s t < 32 := by
  have hscale (b w : ℕ) (hw : w < 2^5) : b%2*w < 2^5 := by
    rcases Nat.mod_two_eq_zero_or_one b with h | h <;> rw [h] <;> omega
  have h1 := timesAlpha_lt t h
  have h2 := timesAlpha_lt _ h1
  have h3 := timesAlpha_lt _ h2
  have h4 := timesAlpha_lt _ h3
  exact Nat.xor_lt_two_pow (Nat.xor_lt_two_pow (Nat.xor_lt_two_pow (Nat.xor_lt_two_pow
    (hscale s t h) (hscale (s/2) _ h1)) (hscale (s/4) _ h2)) (hscale (s/8) _ h3)) (hscale (s/16) _ h4)

theorem xor_lt {s t : ℕ} (hs : s < 32) (ht : t < 32) : s ^^^ t < 32 :=
  show s ^^^ t < 2^5 from Nat.xor_lt_two_pow hs ht

theorem smul_smul {t v : ℕ} (ht : t < 32) (hv : Word v) :
    smul s (smul t v) = smul (smul s t) v := by
  have hscale (b x : ℕ) : b%2*smul x v = smul (b%2*x) v := by
    rcases Nat.mod_two_eq_zero_or_one b with h | h
    · rw [h, Nat.zero_mul, Nat.zero_mul]
      exact ((additive_smul_left v).zero).symm
    · rw [h, Nat.one_mul, Nat.one_mul]
  have h1 := timesAlpha_lt t ht
  have h2 := timesAlpha_lt _ h1
  have h3 := timesAlpha_lt _ h2
  have hl := additive_smul_left v
  rw [smul, timesAlpha_smul t v ht hv, timesAlpha_smul _ v h1 hv, timesAlpha_smul _ v h2 hv,
    timesAlpha_smul _ v h3 hv, hscale, hscale, hscale, hscale, hscale, ← hl, ← hl, ← hl, ← hl]
  rfl

theorem smul_scalar_one (h : s < 32) : smul s 1 = s := by
  revert s
  decide

theorem inverse_lt : inverse s < 32 :=
  Nat.lt_succ_of_le (Nat.and_le_right : _ &&& 31 ≤ 31)

theorem inverse_smul (h : s < 32) (hne : s ≠ 0) : smul (inverse s) s = 1 := by
  revert s
  decide

theorem inverse_smul_smul (h : s < 32) (hne : s ≠ 0) (hv : Word v) :
    smul (inverse s) (smul s v) = v := by
  rw [smul_smul _ h hv, inverse_smul s h hne, smul_one]

theorem smul_zero : smul s 0 = 0 := (additive_smul s).zero

theorem zero_smul : smul 0 v = 0 := (additive_smul_left v).zero

theorem smul_eq_zero (h : s < 32) (hne : s ≠ 0) (hv : Word v) (hz : smul s v = 0) : v = 0 := by
  rw [← inverse_smul_smul s v h hne hv, hz, smul_zero]

theorem quintet_lt : quintet p v < 32 :=
  Nat.lt_succ_of_le (Nat.and_le_right : _ &&& 31 ≤ 31)

theorem map_smul {f : ℕ → ℕ} (hf : Additive f) (h : ∀ v, Word v → f (timesAlpha v) = timesAlpha (f v))
    (s v : ℕ) (hv : Word v) : f (smul s v) = smul s (f v) := by
  have hscale (b w : ℕ) : f (b%2*w) = b%2*f w := by
    rcases Nat.mod_two_eq_zero_or_one b with hb | hb
    · rw [hb, Nat.zero_mul, Nat.zero_mul, hf.zero]
    · rw [hb, Nat.one_mul, Nat.one_mul]
  have h1 : f (timesAlpha v) = timesAlpha (f v) := h v hv
  have h2 : f (timesAlpha (timesAlpha v)) = timesAlpha (timesAlpha (f v)) := by
    rw [h _ (word_timesAlpha _), h1]
  have h3 : f (timesAlpha (timesAlpha (timesAlpha v))) =
      timesAlpha (timesAlpha (timesAlpha (f v))) := by
    rw [h _ (word_timesAlpha _), h2]
  have h4 : f (timesAlpha (timesAlpha (timesAlpha (timesAlpha v)))) =
      timesAlpha (timesAlpha (timesAlpha (timesAlpha (f v)))) := by
    rw [h _ (word_timesAlpha _), h3]
  rw [smul, hf, hf, hf, hf, hscale, hscale, hscale, hscale, hscale, h1, h2, h3, h4]
  rfl

theorem quintet_timesAlpha (hp : p < 6) (v : ℕ) (hv : Word v) :
    quintet p (timesAlpha v) = timesAlpha (quintet p v) := by
  have hbasis : ∀ p < 6, ∀ i < 30, quintet p (timesAlpha (2^i)) = timesAlpha (quintet p (2^i)) := by
    decide
  exact ((additive_quintet p).comp additive_timesAlpha).ext
    (additive_timesAlpha.comp (additive_quintet p)) 30 (hbasis p hp) v hv

theorem quintet_smul (hp : p < 6) (s v : ℕ) (hv : Word v) :
    quintet p (smul s v) = smul s (quintet p v) :=
  map_smul (additive_quintet p) (quintet_timesAlpha p hp) s v hv

theorem drop_timesAlpha (hv : Word v) : timesAlpha v >>> 5 = timesAlpha (v >>> 5) :=
  ((additive_shiftRight 5).comp additive_timesAlpha).ext
    (additive_timesAlpha.comp (additive_shiftRight 5)) 30 (by decide) v hv

theorem quintet_eq : quintet p v = v/2^(5*p)%32 := by
  rw [quintet, Nat.shiftRight_eq_div_pow, show (31 : ℕ) = 2^5-1 by decide,
    Nat.and_two_pow_sub_one_eq_mod]

def pivot (v : ℕ) : ℕ :=
  if quintet 0 v ≠ 0 then 0 else if quintet 1 v ≠ 0 then 1 else if quintet 2 v ≠ 0 then 2
  else if quintet 3 v ≠ 0 then 3 else 4

/-- Subtract the multiple of `q` that has the same coordinate at the pivot of `q`. -/
def reduce (q v : ℕ) : ℕ :=
  v ^^^ smul (smul (quintet (pivot q) v) (inverse (quintet (pivot q) q))) q

def normal (v : ℕ) : ℕ := smul (inverse (quintet (pivot v) v)) v

def distinct : List ℕ → Bool
  | [] => true
  | x :: rest => rest.all (fun y => !Nat.beq x y) && distinct rest

/-- No vector of the list is zero, and none is a combination of two others. -/
def cap : List ℕ → Bool
  | [] => true
  | q :: rest => !Nat.beq q 0 && (rest.map (reduce q)).all (fun r => !Nat.beq r 0) &&
      distinct ((rest.map (reduce q)).map normal) && cap rest

theorem pivot_lt : pivot v < 5 := by
  unfold pivot
  split_ifs <;> omega

theorem quintet_pivot (hv : v < 2^25) (hne : v ≠ 0) : quintet (pivot v) v ≠ 0 := by
  unfold pivot
  split_ifs with h0 h1 h2 h3
  · exact h0
  · exact h1
  · exact h2
  · exact h3
  · simp only [quintet_eq] at *
    norm_num at *
    omega

theorem pivot_smul (hs : s < 32) (hne : s ≠ 0) (hv : Word v) : pivot (smul s v) = pivot v := by
  have h (p : ℕ) (hp : p < 6) : quintet p (smul s v) ≠ 0 ↔ quintet p v ≠ 0 := by
    rw [quintet_smul p hp s v hv]
    refine not_congr ⟨fun hz => smul_eq_zero s _ hs hne ?_ hz, fun hz => by rw [hz, smul_zero]⟩
    exact (quintet_lt p v).trans (by decide)
  simp only [pivot, h 0 (by decide), h 1 (by decide), h 2 (by decide), h 3 (by decide)]

theorem normal_smul (hs : s < 32) (hne : s ≠ 0) (hv : v < 2^25) (hv0 : v ≠ 0) :
    normal (smul s v) = normal v := by
  have hword : Word v := hv.trans (by decide)
  have hinv : ∀ s < 32, ∀ x < 32, s ≠ 0 → x ≠ 0 → smul (inverse (smul s x)) s = inverse x := by
    decide
  have hp : pivot v < 6 := (pivot_lt v).trans (by decide)
  rw [normal, pivot_smul s v hs hne hword, quintet_smul _ hp s v hword, smul_smul _ hs hword,
    hinv s hs _ (quintet_lt _ _) hne (quintet_pivot v hv hv0)]
  rfl

theorem quintet_reduce (hq : q < 2^25) (hq0 : q ≠ 0) : quintet (pivot q) (reduce q v) = 0 := by
  have hword : Word q := hq.trans (by decide)
  have hp : pivot q < 6 := (pivot_lt q).trans (by decide)
  have hx := quintet_lt (pivot q) q
  have hx0 := quintet_pivot q hq hq0
  have hxw : Word (quintet (pivot q) q) := hx.trans (by decide)
  rw [reduce, additive_quintet, quintet_smul _ hp _ q hword,
    ← smul_smul _ (inverse_lt _) hxw, inverse_smul _ hx hx0,
    smul_scalar_one _ (quintet_lt _ _), Nat.xor_self]

theorem smul_lt_five (hv : v < 2^25) : smul s v < 2^25 := by
  have hword : Word v := hv.trans (by decide)
  have htop : quintet 5 (smul s v) = 0 := by
    have hzero : quintet 5 v = 0 := by
      rw [quintet_eq]
      omega
    rw [quintet_smul 5 (by decide) s v hword, hzero, smul_zero]
  have hsmul : smul s v < 2^30 := word_smul s hword
  rw [quintet_eq] at htop
  omega

theorem reduce_lt (hq : q < 2^25) (hv : v < 2^25) : reduce q v < 2^25 :=
  Nat.xor_lt_two_pow hv (smul_lt_five _ q hq)

def comb : List ℕ → List ℕ → ℕ
  | s :: ss, v :: vs => smul s v ^^^ comb ss vs
  | _, _ => 0

def weight (ss : List ℕ) : ℕ := ss.countP (fun s => s ≠ 0)

theorem weight_cons : weight (s :: ss) = weight ss+if s = 0 then 0 else 1 := by
  by_cases h : s = 0 <;> simp [weight, h]

theorem comb_eq_zero_of_weight (h : weight ss = 0) : comb ss vs = 0 := by
  induction ss generalizing vs with
  | nil => rfl
  | cons s ss ih =>
    rw [weight_cons] at h
    have hs : s = 0 := by
      by_contra hne
      rw [if_neg hne] at h
      omega
    cases vs with
    | nil => rfl
    | cons v vs => rw [comb, hs, zero_smul, ih vs (by omega), Nat.xor_self]

theorem comb_of_weight_one (hlt : ∀ s ∈ ss, s < 32) (hlen : ss.length ≤ vs.length)
    (h : weight ss = 1) : ∃ t < 32, t ≠ 0 ∧ ∃ v ∈ vs, comb ss vs = smul t v := by
  induction ss generalizing vs with
  | nil => simp [weight] at h
  | cons s ss ih =>
    match vs, hlen with
    | v :: vs, hlen =>
      rw [weight_cons] at h
      by_cases hs : s = 0
      · rw [if_pos hs] at h
        obtain ⟨t, ht, ht0, w, hw, he⟩ := ih vs (forall_mem_cons.mp hlt).2
          (Nat.le_of_succ_le_succ hlen) (by omega)
        refine ⟨t, ht, ht0, w, mem_cons_of_mem _ hw, ?_⟩
        rw [comb, hs, zero_smul, Nat.zero_xor, he]
      · rw [if_neg hs] at h
        refine ⟨s, hlt s mem_cons_self, hs, v, mem_cons_self, ?_⟩
        rw [comb, comb_eq_zero_of_weight ss vs (by omega), Nat.xor_zero]

theorem comb_reduce (hq : q < 2^25) (ss vs : List ℕ) :
    ∃ m < 32, comb ss (vs.map (reduce q)) = comb ss vs ^^^ smul m q := by
  have hword : Word q := hq.trans (by decide)
  induction ss generalizing vs with
  | nil => exact ⟨0, by decide, by rw [comb, comb, zero_smul, Nat.xor_self] <;> simp⟩
  | cons s ss ih =>
    cases vs with
    | nil => exact ⟨0, by decide, by simp [comb, zero_smul]⟩
    | cons v vs =>
      obtain ⟨m, hm, he⟩ := ih vs
      generalize hk : smul (quintet (pivot q) v) (inverse (quintet (pivot q) q)) = k
      have hk32 : k < 32 := hk ▸ smul_lt (inverse_lt _)
      refine ⟨smul s k ^^^ m, xor_lt (smul_lt hk32) hm, ?_⟩
      rw [map_cons, comb, comb, he, reduce, hk, additive_smul, smul_smul s hk32 hword]
      have hadd := additive_smul_left q (smul s k) m
      simp only at hadd
      rw [hadd]
      ac_rfl

theorem quintet_comb (hp : p < 6) (ss vs : List ℕ) (h : ∀ v ∈ vs, Word v ∧ quintet p v = 0) :
    quintet p (comb ss vs) = 0 := by
  induction ss generalizing vs with
  | nil => exact (additive_quintet p).zero
  | cons s ss ih =>
    cases vs with
    | nil => exact (additive_quintet p).zero
    | cons v vs =>
      obtain ⟨hv, hz⟩ := h v mem_cons_self
      rw [comb, additive_quintet, quintet_smul p hp s v hv, hz, smul_zero,
        ih vs (forall_mem_cons.mp h).2, Nat.xor_self]

theorem distinct_cons {x : ℕ} {rest : List ℕ} (h : distinct (x :: rest) = true) :
    x ∉ rest ∧ distinct rest = true := by
  simp only [distinct, Bool.and_eq_true, all_eq_true] at h
  refine ⟨fun hx => ?_, h.2⟩
  have := h.1 x hx
  simp at this

theorem weight_eq_zero_of_distinct (hlt : ∀ s ∈ ss, s < 32) (hlen : ss.length ≤ vs.length)
    (hvs : ∀ v ∈ vs, v < 2^25 ∧ v ≠ 0) (hd : distinct (vs.map normal) = true) (hw : weight ss ≤ 2)
    (hz : comb ss vs = 0) : weight ss = 0 := by
  induction ss generalizing vs with
  | nil => rfl
  | cons s ss ih =>
    match vs, hlen with
    | v :: vs, hlen =>
      obtain ⟨hnew, hd'⟩ := distinct_cons hd
      obtain ⟨hs, hlt'⟩ := forall_mem_cons.mp hlt
      obtain ⟨⟨hv, hv0⟩, hvs'⟩ := forall_mem_cons.mp hvs
      have hlen' : ss.length ≤ vs.length := Nat.le_of_succ_le_succ hlen
      have hword : Word v := hv.trans (by decide)
      rw [weight_cons] at hw ⊢
      rw [comb] at hz
      by_cases hs0 : s = 0
      · rw [hs0, zero_smul, Nat.zero_xor] at hz
        rw [if_pos hs0] at hw ⊢
        exact ih vs hlt' hlen' hvs' hd' hw hz
      · rw [if_neg hs0] at hw
        have heq : smul s v = comb ss vs := Nat.eq_of_xor_eq_zero hz
        exfalso
        rcases Nat.lt_or_ge 0 (weight ss) with hpos | hzero
        · -- Two scalars: the two vectors are proportional.
          obtain ⟨t, ht, ht0, w, hmem, he⟩ := comb_of_weight_one ss vs hlt' hlen' (by omega)
          obtain ⟨hw25, hw0⟩ := hvs' w hmem
          have hww : Word w := hw25.trans (by decide)
          have hne : ∀ s < 32, ∀ t < 32, s ≠ 0 → t ≠ 0 → smul (inverse s) t ≠ 0 := by
            decide
          have hprop : v = smul (smul (inverse s) t) w := by
            rw [← smul_smul _ ht hww, ← he, ← heq, inverse_smul_smul s v hs hs0 hword]
          apply hnew
          rw [hprop, normal_smul _ w (smul_lt ht) (hne s hs t ht hs0 ht0) hw25 hw0]
          exact mem_map_of_mem hmem
        · rw [comb_eq_zero_of_weight ss vs (by omega)] at heq
          exact hv0 (smul_eq_zero s v hs hs0 hword heq)

theorem weight_eq_zero_of_cap (hlt : ∀ s ∈ ss, s < 32) (hlen : ss.length ≤ vs.length)
    (hvs : ∀ v ∈ vs, v < 2^25) (hcap : cap vs = true) (hw : weight ss ≤ 3) (hz : comb ss vs = 0) :
    weight ss = 0 := by
  induction ss generalizing vs with
  | nil => rfl
  | cons s ss ih =>
    match vs, hlen with
    | q :: vs, hlen =>
      simp only [cap, Bool.and_eq_true, Bool.not_eq_true', all_eq_true] at hcap
      obtain ⟨⟨⟨hq, hne⟩, hd⟩, hcap'⟩ := hcap
      have hq0 : q ≠ 0 := Nat.ne_of_beq_eq_false hq
      obtain ⟨hs, hlt'⟩ := forall_mem_cons.mp hlt
      obtain ⟨hq25, hvs'⟩ := forall_mem_cons.mp hvs
      have hlen' : ss.length ≤ vs.length := Nat.le_of_succ_le_succ hlen
      have hword : Word q := hq25.trans (by decide)
      rw [weight_cons] at hw ⊢
      rw [comb] at hz
      by_cases hs0 : s = 0
      · rw [hs0, zero_smul, Nat.zero_xor] at hz
        rw [if_pos hs0] at hw ⊢
        exact ih vs hlt' hlen' hvs' hcap' hw hz
      · rw [if_neg hs0] at hw
        have heq : smul s q = comb ss vs := Nat.eq_of_xor_eq_zero hz
        exfalso
        -- After the elimination a multiple of `q` is left, with a zero at the pivot of `q`.
        obtain ⟨m, hm, he⟩ := comb_reduce q hq25 ss vs
        have hmul : comb ss (vs.map (reduce q)) = smul (s ^^^ m) q := by
          rw [he, ← heq]
          exact (additive_smul_left q s m).symm
        have hp : pivot q < 6 := (pivot_lt q).trans (by decide)
        have hpivot : quintet (pivot q) (smul (s ^^^ m) q) = 0 := by
          rw [← hmul]
          apply quintet_comb _ hp
          intro r hr
          obtain ⟨v, hv, rfl⟩ := mem_map.mp hr
          exact ⟨(reduce_lt q v hq25 (hvs' v hv)).trans (by decide), quintet_reduce q v hq25 hq0⟩
        have hzero : comb ss (vs.map (reduce q)) = 0 := by
          by_cases hsm : s ^^^ m = 0
          · rw [hmul, hsm, zero_smul]
          · rw [quintet_smul _ hp _ q hword] at hpivot
            have := smul_eq_zero _ _ (xor_lt hs hm) hsm ((quintet_lt _ _).trans (by decide)) hpivot
            exact absurd this (quintet_pivot q hq25 hq0)
        have hweight : weight ss = 0 := by
          apply weight_eq_zero_of_distinct ss (vs.map (reduce q)) hlt' (by simpa using hlen') _ hd
            (by omega) hzero
          intro r hr
          have hr0 : r ≠ 0 := Nat.ne_of_beq_eq_false (hne r hr)
          obtain ⟨v, hv, rfl⟩ := mem_map.mp hr
          exact ⟨reduce_lt q v hq25 (hvs' v hv), hr0⟩
        rw [comb_eq_zero_of_weight ss vs hweight] at heq
        exact hq0 (smul_eq_zero s q hs hs0 hword heq)

/-! Codes with a shift register. The register takes in symbols one by one; what a list of
errors adds to it is not zero when the errors are few. -/

section Register
variable (T : ℕ → ℕ)

def register : List ℕ → ℕ
  | [] => 0
  | e :: es => T (register es) ^^^ e

def orbit : ℕ → ℕ → List ℕ
  | 0, _ => []
  | n+1, v => T v :: orbit n (T v)

/-- A register that acts linearly over the field and loses nothing. -/
structure Linear : Prop where
  additive : Additive T
  word : ∀ v, Word v → Word (T v)
  timesAlpha : ∀ v, Word v → T (timesAlpha v) = timesAlpha (T v)
  injective : ∀ v, Word v → T v = 0 → v = 0

variable {T}

theorem orbit_length (n v : ℕ) : (orbit T n v).length = n := by
  induction n generalizing v with
  | zero => rfl
  | succ n ih => rw [orbit, length_cons, ih]

theorem orbit_map (n v : ℕ) : orbit T n (T v) = (orbit T n v).map T := by
  induction n generalizing v with
  | zero => rfl
  | succ n ih => rw [orbit, orbit, map_cons, ih]

theorem word_orbit (hT : Linear T) (n v : ℕ) (hv : Word v) : ∀ w ∈ orbit T n v, Word w := by
  induction n generalizing v with
  | zero => simp [orbit]
  | succ n ih =>
    intro w hw
    rcases mem_cons.mp hw with rfl | hw
    · exact hT.word v hv
    · exact ih (T v) (hT.word v hv) w hw

theorem map_comb {f : ℕ → ℕ} (hf : Additive f)
    (h : ∀ v, Word v → f (timesAlpha v) = timesAlpha (f v)) (ss vs : List ℕ)
    (hvs : ∀ v ∈ vs, Word v) : f (comb ss vs) = comb ss (vs.map f) := by
  induction ss generalizing vs with
  | nil => simp only [comb, hf.zero]
  | cons s ss ih =>
    cases vs with
    | nil => simp only [comb, map_nil, hf.zero]
    | cons v vs =>
      rw [comb, hf, map_smul hf h s v (hvs v mem_cons_self),
        ih vs (forall_mem_cons.mp hvs).2]
      rfl

variable {es : List ℕ}

theorem word_register (hT : Linear T) (hlt : ∀ e ∈ es, e < 32) : Word (register T es) := by
  induction es with
  | nil => exact word_zero
  | cons e es ih =>
    have he : Word e := (hlt e mem_cons_self).trans (by decide)
    exact word_xor (hT.word _ (ih (forall_mem_cons.mp hlt).2)) he

theorem register_comb (hT : Linear T) (n : ℕ) (hlt : ∀ e ∈ es, e < 32) (hlen : es.length ≤ n) :
    T (register T es) = comb es (orbit T n 1) := by
  induction es generalizing n with
  | nil => rw [register, hT.additive.zero, comb_eq_zero_of_weight [] _ rfl]
  | cons e es ih =>
    match n, hlen with
    | n+1, hlen =>
      have hone : Word 1 := by
        show 1 < 2^30
        decide
      have he := hlt e mem_cons_self
      have hscalar : T e = smul e (T 1) := by
        rw [← map_smul hT.additive hT.timesAlpha e 1 hone, smul_scalar_one e he]
      rw [register, hT.additive, hscalar, ih n (forall_mem_cons.mp hlt).2
        (Nat.le_of_succ_le_succ hlen), map_comb hT.additive hT.timesAlpha _ _
        (word_orbit hT n 1 hone), orbit, comb, orbit_map, Nat.xor_comm]

theorem register_ne_zero (hT : Linear T) {n : ℕ}
    (hcap : cap ((orbit T n 1).map (fun v => v >>> 5)) = true) (hlt : ∀ e ∈ es, e < 32)
    (hlen : es.length ≤ n+1) (hpos : 1 ≤ weight es) (hw : weight es ≤ 4) : register T es ≠ 0 := by
  have hone : Word 1 := by
    show 1 < 2^30
    decide
  induction es with
  | nil => simp [weight] at hpos
  | cons e es ih =>
    obtain ⟨he32, hlt'⟩ := forall_mem_cons.mp hlt
    have hlen' : es.length ≤ n := Nat.le_of_succ_le_succ hlen
    rw [weight_cons] at hpos hw
    intro hz
    rw [register] at hz
    have heq : T (register T es) = e := Nat.eq_of_xor_eq_zero hz
    by_cases he : e = 0
    · -- The last symbol is right: the register was zero before it.
      rw [if_pos he] at hpos hw
      rw [he] at heq
      exact ih hlt' (by omega) hpos hw (hT.injective _ (word_register hT hlt') heq)
    · rw [if_neg he] at hw
      have hcomb := register_comb hT n hlt' hlen'
      have hdrop : comb es ((orbit T n 1).map (fun v => v >>> 5)) = 0 := by
        rw [← map_comb (additive_shiftRight 5) drop_timesAlpha es _ (word_orbit hT n 1 hone),
          ← hcomb, heq, Nat.shiftRight_eq_div_pow]
        omega
      have hweight : weight es = 0 := by
        apply weight_eq_zero_of_cap es _ hlt' (by simpa [orbit_length] using hlen') _ hcap
          (by omega) hdrop
        intro v hv
        obtain ⟨w, hw, rfl⟩ := mem_map.mp hv
        have hword : w < 2^30 := word_orbit hT n 1 hone w hw
        show w >>> 5 < 2^25
        rw [Nat.shiftRight_eq_div_pow]
        omega
      rw [comb_eq_zero_of_weight es _ hweight, heq] at hcomb
      exact he hcomb

end Register

end QuintetWords
