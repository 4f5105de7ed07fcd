import YunPin.QuintetWords
import YunPin.RecoveryText

/-! Typing errors in a recovery key. The checksum register is linear over the field of 32
elements, and over the 58 characters of a key it sees every change of up to four. -/
namespace YunPin
open ByteText List

theorem bech32Shift_injective (v : ℕ) (hv : v < 2^30) (hzero : bech32Shift v = 0) : v = 0 := by
  have htops : ∀ top < 32, bech32Shift (top <<< 25)%32 = 0 → top = 0 := by decide
  have hlow : v%2^25 < 2^25 := Nat.mod_lt _ (by decide)
  have hsplit : (v/2^25) <<< 25 ^^^ (v%2^25) = v := by
    rw [XorLinear.shiftLeft_xor_of_lt hlow, Nat.div_add_mod']
  have hsum : bech32Shift ((v/2^25) <<< 25) = bech32Shift (v%2^25) := by
    apply Nat.eq_of_xor_eq_zero
    rw [← additive_bech32Shift, hsplit, hzero]
  have hdvd : bech32Shift (v%2^25)%32 = 0 := by
    rw [bech32Shift_of_lt _ hlow, Nat.shiftLeft_eq]
    exact Nat.mul_mod_left _ _
  have htop : v/2^25 = 0 := htops _ (by omega) (by rw [hsum, hdvd])
  rw [htop, Nat.zero_shiftLeft, additive_bech32Shift.zero, bech32Shift_of_lt _ hlow,
    Nat.shiftLeft_eq] at hsum
  omega

theorem linear_bech32Shift : QuintetWords.Linear bech32Shift where
  additive := additive_bech32Shift
  word v _ := bech32Shift_lt v
  timesAlpha := (additive_bech32Shift.comp QuintetWords.additive_timesAlpha).ext
    (QuintetWords.additive_timesAlpha.comp additive_bech32Shift) 30 (by decide)
  injective := bech32Shift_injective

theorem bech32_cap :
    QuintetWords.cap ((QuintetWords.orbit bech32Shift 57 1).map (fun v => v >>> 5)) = true := by
  decide

theorem register_reverse (es : List ℕ) :
    QuintetWords.register bech32Shift es.reverse = bech32Rounds 0 es := by
  induction es using List.reverseRecOn with
  | nil => rfl
  | append_singleton es e ih =>
    rw [reverse_concat, QuintetWords.register, ih, bech32Rounds_concat]

def changes {α : Type*} [DecidableEq α] (xs ys : List α) : ℕ :=
  (List.zip xs ys).countP (fun p => p.1 ≠ p.2)

theorem changes_cons {α : Type*} [DecidableEq α] (x y : α) (xs ys : List α) :
    changes (x :: xs) (y :: ys) = changes xs ys+if x = y then 0 else 1 := by
  simp [changes, countP_cons]

theorem changes_append {α : Type*} [DecidableEq α] (first xs ys : List α) :
    changes (first ++ xs) (first ++ ys) = changes xs ys := by
  induction first with
  | nil => rfl
  | cons a first ih => rw [cons_append, cons_append, changes_cons, if_pos rfl, ih,
    Nat.add_zero]

theorem changes_map {α β : Type*} [DecidableEq α] [DecidableEq β] (f : α → β) (xs ys : List α)
    (hf : ∀ x ∈ xs, ∀ y ∈ ys, f x = f y → x = y) :
    changes (xs.map f) (ys.map f) = changes xs ys := by
  induction xs generalizing ys with
  | nil => rfl
  | cons x xs ih =>
    cases ys with
    | nil => rfl
    | cons y ys =>
      have hxy : f x = f y ↔ x = y :=
        ⟨hf x mem_cons_self y mem_cons_self, fun h => congrArg f h⟩
      rw [map_cons, map_cons, changes_cons, changes_cons,
        ih ys (fun a ha b hb => hf a (mem_cons_of_mem _ ha) b (mem_cons_of_mem _ hb))]
      simp only [hxy]

theorem weight_zipWith_xor (xs ys : List ℕ) :
    QuintetWords.weight (List.zipWith (· ^^^ ·) xs ys) = changes xs ys := by
  induction xs generalizing ys with
  | nil => rfl
  | cons x xs ih =>
    cases ys with
    | nil => rfl
    | cons y ys =>
      rw [zipWith_cons_cons, QuintetWords.weight_cons, changes_cons, ih]
      simp only [Nat.xor_eq_zero_iff]

theorem bech32Polymod_ne {values values' : List ℕ} (hlt : ∀ v ∈ values, v < 2^5)
    (hlt' : ∀ v ∈ values', v < 2^5) (hlen : values.length = 58) (hlen' : values'.length = 58)
    (hpos : 1 ≤ changes values values') (hfew : changes values values' ≤ 4) :
    bech32Polymod (expandHRP recoveryHRP ++ values) ≠
      bech32Polymod (expandHRP recoveryHRP ++ values') := by
  intro heq
  have hes : ∀ e ∈ (List.zipWith (· ^^^ ·) values values').reverse, e < 32 := by
    intro e he
    obtain ⟨i, hi, rfl⟩ := getElem_of_mem (mem_reverse.mp he)
    rw [getElem_zipWith]
    exact QuintetWords.xor_lt (hlt _ (getElem_mem _)) (hlt' _ (getElem_mem _))
  have hweight : QuintetWords.weight (List.zipWith (· ^^^ ·) values values').reverse =
      changes values values' := by
    rw [QuintetWords.weight, countP_reverse]
    exact weight_zipWith_xor values values'
  apply QuintetWords.register_ne_zero linear_bech32Shift bech32_cap hes
    (by simp [hlen, hlen']) (by omega) (by omega)
  -- The common start cancels and leaves the register of the differences.
  have hsum := @bech32Rounds_xor (bech32Rounds 1 (expandHRP recoveryHRP))
    (bech32Rounds 1 (expandHRP recoveryHRP)) values values' (by omega)
  rw [← bech32Rounds_append, ← bech32Rounds_append, ← bech32Polymod_eq, ← bech32Polymod_eq, heq,
    Nat.xor_self, Nat.xor_self] at hsum
  rw [register_reverse, ← hsum]

theorem charset_values {text : Bytes} (h : ∀ b ∈ text, b ∈ bech32Charset) :
    ∃ values : List ℕ, (∀ v ∈ values, v < 2^5) ∧
      text = values.map (fun v => bech32Charset.getD v 0) := by
  have hmem : ∀ b ∈ bech32Charset, ∃ v < 2^5, bech32Charset.getD v 0 = b := by decide +kernel
  induction text with
  | nil => exact ⟨[], by simp, rfl⟩
  | cons b rest ih =>
    obtain ⟨v, hv, rfl⟩ := hmem b (h b mem_cons_self)
    obtain ⟨values, hall, rfl⟩ := ih (forall_mem_cons.mp h).2
    exact ⟨v :: values, forall_mem_cons.mpr ⟨hv, hall⟩, rfl⟩

/-- One to four characters after the separator that are replaced by other characters of the
set are noticed. -/
theorem recovery_key_typos (cases : CaseMap) (laws : cases.Laws) (key text s : Bytes)
    (hencode : encodeRecoveryKey key = .ok text) (hlen : s.length = text.length)
    (hfirst : s.take 6 = text.take 6) (hchars : ∀ b ∈ s.drop 6, b ∈ bech32Charset)
    (hpos : 1 ≤ changes text s) (hfew : changes text s ≤ 4) :
    decodeRecoveryKey cases s = .error .checksum := by
  have hsix : (recoveryHRP ++ [49]).length = 6 := by decide
  obtain ⟨values, rfl, hlt, hsize, hsum⟩ := encodeRecoveryKey_shape key text hencode
  obtain ⟨values', hlt', hdrop⟩ := charset_values hchars
  have hs : s = recoveryText values' := by
    rw [← take_append_drop 6 s, hfirst, hdrop, recoveryText, ← hsix, take_left]
    rfl
  subst hs
  have hsize' : values'.length = 58 := by
    simp only [recoveryText, length_append, length_map] at hlen
    omega
  have hinjective : ∀ x < 2^5, ∀ y < 2^5,
      bech32Charset.getD x 0 = bech32Charset.getD y 0 → x = y := by decide
  have hchanges : changes (recoveryText values) (recoveryText values') = changes values values' := by
    rw [recoveryText, recoveryText, changes_append]
    exact changes_map _ values values' (fun x hx y hy => hinjective x (hlt x hx) y (hlt' y hy))
  rw [hchanges] at hpos hfew
  have hlower := mapRunes_lower_text laws (mem_recoveryText hlt')
  have hne := bech32Polymod_ne hlt hlt' hsize hsize' hpos hfew
  rw [decodeRecoveryKey, hlower, if_neg (by simp), decodeRecoveryText_text hlt' (by omega),
    decodeRecoveryValues, if_pos (by rw [← hsum]; exact hne.symm)]

theorem recovery_key_typos_sample : decodeRecoveryKey sampleCaseMap
    (lit "yprec1qqqqqqqqqqqqqqqqqqqqqqqqqqqqqqqqqqqqqqqqqqqqqqqqqqqq3xhyz8") = .error .checksum :=
  recovery_key_typos sampleCaseMap sampleCaseMap_laws kelvinKey
    (lit "yprec1kqqqqqqqqqqqqqqqqqqqqqqqqqqqqqqqqqqqqqqqqqqqqqqqqqqq3xhyz9") _
    (by decide +kernel) (by decide +kernel) (by decide +kernel) (by decide +kernel)
    (by decide +kernel) (by decide +kernel)

end YunPin
