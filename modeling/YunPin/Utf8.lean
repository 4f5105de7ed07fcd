import YunPin.ByteText

/-! UTF-8 in both directions: the encoding of code points, and that decoding inverts it on
well-formed strings. -/
namespace ByteText
open List

/-- A Unicode scalar value: a code point that is not a surrogate. -/
def IsScalar (r : ℕ) : Prop := r < 0xD800 ∨ (0xE000 ≤ r ∧ r ≤ 0x10FFFF)

instance (r : ℕ) : Decidable (IsScalar r) := inferInstanceAs (Decidable (_ ∨ _))

/-- Go's `utf8.AppendRune`: a surrogate or an overlarge value is written as U+FFFD. -/
def encodeRune (r : ℕ) : Bytes :=
  if r < 0x80 then [UInt8.ofNat r]
  else if r < 0x800 then [UInt8.ofNat (0xC0+r/64), UInt8.ofNat (0x80+r%64)]
  else if ¬IsScalar r then [0xEF, 0xBF, 0xBD]
  else if r < 0x10000 then
    [UInt8.ofNat (0xE0+r/4096), UInt8.ofNat (0x80+r/64%64), UInt8.ofNat (0x80+r%64)]
  else
    [UInt8.ofNat (0xF0+r/262144), UInt8.ofNat (0x80+r/4096%64), UInt8.ofNat (0x80+r/64%64),
      UInt8.ofNat (0x80+r%64)]

def encodeRunes (l : List ℕ) : Bytes := l.flatMap encodeRune

/-- `strings.ToLower`, `strings.ToUpper` and the like: one rune for each rune. -/
def mapRunes (f : ℕ → ℕ) (s : Bytes) : Bytes := encodeRunes ((runes s).map f)

/-- The first byte `b` and the continuation bytes `tail` are one well-formed sequence, read as
`r` whatever follows. -/
structure Reads (b : UInt8) (tail : Bytes) (r : ℕ) : Prop where
  need : runeNeed b = some (tail.length+1)
  ok : tailOk b tail = true
  value : ∀ rest, runeValue b (tail ++ rest) (tail.length+1) = r

variable (n : ℕ) (l : List ℕ) (s : Bytes) (b : UInt8) (tail rest : Bytes) {r : ℕ}

theorem Reads.runeSize {b : UInt8} {tail : Bytes} (h : Reads b tail r) (rest : Bytes) :
    runeSize b (tail ++ rest) = some (tail.length+1) := by
  unfold ByteText.runeSize
  rw [h.need]
  simp only [Nat.add_sub_cancel, take_left, h.ok, and_self, if_true]

theorem runesFrom_append : runesFrom tail.length (tail ++ rest) = runes rest := by
  induction tail with
  | nil => rfl
  | cons b tail ih => exact ih

theorem Reads.runes {b : UInt8} {tail : Bytes} (h : Reads b tail r) (rest : Bytes) :
    runes (b :: tail ++ rest) = r :: runes rest := by
  rw [cons_append, ByteText.runes, runesFrom, h.runeSize rest]
  simp only [h.value rest, Nat.add_sub_cancel, runesFrom_append]

theorem runeNeed_nat : runeNeed b =
    if b.toNat < 0x80 then some 1 else if b.toNat < 0xC2 then none
    else if b.toNat < 0xE0 then some 2 else if b.toNat < 0xF0 then some 3
    else if b.toNat < 0xF5 then some 4 else none := by
  simp only [runeNeed, UInt8.lt_iff_toNat_lt]
  rfl

theorem isCont_nat (c : UInt8) : isCont c = true ↔ 0x80 ≤ c.toNat ∧ c.toNat ≤ 0xBF := by
  simp only [isCont, Bool.and_eq_true, decide_eq_true_eq, UInt8.le_iff_toNat_le]
  rfl

theorem tailOk_nat (b c : UInt8) (cs : Bytes) : tailOk b (c :: cs) = true ↔
    (b.toNat = 0xE0 → 0xA0 ≤ c.toNat) ∧ (b.toNat = 0xED → c.toNat ≤ 0x9F) ∧
    (b.toNat = 0xF0 → 0x90 ≤ c.toNat) ∧ (b.toNat = 0xF4 → c.toNat ≤ 0x8F) ∧
    ∀ x ∈ c :: cs, 0x80 ≤ x.toNat ∧ x.toNat ≤ 0xBF := by
  have heq (n : ℕ) (h : n < 256) : (b != UInt8.ofNat n) = true ↔ b.toNat ≠ n := by
    rw [bne_iff_ne, ne_eq, ← UInt8.toNat_inj, toNat_byte n h]
  have himp (p q : Prop) : (¬p ∨ q) ↔ (p → q) := by tauto
  simp only [tailOk, Bool.and_eq_true, Bool.or_eq_true, decide_eq_true_eq, all_eq_true,
    isCont_nat, UInt8.le_iff_toNat_le]
  rw [show (0xE0 : UInt8) = UInt8.ofNat 0xE0 from rfl, show (0xED : UInt8) = UInt8.ofNat 0xED from rfl,
    show (0xF0 : UInt8) = UInt8.ofNat 0xF0 from rfl, show (0xF4 : UInt8) = UInt8.ofNat 0xF4 from rfl,
    heq _ (by decide), heq _ (by decide), heq _ (by decide), heq _ (by decide)]
  simp only [ne_eq, himp, and_assoc]
  rfl

theorem runeValue_append :
    runeValue b (tail ++ rest) (tail.length+1) = tail.foldl (fun v c => v*64+(c.toNat-0x80))
      (if tail.length = 0 then b.toNat else if tail.length = 1 then b.toNat-0xC0
        else if tail.length = 2 then b.toNat-0xE0 else b.toNat-0xF0) := by
  rw [runeValue, Nat.add_sub_cancel, take_left]
  simp

theorem toNat_cont : (UInt8.ofNat (0x80+n%64)).toNat = 0x80+n%64 :=
  toNat_byte _ (by omega)

/-- The bytes written for a scalar value read back as that value. -/
theorem reads_encodeRune (h : IsScalar r) :
    ∃ b tail, encodeRune r = b :: tail ∧ Reads b tail r := by
  unfold encodeRune
  unfold IsScalar at h
  split_ifs with h1 h2 hscalar h4
  · refine ⟨_, _, rfl, ?_, rfl, ?_⟩
    · rw [runeNeed_nat, toNat_byte r (by omega), if_pos h1]
      rfl
    · intro rest
      rw [runeValue_append]
      exact toNat_byte r (by omega)
  · have hlead := toNat_byte (0xC0+r/64) (by omega)
    refine ⟨_, _, rfl, ?_, ?_, ?_⟩
    · rw [runeNeed_nat, hlead, if_neg (by omega), if_neg (by omega), if_pos (by omega)]
      rfl
    · rw [tailOk_nat, hlead]
      simp only [mem_singleton, forall_eq, toNat_cont]
      omega
    · intro rest
      rw [runeValue_append]
      simp only [foldl_cons, foldl_nil, length_singleton, hlead, toNat_cont, one_ne_zero,
        if_false, if_true]
      omega
  · have hlead := toNat_byte (0xE0+r/4096) (by omega)
    refine ⟨_, _, rfl, ?_, ?_, ?_⟩
    · rw [runeNeed_nat, hlead, if_neg (by omega), if_neg (by omega), if_neg (by omega),
        if_pos (by omega)]
      rfl
    · rw [tailOk_nat, hlead]
      simp only [mem_cons, not_mem_nil, or_false, forall_eq_or_imp, forall_eq, toNat_cont]
      omega
    · intro rest
      rw [runeValue_append]
      simp only [foldl_cons, foldl_nil, length_cons, length_nil, hlead, toNat_cont]
      norm_num
      omega
  · have hlead := toNat_byte (0xF0+r/262144) (by omega)
    refine ⟨_, _, rfl, ?_, ?_, ?_⟩
    · rw [runeNeed_nat, hlead, if_neg (by omega), if_neg (by omega), if_neg (by omega),
        if_neg (by omega), if_pos (by omega)]
      rfl
    · rw [tailOk_nat, hlead]
      simp only [mem_cons, not_mem_nil, or_false, forall_eq_or_imp, forall_eq, toNat_cont]
      omega
    · intro rest
      rw [runeValue_append]
      simp only [foldl_cons, foldl_nil, length_cons, length_nil, hlead, toNat_cont]
      norm_num
      omega
  · exact absurd h hscalar

/-- A sequence that passes the decoder's checks is the encoding of the value it reads as:
overlong forms, surrogates and values past U+10FFFF are refused. -/
theorem encodeRune_of_reads {b : UInt8} {tail : Bytes} (hneed : runeNeed b = some (tail.length+1))
    (hok : tailOk b tail = true) :
    IsScalar (runeValue b tail (tail.length+1)) ∧
      encodeRune (runeValue b tail (tail.length+1)) = b :: tail := by
  rw [runeNeed_nat] at hneed
  rcases tail with _ | ⟨c, _ | ⟨d, _ | ⟨e, _ | ⟨f, more⟩⟩⟩⟩
  · have hb : b.toNat < 0x80 := by
      split_ifs at hneed <;> simp_all
    refine ⟨.inl (by show b.toNat < _; omega), ?_⟩
    show encodeRune b.toNat = [b]
    rw [encodeRune, if_pos hb, UInt8.ofNat_toNat]
  · have hb : 0xC2 ≤ b.toNat ∧ b.toNat < 0xE0 := by
      split_ifs at hneed <;> simp_all
    obtain ⟨_, _, _, _, hcont⟩ := (tailOk_nat b c []).mp hok
    have hc := hcont c mem_cons_self
    suffices ∀ r, (b.toNat-0xC0)*64+(c.toNat-0x80) = r → IsScalar r ∧ encodeRune r = [b, c] from
      this _ rfl
    intro r hr
    refine ⟨.inl (by omega), ?_⟩
    rw [encodeRune, if_neg (by omega), if_pos (by omega), byte_eq b (by omega),
      byte_eq c (by omega)]
  · have hb : 0xE0 ≤ b.toNat ∧ b.toNat < 0xF0 := by
      split_ifs at hneed <;> simp_all
    obtain ⟨hlow, hsurrogate, _, _, hcont⟩ := (tailOk_nat b c [d]).mp hok
    have hc := hcont c mem_cons_self
    have hd := hcont d (by simp)
    suffices ∀ r, ((b.toNat-0xE0)*64+(c.toNat-0x80))*64+(d.toNat-0x80) = r →
        IsScalar r ∧ encodeRune r = [b, c, d] from this _ rfl
    intro r hr
    have hscalar : IsScalar r := by
      unfold IsScalar
      omega
    refine ⟨hscalar, ?_⟩
    rw [encodeRune, if_neg (by omega), if_neg (by omega), if_neg (not_not.mpr hscalar),
      if_pos (by omega), byte_eq b (by omega), byte_eq c (by omega), byte_eq d (by omega)]
  · have hb : 0xF0 ≤ b.toNat ∧ b.toNat < 0xF5 := by
      split_ifs at hneed <;> simp_all
    obtain ⟨_, _, hlow, hhigh, hcont⟩ := (tailOk_nat b c [d, e]).mp hok
    have hc := hcont c mem_cons_self
    have hd := hcont d (by simp)
    have he := hcont e (by simp)
    suffices ∀ r, (((b.toNat-0xF0)*64+(c.toNat-0x80))*64+(d.toNat-0x80))*64+(e.toNat-0x80) = r →
        IsScalar r ∧ encodeRune r = [b, c, d, e] from this _ rfl
    intro r hr
    have hscalar : IsScalar r := by
      unfold IsScalar
      omega
    refine ⟨hscalar, ?_⟩
    rw [encodeRune, if_neg (by omega), if_neg (by omega), if_neg (not_not.mpr hscalar),
      if_neg (by omega), byte_eq b (by omega), byte_eq c (by omega), byte_eq d (by omega),
      byte_eq e (by omega)]
  · split_ifs at hneed <;> simp at hneed

theorem runes_encodeRunes (h : ∀ r ∈ l, IsScalar r) : runes (encodeRunes l) = l := by
  induction l with
  | nil => rfl
  | cons r rest ih =>
    obtain ⟨b, tail, he, hreads⟩ := reads_encodeRune (h r mem_cons_self)
    rw [encodeRunes, flatMap_cons, he, hreads.runes]
    exact congrArg (r :: ·) (ih (forall_mem_cons.mp h).2)

theorem encodeRune_runeValue {b : UInt8} {rest : Bytes} {n : ℕ} (h : runeSize b rest = some n) :
    IsScalar (runeValue b rest n) ∧ encodeRune (runeValue b rest n) = b :: rest.take (n-1) := by
  obtain ⟨hneed, hlen, hok⟩ := runeSize_facts h
  have hn : n = (rest.take (n-1)).length+1 := by
    rw [hlen]
    have hpos : n ≠ 0 := by
      rw [runeNeed_nat] at hneed
      split_ifs at hneed <;> simp_all <;> omega
    omega
  have hvalue : runeValue b rest n = runeValue b (rest.take (n-1)) ((rest.take (n-1)).length+1) := by
    rw [← hn, runeValue, runeValue, take_take, Nat.min_self]
  rw [hvalue]
  exact encodeRune_of_reads (by rw [← hn]; exact hneed) hok

theorem runesFrom_scalar (k : ℕ) (s : Bytes) : ∀ r ∈ runesFrom k s, IsScalar r := by
  induction s generalizing k with
  | nil => cases k <;> simp [runesFrom]
  | cons b rest ih =>
    cases k with
    | succ k => exact ih k
    | zero =>
      simp only [runesFrom]
      split
      · rename_i n hn
        intro r hr
        rcases mem_cons.mp hr with rfl | hr
        · exact (encodeRune_runeValue hn).1
        · exact ih _ r hr
      · intro r hr
        rcases mem_cons.mp hr with rfl | hr
        · decide
        · exact ih _ r hr

theorem runes_scalar : ∀ r ∈ runes s, IsScalar r := runesFrom_scalar 0 s

theorem repairFrom_eq (k : ℕ) (s : Bytes) :
    repairFrom k s = s.take k ++ encodeRunes (runesFrom k s) := by
  induction s generalizing k with
  | nil => cases k <;> rfl
  | cons b rest ih =>
    cases k with
    | succ k => simp only [repairFrom, ih k, runesFrom, take_succ_cons, cons_append]
    | zero =>
      simp only [repairFrom, runesFrom, take_zero, nil_append]
      split
      · rename_i n hn
        rw [encodeRunes, flatMap_cons, (encodeRune_runeValue hn).2, ih (n-1)]
        rfl
      · rw [ih 0]
        rfl

/-- Decoding and encoding again replaces every byte that starts no rune, as `encoding/json` does. -/
theorem encodeRunes_runes : encodeRunes (runes s) = toValidUTF8 s :=
  (repairFrom_eq 0 s).symm

theorem encodeRune_ascii (r : ℕ) (h : r < 0x80) : encodeRune r = [UInt8.ofNat r] := if_pos h

/-- No byte of a longer sequence is an ASCII byte. -/
theorem le_of_mem_encodeRune (h : 0x80 ≤ r) (b : UInt8) (hb : b ∈ encodeRune r) :
    0x80 ≤ b.toNat := by
  have hbyte (n : ℕ) (hlo : 0x80 ≤ n) (hhi : n < 256) : 0x80 ≤ (UInt8.ofNat n).toNat := by
    rw [toNat_byte n hhi]
    exact hlo
  unfold encodeRune at hb
  rw [if_neg (by omega)] at hb
  split_ifs at hb with h2 hscalar h4 <;> simp only [mem_cons, not_mem_nil, or_false] at hb
  · rcases hb with rfl | rfl <;> exact hbyte _ (by omega) (by omega)
  · rcases hb with rfl | rfl | rfl <;> exact hbyte _ (by omega) (by omega)
  · have hr : r ≤ 0x10FFFF := by
      unfold IsScalar at hscalar
      omega
    rcases hb with rfl | rfl | rfl | rfl <;> exact hbyte _ (by omega) (by omega)
  · rcases hb with rfl | rfl | rfl <;> decide

theorem encodeRunes_ascii (h : ∀ r ∈ l, r < 0x80) : encodeRunes l = l.map UInt8.ofNat := by
  induction l with
  | nil => rfl
  | cons r rest ih =>
    rw [encodeRunes, flatMap_cons, encodeRune_ascii r (h r mem_cons_self)]
    exact congrArg (UInt8.ofNat r :: ·) (ih (forall_mem_cons.mp h).2)

theorem runes_ascii (h : ∀ b ∈ s, b < 0x80) : runes s = s.map UInt8.toNat := by
  have hlt (b : UInt8) (hb : b ∈ s) : b.toNat < 0x80 := UInt8.lt_iff_toNat_lt.mp (h b hb)
  have hencode : encodeRunes (s.map UInt8.toNat) = s := by
    rw [encodeRunes_ascii _ (by simpa using hlt), map_map]
    simp [Function.comp_def]
  rw [← runes_encodeRunes (s.map UInt8.toNat) ?_, hencode]
  intro r hr
  obtain ⟨b, hb, rfl⟩ := mem_map.mp hr
  exact .inl (by have := hlt b hb; omega)

theorem ascii_of_mapRunes (f : ℕ → ℕ) {s : Bytes} (h : ∀ b ∈ mapRunes f s, b < 0x80) :
    (∀ r ∈ runes s, f r < 0x80) ∧ mapRunes f s = (runes s).map (fun r => UInt8.ofNat (f r)) := by
  have hlow : ∀ r ∈ runes s, f r < 0x80 := by
    intro r hr
    by_contra hge
    obtain ⟨b, hb⟩ : ∃ b, b ∈ encodeRune (f r) := by
      apply exists_mem_of_ne_nil
      unfold encodeRune
      split_ifs <;> simp
    have hmem : b ∈ mapRunes f s :=
      mem_flatMap.mpr ⟨f r, mem_map_of_mem hr, hb⟩
    have hb' := le_of_mem_encodeRune (not_lt.mp hge) b hb
    have hlt : b.toNat < 0x80 := UInt8.lt_iff_toNat_lt.mp (h b hmem)
    omega
  refine ⟨hlow, ?_⟩
  rw [mapRunes, encodeRunes_ascii _ (by simpa using hlow), map_map]
  rfl

end ByteText
