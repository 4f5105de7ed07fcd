import YunPin.NativeRecorder
import YunPin.SessionCorrection

/-! The UTF-8 loops of the C++ code against the encoding of scalar values by RFC 3629. -/
namespace YunPin.ScalarText
open ByteText List

theorem continuation_facts (b : UInt8) : decide (b.toNat &&& 0xC0 = 0x80) = isCont b ∧
    b.toNat &&& 0x3F = b.toNat%64 := by
  revert b
  decide +kernel

/-- The first byte as the loops read it, and as the table of the encoding has it. -/
theorem leadByte_facts (b : UInt8) : (leadByte b.toNat = none → runeNeed b = none) ∧
    ∀ lead ∈ leadByte b.toNat, (∀ n ∈ runeNeed b, n = lead.2.1) ∧
      lead.1 = (if lead.2.1 = 1 then b.toNat else if lead.2.1 = 2 then b.toNat-0xC0
        else if lead.2.1 = 3 then b.toNat-0xE0 else b.toNat-0xF0) ∧
      ((lead.2 = (1, 0) ∧ b.toNat < 0x80 ∧ runeNeed b = some 1) ∨
      (lead.2 = (2, 0x80) ∧ 0xC0 ≤ b.toNat ∧ b.toNat < 0xE0 ∧
        runeNeed b = if b.toNat < 0xC2 then none else some 2) ∨
      (lead.2 = (3, 0x800) ∧ 0xE0 ≤ b.toNat ∧ b.toNat < 0xF0 ∧ runeNeed b = some 3) ∨
      (lead.2 = (4, 0x10000) ∧ 0xF0 ≤ b.toNat ∧ b.toNat < 0xF8 ∧
        runeNeed b = if b.toNat < 0xF5 then some 4 else none)) := by
  revert b
  decide +kernel

/-- Every continuation byte brings six bits. -/
theorem foldl_continuation {tail : Bytes} (bits : ℕ) (h : tail.all isCont = true) :
    tail.foldl (fun c b => (c <<< 6) ||| b.toNat%64) bits =
      tail.foldl (fun v c => v*64+(c.toNat-0x80)) bits := by
  induction tail generalizing bits with
  | nil => rw [foldl_nil, foldl_nil]
  | cons b tail ih =>
    simp only [all_cons, Bool.and_eq_true] at h
    have hb := (isCont_nat b).mp h.1
    have hstep : (bits <<< 6) ||| b.toNat%64 = bits*64+(b.toNat-0x80) := by
      rw [← Nat.shiftLeft_add_eq_or_of_lt (Nat.mod_lt _ (by decide)), Nat.shiftLeft_eq]
      omega
    rw [foldl_cons, foldl_cons, hstep]
    exact ih _ h.2

theorem scalarValue_iff (b : UInt8) (tail : Bytes) (bits width minimum v : ℕ)
    (hlead : leadByte b.toNat = some (bits, width, minimum)) (hlength : tail.length = width-1)
    (hcont : tail.all isCont = true)
    (hv : v = tail.foldl (fun v c => v*64+(c.toNat-0x80)) bits) :
    ((width > 1 ∧ v < minimum) ∨ v > 0x10FFFF ∨ (0xD800 ≤ v ∧ v ≤ 0xDFFF)) ↔
      ¬(runeNeed b = some width ∧ tailOk b tail = true) := by
  obtain ⟨-, hbits, hcases⟩ := (leadByte_facts b).2 _ hlead
  simp only [Prod.mk.injEq] at hbits hcases
  simp only [all_eq_true, isCont_nat] at hcont
  rw [hbits] at hv
  rcases hcases with ⟨⟨hwidth, hmin⟩, hb, hneed⟩ | ⟨⟨hwidth, hmin⟩, hb, hb', hneed⟩ |
    ⟨⟨hwidth, hmin⟩, hb, hb', hneed⟩ | ⟨⟨hwidth, hmin⟩, hb, hb', hneed⟩
  all_goals
    rw [hwidth] at hlength hv ⊢
    rw [hneed, hmin]
  · obtain rfl := length_eq_zero_iff.mp hlength
    simp only [foldl_nil, if_true] at hv
    simp [tailOk]
    omega
  · obtain ⟨c, rfl⟩ := length_eq_one_iff.mp hlength
    simp only [foldl_cons, foldl_nil, Nat.reduceEqDiff, reduceIte, tailOk_nat, mem_cons,
      not_mem_nil, or_false, forall_eq] at hv hcont ⊢
    split_ifs <;> simp <;> omega
  · obtain ⟨c, d, rfl⟩ := length_eq_two.mp hlength
    simp only [foldl_cons, foldl_nil, Nat.reduceEqDiff, reduceIte, tailOk_nat, mem_cons,
      not_mem_nil, or_false, forall_eq_or_imp, forall_eq, true_and] at hv hcont ⊢
    omega
  · obtain ⟨c, d, e, rfl⟩ := length_eq_three.mp hlength
    simp only [foldl_cons, foldl_nil, Nat.reduceEqDiff, reduceIte, tailOk_nat, mem_cons,
      not_mem_nil, or_false, forall_eq_or_imp, forall_eq] at hv hcont ⊢
    split_ifs <;> simp <;> omega

/-- The loops read a scalar where one is encoded, and only there. -/
theorem decodeScalar_eq (first : UInt8) (rest : Bytes) : decodeScalar first rest =
    (runeSize first rest).map (fun n => (runeValue first rest n, n)) := by
  rw [decodeScalar]
  cases hlead : leadByte first.toNat with
  | none =>
    rw [runeSize, (leadByte_facts first).1 hlead]
    rfl
  | some lead =>
    obtain ⟨bits, width, minimum⟩ := lead
    obtain ⟨hneed, hbits, -⟩ := (leadByte_facts first).2 _ hlead
    dsimp only at hbits ⊢
    simp only [continuation_facts]
    have hvalue := fun hlength hcont =>
      scalarValue_iff first (rest.take (width-1)) bits width minimum _ hlead hlength hcont rfl
    by_cases hsize : runeSize first rest = some width
    · obtain ⟨hwidth, hlength, hok⟩ := runeSize_facts hsize
      have hcont : (rest.take (width-1)).all isCont = true := by
        cases htail : rest.take (width-1) with
        | nil => rfl
        | cons c cs =>
          rw [htail, tailOk, Bool.and_eq_true] at hok
          exact hok.2
      rw [if_neg (by simp [hlength, hcont]), foldl_continuation _ hcont,
        if_neg (fun hbad => (hvalue hlength hcont).mp hbad ⟨hwidth, hok⟩), hsize, Option.map_some,
        runeValue, ← hbits]
    · have hnone : runeSize first rest = none := by
        apply Option.eq_none_iff_forall_ne_some.mpr
        intro n hn
        rw [hneed n (runeSize_facts hn).1] at hn
        exact hsize hn
      rw [hnone]
      split_ifs with hshort hbad
      · rfl
      · rfl
      · simp only [not_or, not_lt, not_not] at hshort
        have hlength := le_antisymm (length_take_le _ _) hshort.1
        rw [foldl_continuation _ hshort.2, hvalue hlength hshort.2, not_not] at hbad
        rw [runeSize, hbad.1] at hsize
        exact absurd (if_pos ⟨hlength, hbad.2⟩) hsize

theorem scalarsFrom_eq (k : ℕ) {s : Bytes} (h : k ≤ s.length) :
    scalarsFrom k s = if validFrom k s then some (runesFrom k s) else none := by
  induction s generalizing k with
  | nil =>
    obtain rfl := Nat.le_zero.mp h
    rfl
  | cons b rest ih =>
    cases k with
    | succ k => exact ih k (Nat.le_of_succ_le_succ h)
    | zero =>
      rw [scalarsFrom, decodeScalar_eq, validFrom, runesFrom]
      cases hsize : runeSize b rest with
      | none => rfl
      | some n =>
        obtain ⟨-, hlength, -⟩ := runeSize_facts hsize
        have hle : n-1 ≤ rest.length := hlength ▸ length_take_le' _ _
        simp only [Option.map_some, ih (n-1) hle]
        split_ifs <;> rfl

/-- A text is well formed when it is the encoding of scalar values. -/
def Encodes (l : List ℕ) (s : Bytes) : Prop := (∀ r ∈ l, IsScalar r) ∧ encodeRunes l = s

theorem scalars_iff (s : Bytes) (l : List ℕ) : scalars s = some l ↔ Encodes l s := by
  rw [scalars, scalarsFrom_eq 0 (Nat.zero_le _)]
  constructor
  · intro h
    split_ifs at h with hvalid
    cases h
    exact ⟨runes_scalar s, (encodeRunes_runes s).trans (toValidUTF8_of_valid s hvalid)⟩
  · rintro ⟨hl, rfl⟩
    have hvalid := validUTF8_toValidUTF8 (encodeRunes l)
    rw [← encodeRunes_runes, runes_encodeRunes l hl] at hvalid
    exact (if_pos hvalid).trans (congrArg some (runes_encodeRunes l hl))

theorem recorded_monitorable {learning : Learning.CorrectionLearning}
    {event : Learning.SelectionEvent} (h : (learning.recordSelection event).2.recorded = true) :
    Learning.isMonitorableSelection event = true := by
  by_contra hno
  rw [Learning.CorrectionLearning.recordSelection, if_pos hno] at h
  cases h

/-- What the four loops say of a text. -/
structure DecodersAgree (s : Bytes) : Prop where
  unique : ∀ l l', Encodes l s → Encodes l' s → l = l'
  count : ∀ n, utf8ScalarCount s = some n ↔ ∃ l, Encodes l s ∧ s ≠ [] ∧ l.length = n
  safe : ∀ n, countSafeUtf8 s = some n ↔
    ∃ l, Encodes l s ∧ (∀ r ∈ l, ¬isDirectionalControl r = true) ∧ l.length = n
  valid : Recorder.isValidUtf8 s = true ↔ (∃ l, Encodes l s) ∧ 0 ∉ s
  pure : ∀ k, isPureCjkAtLeast s k = true ↔
    ∃ l, Encodes l s ∧ (∀ r ∈ l, isCjkIdeograph r = true) ∧ k ≤ l.length
  recorded : ∀ (learning : Learning.CorrectionLearning) (event : Learning.SelectionEvent),
    event.phrase = s → (learning.recordSelection event).2.recorded = true →
      ∃ n, utf8ScalarCount s = some n

theorem scalar_decoders_agree (s : Bytes) : DecodersAgree s := by
  have hsome (l : List ℕ) : Encodes l s ↔ scalars s = some l := (scalars_iff s l).symm
  refine ⟨fun l l' h h' => ?_, fun n => ?_, fun n => ?_, ?_, fun k => ?_, ?_⟩
  · rw [hsome] at h h'
    exact Option.some.inj (h.symm.trans h')
  · simp only [hsome, utf8ScalarCount]
    cases hs : scalars s with
    | none => simp
    | some cs =>
      have hnil : s = [] ↔ cs = [] := by
        constructor
        · rintro rfl
          exact (Option.some.inj hs).symm
        · rintro rfl
          exact ((hsome []).mpr hs).2.symm
      cases cs <;> simp [hnil]
  · simp only [hsome, countSafeUtf8]
    cases hs : scalars s with
    | none => simp
    | some cs =>
      dsimp only
      split_ifs with hany <;> simp_all
  · rw [Recorder.isValidUtf8_iff, validUTF8]
    simp only [hsome, scalars, scalarsFrom_eq 0 (Nat.zero_le _)]
    split_ifs with hvalid <;> simp [hvalid]
  · simp only [hsome, isPureCjkAtLeast]
    cases hs : scalars s <;> simp
  · rintro learning event rfl h
    exact (Learning.isMonitorableSelection_facts (recorded_monitorable h)).2.2.2

end YunPin.ScalarText
