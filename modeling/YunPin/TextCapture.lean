import YunPin.NativeRecorder

/-! How the recorder takes a text into a buffer of fixed size: scalar by scalar, while the next one
is well formed and still fits. -/
namespace YunPin
open ByteText List

namespace Recorder

/-- The width that the leading bits of the first byte announce. -/
def copyWidth (first : UInt8) : Option ℕ :=
  if first = 0 then none
  else if first < 0x80 then some 1
  else if first &&& 0xE0 = 0xC0 then some 2
  else if first &&& 0xF0 = 0xE0 then some 3
  else if first &&& 0xF8 = 0xF0 then some 4
  else none

def rejectedForm (width : ℕ) (first second : UInt8) : Bool :=
  (width = 2 ∧ first < 0xC2) ∨ (width = 3 ∧ first = 0xE0 ∧ second < 0xA0) ∨
    (width = 3 ∧ first = 0xED ∧ second ≥ 0xA0) ∨ (width = 4 ∧ first = 0xF0 ∧ second < 0x90) ∨
    (width = 4 ∧ first = 0xF4 ∧ second ≥ 0x90) ∨ (width = 4 ∧ first > 0xF4)

/-- The body of the loop: the width of the scalar that is copied, if it does not break. -/
def copyScalar (room : ℕ) (first : UInt8) (rest : Bytes) : Option ℕ :=
  match copyWidth first with
  | none => none
  | some width =>
    if width > rest.length+1 ∨ width > room then none
    else if rejectedForm width first (rest.headD 0) = true then none
    else if (rest.take (width-1)).all isContinuation = false then none
    else some width

/-- The bytes that the loop of `CopyReplayText` stores from the rest of the source, with the bytes
of the present scalar that are still to be stored and the room that is left. -/
def copyFrom : ℕ → ℕ → Bytes → Bytes
  | _, _, [] => []
  | pending+1, room, byte :: rest => byte :: copyFrom pending (room-1) rest
  | 0, room, first :: rest =>
    if room = 0 then []
    else
      match copyScalar room first rest with
      | none => []
      | some width => first :: copyFrom (width-1) (room-1) rest

variable (first : UInt8) (rest : Bytes) (width pending room : ℕ) (p s : Bytes)

/-- The announced width is the validator's, but for the forms that are rejected by the first byte. -/
theorem copyWidth_filter : utf8Width first =
    (copyWidth first).filter (fun w => ¬((w = 2 ∧ first < 0xC2) ∨ (w = 4 ∧ first > 0xF4))) := by
  revert first
  decide +kernel

theorem copyScalar_iff : copyScalar room first rest = some width ↔
    (first ≠ 0 ∧ runeSize first rest = some width) ∧ width ≤ room := by
  rw [← utf8Width_iff, copyWidth_filter, Option.filter_eq_some_iff, copyScalar]
  cases copyWidth first with
  | none => simp
  | some n =>
    have hsame : rejectedForm n first (rest.headD 0) = true ↔ ((n = 2 ∧ first < 0xC2) ∨
        (n = 4 ∧ first > 0xF4)) ∨ outOfRange n first (rest.headD 0) = true := by
      rw [rejectedForm, outOfRange, decide_eq_true_eq, decide_eq_true_eq]
      tauto
    simp only [Option.some_inj, decide_eq_true_eq]
    split_ifs with hlong hform hall
    · refine ⟨fun h => (by cases h), ?_⟩
      rintro ⟨⟨⟨rfl, _⟩, hfit, _⟩, hroom⟩
      exact absurd hlong (not_or.mpr ⟨hfit, not_lt.mpr hroom⟩)
    · refine ⟨fun h => (by cases h), ?_⟩
      rintro ⟨⟨⟨rfl, hfirst⟩, _, _, hrange⟩, _⟩
      exact absurd (hsame.mp hform) (not_or.mpr ⟨hfirst, ne_true_of_eq_false hrange⟩)
    · refine ⟨fun h => (by cases h), ?_⟩
      rintro ⟨⟨⟨rfl, _⟩, _, hcont, _⟩, _⟩
      exact absurd hcont (ne_true_of_eq_false hall)
    · rw [hsame, not_or, Bool.not_eq_true] at hform
      rw [not_or, not_lt] at hlong
      refine ⟨fun h => ?_, fun h => h.1.1.1 ▸ rfl⟩
      obtain rfl := Option.some.inj h
      exact ⟨⟨⟨rfl, hform.1⟩, not_lt.mpr hlong.1, Bool.not_eq_false _ ▸ hall, hform.2⟩,
        not_lt.mp hlong.2⟩

/-- A prefix that the buffer may hold: it fits and is well formed from the present scalar on. -/
structure Kept (pending room : ℕ) (p s : Bytes) : Prop where
  source : p <+: s
  fits : p.length ≤ room
  begun : pending ≤ p.length
  valid : isValidUtf8From pending p = true

/-- Bytes that agree on the scalar read it alike. -/
theorem runeSize_prefix (hp : p <+: rest) (h : width ≤ p.length+1) :
    runeSize first p = some width ↔ runeSize first rest = some width := by
  have htake : p.take (width-1) = rest.take (width-1) := by
    obtain ⟨more, rfl⟩ := hp
    rw [take_append_of_le_length (by omega)]
  exact ⟨fun hsize => runeSize_congr hsize htake.symm, fun hsize => runeSize_congr hsize htake⟩

theorem runeSize_le (h : runeSize first rest = some width) : width ≤ rest.length+1 ∧ 0 < width := by
  obtain ⟨hneed, hlength, _⟩ := runeSize_facts h
  rw [length_take] at hlength
  have hpos : 0 < width := by
    rw [runeNeed] at hneed
    split_ifs at hneed <;> cases hneed <;> decide
  omega

theorem copyFrom_kept (hroom : pending ≤ room) (hs : pending ≤ s.length) :
    Kept pending room (copyFrom pending room s) s := by
  induction s generalizing pending room with
  | nil =>
    obtain rfl : pending = 0 := Nat.le_zero.mp hs
    exact ⟨prefix_rfl, Nat.zero_le _, le_rfl, rfl⟩
  | cons byte rest ih =>
    cases pending with
    | succ pending =>
      obtain ⟨room, rfl⟩ : ∃ n, room = n+1 := ⟨room-1, by omega⟩
      have hkept := ih pending room (by omega) (Nat.le_of_succ_le_succ hs)
      exact ⟨(prefix_cons_inj byte).mpr hkept.source, Nat.succ_le_succ hkept.fits,
        Nat.succ_le_succ hkept.begun, hkept.valid⟩
    | zero =>
      have hstop : Kept 0 room [] (byte :: rest) := ⟨ nil_prefix, Nat.zero_le _, le_rfl, rfl⟩
      rw [copyFrom]
      split_ifs with hfull
      · exact hstop
      cases hscalar : copyScalar room byte rest with
      | none => exact hstop
      | some width =>
        obtain ⟨⟨hne, hsize⟩, hwidth⟩ := (copyScalar_iff byte rest width room).mp hscalar
        obtain ⟨hlength, hpos⟩ := runeSize_le byte rest width hsize
        have hkept := ih (width-1) (room-1) (by omega) (by omega)
        have hbegun := hkept.begun
        have hfits := hkept.fits
        refine ⟨(prefix_cons_inj byte).mpr hkept.source, ?_, Nat.zero_le _, ?_⟩
        · rw [length_cons]
          omega
        · rw [isValidUtf8From_cons]
          refine ⟨width, ⟨hne, ?_⟩, hkept.valid⟩
          rwa [ runeSize_prefix byte rest width _ hkept.source (by omega)]

theorem copyFrom_longest (h : Kept pending room p s) :
    p.length ≤ (copyFrom pending room s).length := by
  induction s generalizing pending room p with
  | nil => exact h.source.length_le
  | cons byte rest ih =>
    cases p with
    | nil => exact Nat.zero_le _
    | cons byte' p =>
      obtain ⟨rfl, hinit⟩ := cons_prefix_cons.mp h.source
      have hfits := h.fits
      rw [length_cons] at hfits
      cases pending with
      | succ pending =>
        apply Nat.succ_le_succ
        exact ih pending (room-1) p ⟨hinit, by omega, Nat.le_of_succ_le_succ h.begun, h.valid⟩
      | zero =>
        obtain ⟨width, ⟨hne, hsize⟩, hvalid⟩ := (isValidUtf8From_cons byte' p).mp h.valid
        obtain ⟨hlength, hpos⟩ := runeSize_le byte' p width hsize
        have hscalar : copyScalar room byte' rest = some width := by
          rw [copyScalar_iff, ← runeSize_prefix byte' rest width p hinit hlength]
          exact ⟨⟨hne, hsize⟩, by omega⟩
        rw [copyFrom, if_neg (by omega), hscalar]
        apply Nat.succ_le_succ
        exact ih (width-1) (room-1) p ⟨hinit, by omega, by omega, hvalid⟩

variable {capacity : ℕ} (destination : ReplayText capacity)

def copyReplayText (source : Bytes) : ReplayText capacity where
  bytes := copyFrom 0 capacity source ++
    0 :: destination.bytes.drop ((copyFrom 0 capacity source).length+1)
  size := UInt16.ofNat (copyFrom 0 capacity source).length
  length_eq := by
    have hfits := (copyFrom_kept 0 capacity source (Nat.zero_le _) (Nat.zero_le _)).fits
    rw [length_append, length_cons, length_drop, destination.length_eq]
    omega

/-- The prefixes of a text that a buffer of the capacity may hold. -/
def Capturable (capacity : ℕ) (source p : Bytes) : Prop :=
  p <+: source ∧ p.length ≤ capacity ∧ validUTF8 p = true ∧ 0 ∉ p

/-- A safe capture: the longest prefix, terminated, and no reason to drop its event. -/
structure ReplayText.Captures (text : ReplayText capacity) (source : Bytes) : Prop where
  kept : Capturable capacity source text.view
  longest : ∀ p, Capturable capacity source p → p.length ≤ text.view.length
  terminated : text.bytes[text.size.toNat]? = some 0
  valid : isValidUtf8 text.view = true
  checked : ∀ allowEmpty, isValidText text allowEmpty = true ↔ allowEmpty = true ∨ text.view ≠ []

theorem kept_iff (capacity : ℕ) (source : Bytes) :
    Kept 0 capacity p source ↔ Capturable capacity source p := by
  have hvalid := isValidUtf8_iff p
  exact ⟨fun h => ⟨h.source, h.fits, hvalid.mp h.valid⟩,
    fun h => ⟨h.1, h.2.1, Nat.zero_le _, hvalid.mpr h.2.2⟩⟩

/-- A view has as many bytes as its sixteen-bit size can say. -/
theorem view_length_lt (text : ReplayText capacity) : text.view.length < 2^16 := by
  rw [ReplayText.view, length_take]
  exact lt_of_le_of_lt (min_le_left _ _) text.size.toNat_lt

/-- A text is captured safely exactly when what is to be kept has fewer bytes than the sixteen-bit
size of the buffer can count. -/
theorem copyReplayText_captures_iff (source : Bytes) :
    (copyReplayText destination source).Captures source ↔
      ∀ p, Capturable capacity source p → p.length < 2^16 := by
  refine ⟨fun h p hp => lt_of_le_of_lt (h.longest p hp) (view_length_lt _), fun h => ?_⟩
  have hkept := copyFrom_kept 0 capacity source (Nat.zero_le _) (Nat.zero_le _)
  have hcaptured := (kept_iff _ capacity source).mp hkept
  have hsize : (copyReplayText destination source).size.toNat =
      (copyFrom 0 capacity source).length := UInt16.toNat_ofNat_of_lt' (h _ hcaptured)
  have hview : (copyReplayText destination source).view = copyFrom 0 capacity source := by
    rw [ReplayText.view, hsize]
    exact take_left
  refine ⟨hview ▸ hcaptured, fun p hp => ?_, ?_, hview ▸ hkept.valid, fun allowEmpty => ?_⟩
  · rw [hview]
    exact copyFrom_longest 0 capacity p source ((kept_iff p capacity source).mpr hp)
  · rw [hsize]
    exact (getElem?_append_right le_rfl).trans (by rw [Nat.sub_self]; rfl)
  · have hzero : (copyReplayText destination source).size = 0 ↔ copyFrom 0 capacity source = [] := by
      rw [← UInt16.toNat_inj, hsize]
      exact length_eq_zero_iff
    rw [isValidText, decide_eq_true_eq, hsize, hzero, hview]
    have hfits := not_lt.mpr hkept.fits
    have hvalid : isValidUtf8 (copyFrom 0 capacity source) = true := hkept.valid
    cases allowEmpty <;> simp [hfits, hvalid]

/-- Of 65536 letters in a buffer for as many, the size keeps nothing. -/
theorem capture_size_wraps : ¬(copyReplayText (default : ReplayText (2^16))
    (List.replicate (2^16) 0x61)).Captures (List.replicate (2^16) 0x61) := by
  intro h
  have hvalid : validUTF8 (List.replicate (2^16) 0x61) = true := by
    apply validUTF8_of_ascii
    intro b hb
    rw [eq_of_mem_replicate hb]
    decide
  have hlong := h.longest _ ⟨prefix_rfl, length_replicate.le, hvalid,
    fun hmem => absurd (eq_of_mem_replicate hmem) (by decide)⟩
  rw [length_replicate] at hlong
  exact absurd (view_length_lt _) (not_lt.mpr hlong)

end Recorder
end YunPin
