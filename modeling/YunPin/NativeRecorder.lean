import YunPin.NativeFrame

/-! The native recorder: its fixed-size events and their checks, the JSON text that it writes by hand,
and the ring between the input thread and the sink. -/
namespace YunPin
open ByteText JsonText List

namespace Recorder
open Replay

def kReplayCandidateLimit : ℕ := 8
def kReplayRingCapacity : ℕ := 64

inductive ReplayEventType where
  | composition | select | commit | backspace | delete | abort
  deriving DecidableEq, Repr, Inhabited

/-- The array has one place more than the capacity, for a terminating zero. -/
structure ReplayText (capacity : ℕ) where
  bytes : Bytes
  size : UInt16
  length_eq : bytes.length = capacity+1

instance (capacity : ℕ) : Inhabited (ReplayText capacity) :=
  ⟨⟨List.replicate (capacity+1) 0, 0, length_replicate⟩⟩

def ReplayText.view {capacity : ℕ} (text : ReplayText capacity) : Bytes :=
  text.bytes.take text.size.toNat

structure ReplayCandidate where
  text : ReplayText 256
  isCorrection : Bool
  highlighted : Bool
  deriving Inhabited

structure ReplayComposition where
  rawInput : ReplayText 512
  normalizedPinyin : ReplayText 512
  caretByte : UInt16
  candidateCount : UInt8
  exactPathAvailable : Bool
  candidates : List ReplayCandidate
  candidates_length : candidates.length = kReplayCandidateLimit

instance : Inhabited ReplayComposition :=
  ⟨⟨default, default, 0, 0, false, List.replicate kReplayCandidateLimit default,
    length_replicate⟩⟩

structure ReplayNativeEvent where
  type : ReplayEventType
  monotonicUS : UInt64
  utcUnixUS : UInt64
  composition : ReplayComposition
  selectionRank : UInt8
  selectionText : ReplayText 256
  editCount : UInt32
  finalText : ReplayText 2048
  deriving Inhabited

def ReplayComposition.shown (composition : ReplayComposition) : List ReplayCandidate :=
  composition.candidates.take composition.candidateCount.toNat

def eventTypeName : ReplayEventType → Bytes
  | .composition => lit "composition_snapshot"
  | .select => lit "select"
  | .commit => lit "commit"
  | .backspace => lit "backspace"
  | .delete => lit "delete"
  | .abort => lit "abort"

def appendJsonByte (byte : UInt8) : Bytes :=
  if byte = 0x22 then lit "\\\""
  else if byte = 0x5C then lit "\\\\"
  else if byte = 0x08 then lit "\\b"
  else if byte = 0x0C then lit "\\f"
  else if byte = 0x0A then lit "\\n"
  else if byte = 0x0D then lit "\\r"
  else if byte = 0x09 then lit "\\t"
  else if byte < 0x20 then
    lit "\\u00" ++ [hexDigit (byte.toNat/16%16), hexDigit (byte.toNat%16)]
  else [byte]

def appendJsonString (value : Bytes) : Bytes :=
  lit "\"" ++ (value.flatMap appendJsonByte ++ lit "\"")

def appendBool (b : Bool) : Bytes := if b then lit "true" else lit "false"

def appendCandidate (candidate : ReplayCandidate) : Bytes :=
  lit "\x7b\"text\":" ++ (appendJsonString candidate.text.view ++
    (lit ",\"is_correction\":" ++ (appendBool candidate.isCorrection ++
      (lit ",\"highlighted\":" ++ (appendBool candidate.highlighted ++ lit "\x7d")))))

def appendCandidates : ℕ → List ReplayCandidate → Bytes
  | _, [] => []
  | index, candidate :: rest =>
    (if index ≠ 0 then lit "," else []) ++ (appendCandidate candidate ++
      appendCandidates (index+1) rest)

def appendComposition (composition : ReplayComposition) : Bytes :=
  lit "\"composition\":\x7b" ++ (lit "\"raw_input\":" ++
    (appendJsonString composition.rawInput.view ++ (lit ",\"normalized_pinyin\":" ++
      (appendJsonString composition.normalizedPinyin.view ++ (lit ",\"caret_byte\":" ++
        (decimal composition.caretByte.toNat ++ (lit ",\"exact_path_available\":" ++
          (appendBool composition.exactPathAvailable ++ (lit ",\"candidates\":[" ++
            (appendCandidates 0 composition.shown ++ lit "]\x7d"))))))))))

def appendSelection (event : ReplayNativeEvent) : Bytes :=
  if event.type = .select then
    lit ",\"selection\":\x7b\"rank\":" ++ (decimal event.selectionRank.toNat ++
      (lit ",\"text\":" ++ (appendJsonString event.selectionText.view ++ lit "\x7d")))
  else []

def appendEditCount (event : ReplayNativeEvent) : Bytes :=
  if event.type = .backspace ∨ event.type = .delete then
    lit ",\"edit_count\":" ++ decimal event.editCount.toNat
  else []

def appendFinalText (event : ReplayNativeEvent) : Bytes :=
  if event.type = .commit then lit ",\"final_text\":" ++ appendJsonString event.finalText.view
  else []

def serializeEvent (event : ReplayNativeEvent) : Bytes :=
  lit "\x7b\"version\":\"yunpin.replay.native.v1\"" ++ (lit ",\"monotonic_us\":" ++
    (decimal event.monotonicUS.toNat ++ (lit ",\"utc_unix_us\":" ++
      (decimal event.utcUnixUS.toNat ++ (lit ",\"type\":\"" ++ (eventTypeName event.type ++
        (lit "\"," ++ (appendComposition event.composition ++ (appendSelection event ++
          (appendEditCount event ++ (appendFinalText event ++ lit "\x7d")))))))))))

def isContinuation (byte : UInt8) : Bool := byte &&& 0xC0 = 0x80

def utf8Width (first : UInt8) : Option ℕ :=
  if first = 0 then none
  else if first < 0x80 then some 1
  else if 0xC2 ≤ first ∧ first ≤ 0xDF then some 2
  else if 0xE0 ≤ first ∧ first ≤ 0xEF then some 3
  else if 0xF0 ≤ first ∧ first ≤ 0xF4 then some 4
  else none

/-- An overlong form, a surrogate, or a value that is too great, by its first two bytes. -/
def outOfRange (width : ℕ) (first second : UInt8) : Bool :=
  (width = 3 ∧ first = 0xE0 ∧ second < 0xA0) ∨ (width = 3 ∧ first = 0xED ∧ second ≥ 0xA0) ∨
    (width = 4 ∧ first = 0xF0 ∧ second < 0x90) ∨ (width = 4 ∧ first = 0xF4 ∧ second ≥ 0x90)

/-- The loop of `IsValidUtf8`, with the bytes that the index has still to pass. -/
def isValidUtf8From : ℕ → Bytes → Bool
  | _, [] => true
  | k+1, _ :: rest => isValidUtf8From k rest
  | 0, first :: rest =>
    match utf8Width first with
    | none => false
    | some width =>
      if width > rest.length+1 then false
      else if (rest.take (width-1)).all isContinuation = false then false
      else if outOfRange width first (rest.headD 0) then false
      else isValidUtf8From (width-1) rest

def isValidUtf8 (value : Bytes) : Bool := isValidUtf8From 0 value

def isValidText {capacity : ℕ} (text : ReplayText capacity) (allowEmpty : Bool) : Bool :=
  ¬(text.size.toNat > capacity ∨ (allowEmpty = false ∧ text.size = 0)) ∧
    isValidUtf8 text.view = true

def isValidComposition (composition : ReplayComposition) : Bool :=
  ¬(composition.candidateCount.toNat > kReplayCandidateLimit ∨
      composition.caretByte > composition.rawInput.size ∨
      isValidText composition.rawInput true = false ∨
      isValidText composition.normalizedPinyin true = false ∨
      (composition.caretByte ≠ 0 ∧ composition.caretByte ≠ composition.rawInput.size ∧
        isContinuation (composition.rawInput.bytes.getD composition.caretByte.toNat 0) = true)) ∧
    (∀ candidate ∈ composition.shown, isValidText candidate.text false = true) ∧
    composition.shown.countP (fun candidate => candidate.highlighted) ≤ 1

def isValidPayload (event : ReplayNativeEvent) : Bool :=
  match event.type with
  | .select =>
    event.selectionRank ≠ 0 ∧
      event.selectionRank.toNat ≤ event.composition.candidateCount.toNat ∧
      isValidText event.selectionText false = true ∧
      event.selectionText.view =
        (event.composition.candidates.getD (event.selectionRank.toNat-1) default).text.view
  | .commit => isValidText event.finalText false
  | .backspace => event.editCount ≠ 0 ∧ event.editCount.toNat ≤ 1024
  | .delete => event.editCount ≠ 0 ∧ event.editCount.toNat ≤ 1024
  | .composition => true
  | .abort => true

def isValidEvent (event : ReplayNativeEvent) : Bool :=
  event.utcUnixUS ≠ 0 ∧ isValidComposition event.composition = true ∧ isValidPayload event = true

structure ReplayNativeProducer where
  ring : Fin kReplayRingCapacity → ReplayNativeEvent := fun _ => default
  head : Fin kReplayRingCapacity := ⟨0, by decide⟩
  tail : Fin kReplayRingCapacity := ⟨0, by decide⟩
  dropped : UInt64 := 0
  enabled : Bool := false

def nextSlot (slot : Fin kReplayRingCapacity) : Fin kReplayRingCapacity :=
  ⟨(slot.val+1)%kReplayRingCapacity, Nat.mod_lt _ (by decide)⟩

def ReplayNativeProducer.tryPush (producer : ReplayNativeProducer) (event : ReplayNativeEvent) :
    ReplayNativeProducer × Bool :=
  if producer.enabled = false then (producer, false)
  else if isValidEvent event = false then
    ({ producer with dropped := producer.dropped+1 }, false)
  else if nextSlot producer.head = producer.tail then
    ({ producer with dropped := producer.dropped+1 }, false)
  else
    ({ producer with
        ring := Function.update producer.ring producer.head event
        head := nextSlot producer.head }, true)

theorem tryPush_valid {producer : ReplayNativeProducer} {event : ReplayNativeEvent}
    (h : (producer.tryPush event).2 = true) : isValidEvent event = true := by
  rw [ReplayNativeProducer.tryPush] at h
  split_ifs at h with henabled hvalid hfull
  exact Bool.not_eq_false _ ▸ hvalid

theorem isContinuation_eq (byte : UInt8) : isContinuation byte = isCont byte := by
  revert byte
  decide +kernel

variable (s : Bytes) (first : UInt8) (rest : Bytes) {width : ℕ}

theorem utf8Width_eq {first : UInt8} (h : first ≠ 0) : utf8Width first = runeNeed first := by
  revert first
  decide +kernel

theorem utf8Width_cases (h : utf8Width first = some width) :
    (width = 1 ∧ 0 < first.toNat ∧ first.toNat < 0x80) ∨
      (width = 2 ∧ 0xC2 ≤ first.toNat ∧ first.toNat ≤ 0xDF) ∨
      (width = 3 ∧ 0xE0 ≤ first.toNat ∧ first.toNat ≤ 0xEF) ∨
      (width = 4 ∧ 0xF0 ≤ first.toNat ∧ first.toNat ≤ 0xF4) := by
  revert width
  change ∀ width ∈ utf8Width first, _
  revert first
  decide +kernel

theorem outOfRange_iff (c : UInt8) (cs : Bytes) (h : utf8Width first = some width) :
    (((c :: cs).all isContinuation = true) ∧ outOfRange width first c = false) ↔
      tailOk first (c :: cs) = true := by
  have hall : (c :: cs).all isContinuation = (c :: cs).all isCont := by
    rw [funext isContinuation_eq]
  have hcases := utf8Width_cases first h
  rw [hall, tailOk, outOfRange, decide_eq_false_iff_not]
  simp only [Bool.and_eq_true, Bool.or_eq_true, bne_iff_ne, ne_eq, decide_eq_true_eq,
    ← UInt8.toNat_inj, UInt8.lt_iff_toNat_lt, UInt8.le_iff_toNat_le, ge_iff_le]
  change (_ ∧ ¬((width = 3 ∧ first.toNat = 224 ∧ c.toNat < 160) ∨
      (width = 3 ∧ first.toNat = 237 ∧ 160 ≤ c.toNat) ∨
      (width = 4 ∧ first.toNat = 240 ∧ c.toNat < 144) ∨
      (width = 4 ∧ first.toNat = 244 ∧ 144 ≤ c.toNat))) ↔
    ((((¬first.toNat = 224 ∨ 160 ≤ c.toNat) ∧ (¬first.toNat = 237 ∨ c.toNat ≤ 159)) ∧
      (¬first.toNat = 240 ∨ 144 ≤ c.toNat)) ∧ (¬first.toNat = 244 ∨ c.toNat ≤ 143)) ∧ _
  rw [and_comm]
  refine and_congr_left (fun _ => ?_)
  omega

theorem runeSize_iff (h : utf8Width first = some width) :
    (¬width > rest.length+1 ∧ (rest.take (width-1)).all isContinuation = true ∧
      outOfRange width first (rest.headD 0) = false) ↔ runeSize first rest = some width := by
  have hcases := utf8Width_cases first h
  have hne : first ≠ 0 := by
    rintro rfl
    cases h
  rw [runeSize, ← utf8Width_eq hne, h]
  dsimp only
  rw [length_take]
  by_cases hone : width = 1
  · subst hone
    have hrange : outOfRange 1 first (rest.headD 0) = false := by
      rw [outOfRange, decide_eq_false_iff_not]
      omega
    rw [hrange, if_pos ⟨Nat.zero_min _, rfl⟩]
    simp
  cases rest with
  | nil =>
    have hlong : width > 1 := by omega
    rw [if_neg (fun hlength => absurd hlength.1 (by simp; omega))]
    exact ⟨fun hlength => absurd hlong hlength.1, fun hnone => by cases hnone⟩
  | cons c cs =>
    obtain ⟨k, rfl⟩ : ∃ k, width = k+2 := ⟨width-2, by omega⟩
    have htake : (c :: cs).take (k+2-1) = c :: cs.take k := rfl
    have hhead : (c :: cs).headD 0 = c := rfl
    rw [htake, hhead, outOfRange_iff first c _ h, length_cons]
    split_ifs with hsize
    · refine ⟨fun _ => rfl, fun _ => ⟨?_, hsize.2⟩⟩
      have := hsize.1
      omega
    · refine ⟨fun hgood => absurd ⟨?_, hgood.2⟩ hsize, fun hnone => by cases hnone⟩
      have := hgood.1
      omega

/-- What the loop asks of the bytes at a place, in the words of the decoder. -/
theorem utf8Width_iff (width : ℕ) : (utf8Width first = some width ∧ ¬width > rest.length+1 ∧
    (rest.take (width-1)).all isContinuation = true ∧
      outOfRange width first (rest.headD 0) = false) ↔
    first ≠ 0 ∧ runeSize first rest = some width := by
  constructor
  · rintro ⟨hwidth, hgood⟩
    refine ⟨?_, (runeSize_iff first rest hwidth).mp hgood⟩
    rintro rfl
    cases hwidth
  · rintro ⟨hne, hsize⟩
    have hwidth : utf8Width first = some width := by
      rw [utf8Width_eq hne]
      exact (runeSize_facts hsize).1
    exact ⟨hwidth, (runeSize_iff first rest hwidth).mpr hsize⟩

theorem isValidUtf8From_cons : isValidUtf8From 0 (first :: rest) = true ↔
    ∃ width, (first ≠ 0 ∧ runeSize first rest = some width) ∧
      isValidUtf8From (width-1) rest = true := by
  simp only [← utf8Width_iff]
  rw [isValidUtf8From]
  cases utf8Width first with
  | none => simp
  | some n =>
    dsimp only
    split_ifs <;> simp_all

theorem isCont_ne_zero {l : Bytes} (h : l.all isContinuation = true) : 0 ∉ l := by
  intro hmem
  have hzero := all_eq_true.mp h 0 hmem
  cases hzero

theorem isValidUtf8From_iff (k : ℕ) {s : Bytes} (hk : k ≤ s.length) :
    isValidUtf8From k s = true ↔ validFrom k s = true ∧ 0 ∉ s.drop k := by
  induction s generalizing k with
  | nil =>
    obtain rfl : k = 0 := Nat.le_zero.mp hk
    simp [isValidUtf8From, validFrom]
  | cons first rest ih =>
    cases k with
    | succ k =>
      rw [isValidUtf8From, validFrom, drop_succ_cons]
      exact ih k (Nat.le_of_succ_le_succ hk)
    | zero =>
      rw [isValidUtf8From_cons, validFrom, drop_zero, mem_cons, not_or]
      cases hsize : runeSize first rest with
      | none => simp
      | some width =>
        by_cases hzero : first = 0
        · simp [hzero]
        obtain ⟨_, hlong, hall, _⟩ := (utf8Width_iff first rest width).mpr ⟨hzero, hsize⟩
        have hsplit : 0 ∉ rest ↔ 0 ∉ rest.drop (width-1) := by
          conv_lhs => rw [← take_append_drop (width-1) rest]
          rw [mem_append, not_or]
          exact and_iff_right (isCont_ne_zero hall)
        have hrest := ih (width-1) (by omega)
        rw [hsplit]
        constructor
        · rintro ⟨_, ⟨_, hwidth⟩, hvalid⟩
          obtain rfl := Option.some.inj hwidth
          exact ⟨(hrest.mp hvalid).1, Ne.symm hzero, (hrest.mp hvalid).2⟩
        · rintro ⟨hvalid, _, hmem⟩
          exact ⟨width, ⟨hzero, rfl⟩, hrest.mpr ⟨hvalid, hmem⟩⟩

theorem isValidUtf8_iff : isValidUtf8 s = true ↔ validUTF8 s = true ∧ 0 ∉ s :=
  isValidUtf8From_iff 0 (Nat.zero_le _)

theorem appendJsonByte_ascii {r : ℕ} (hr : r < 0x80) :
    appendJsonByte (UInt8.ofNat r) = asciiEscape false r := by
  have hall : ∀ n : Fin 128, appendJsonByte (UInt8.ofNat n.val) = asciiEscape false n.val := by
    decide +kernel
  exact hall ⟨r, hr⟩

theorem appendJsonByte_high {byte : UInt8} (h : 0x80 ≤ byte.toNat) :
    appendJsonByte byte = [byte] := by
  have hne (c : UInt8) (hc : c.toNat < 0x80) : byte ≠ c := by
    rintro rfl
    omega
  have hlt : ¬byte < 0x20 := by
    rw [UInt8.lt_iff_toNat_lt]
    exact not_lt.mpr (le_trans (by decide) h)
  rw [appendJsonByte, if_neg (hne _ (by decide)), if_neg (hne _ (by decide)),
    if_neg (hne _ (by decide)), if_neg (hne _ (by decide)), if_neg (hne _ (by decide)),
    if_neg (hne _ (by decide)), if_neg (hne _ (by decide)), if_neg hlt]

theorem flatMap_high {l : Bytes} (h : ∀ b ∈ l, 0x80 ≤ b.toNat) : l.flatMap appendJsonByte = l := by
  induction l with
  | nil => rfl
  | cons b rest ih =>
    obtain ⟨hb, hrest⟩ := forall_mem_cons.mp h
    rw [flatMap_cons, appendJsonByte_high hb, ih hrest]
    rfl

/-- Rune by rune, the loop over the bytes escapes the ASCII characters and copies the others. -/
def recorderWriter : RuneWriter where
  write r := (encodeRune r).flatMap appendJsonByte
  reads r hr := by
    by_cases hascii : r < 0x80
    · rw [encodeRune_ascii r hascii, flatMap_singleton, appendJsonByte_ascii hascii]
      exact asciiEscape_reads false hascii
    · have hhigh := not_lt.mp hascii
      rw [flatMap_high (le_of_mem_encodeRune hhigh)]
      exact ⟨_, Or.inl rfl, scanString_plain _ (visible_encodeRune hhigh)⟩
  visible r hr := by
    by_cases hascii : r < 0x80
    · rw [encodeRune_ascii r hascii, flatMap_singleton, appendJsonByte_ascii hascii]
      exact asciiEscape_visible false hascii
    · have hhigh := not_lt.mp hascii
      rw [flatMap_high (le_of_mem_encodeRune hhigh)]
      exact fun b hb => (visible_encodeRune hhigh b hb).2.2

theorem appendJsonString_eq (hs : validUTF8 s = true) :
    appendJsonString s = recorderWriter.quote s := by
  have hrunes : encodeRunes (runes s) = s := by
    rw [encodeRunes_runes, toValidUTF8_of_valid s hs]
  have hbytes : (runes s).flatMap recorderWriter.write = s.flatMap appendJsonByte := by
    conv_rhs => rw [← hrunes, encodeRunes, flatMap_assoc]
    rfl
  rw [appendJsonString, RuneWriter.quote, hbytes]
  rfl

theorem denotes_appendJsonString (hs : validUTF8 s = true) :
    Denotes (appendJsonString s) (.string s) := by
  rw [appendJsonString_eq s hs]
  exact denotes_string recorderWriter s hs

end Recorder
end YunPin
