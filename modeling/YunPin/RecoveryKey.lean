import YunPin.BitGroups
import YunPin.Utf8
import YunPin.XorLinear

/-! The recovery key as text: 32 bytes regrouped into quintets, six more quintets of
checksum, one character each after a fixed first part. -/
namespace YunPin
open ByteText List

inductive RecoveryKeyError
  | keyLength
  | sourceWidth
  | zeroPadding
  | mixedCase
  | format
  | unexpectedPrefix (found : Bytes)
  | character
  | checksum
  | payload
deriving DecidableEq

def RecoveryKeyError.message (quote : Bytes → String) : RecoveryKeyError → String
  | keyLength => "recovery key must be 32 bytes"
  | sourceWidth => "input value exceeds source bit width"
  | zeroPadding => "invalid zero padding"
  | mixedCase => "mixed-case recovery key"
  | format => "invalid recovery key format"
  | unexpectedPrefix found => "unexpected recovery key prefix " ++ quote found
  | character => "invalid recovery key character"
  | checksum => "recovery key checksum mismatch"
  | payload => "recovery key payload must be 32 bytes"

def recoveryHRP : Bytes := lit "yprec"
def bech32mConstant : ℕ := 0x2bc830a3
def bech32Charset : Bytes := lit "qpzry9x8gf2tvdw0s3jn54khce6mua7l"
def bech32Generators : List ℕ := [0x3b6a57b2, 0x26508e6d, 0x1ea119fa, 0x3d4233dd, 0x2a1462b3]

def bech32Round (checksum value : ℕ) : ℕ :=
  let top := checksum >>> 25
  bech32Generators.zipIdx.foldl (fun c g => if (top >>> g.2) &&& 1 = 1 then c ^^^ g.1 else c)
    (((checksum &&& 0x1ffffff) <<< 5) ^^^ value)

def bech32Polymod (values : List ℕ) : ℕ := values.foldl bech32Round 1

def expandHRP (hrp : Bytes) : List ℕ :=
  hrp.map (fun b => b.toNat >>> 5) ++ [0] ++ hrp.map (fun b => b.toNat &&& 31)

structure BitBuffer where
  accumulator : ℕ
  bitCount : ℕ
  output : List ℕ

def drainBits (toBits accumulator : ℕ) : (fuel bitCount : ℕ) → (output : List ℕ) → ℕ × List ℕ
  | 0, bitCount, output => (bitCount, output)
  | fuel+1, bitCount, output =>
    if bitCount ≥ toBits then
      drainBits toBits accumulator fuel (bitCount-toBits)
        (output ++ [(accumulator >>> (bitCount-toBits)) &&& (2^toBits-1)])
    else (bitCount, output)

def bufferBits (fromBits toBits : ℕ) : List ℕ → BitBuffer → Except RecoveryKeyError BitBuffer
  | [], buffer => .ok buffer
  | value :: rest, buffer =>
    if value >>> fromBits ≠ 0 then .error .sourceWidth
    else
      let accumulator := ((buffer.accumulator <<< fromBits) ||| value) &&& (2^(fromBits+toBits-1)-1)
      -- Each group takes at least one bit.
      let drained := drainBits toBits accumulator (buffer.bitCount+fromBits)
        (buffer.bitCount+fromBits) buffer.output
      bufferBits fromBits toBits rest ⟨accumulator, drained.1, drained.2⟩

def convertBits (input : List ℕ) (fromBits toBits : ℕ) (pad : Bool) :
    Except RecoveryKeyError (List ℕ) :=
  match bufferBits fromBits toBits input ⟨0, 0, []⟩ with
  | .error e => .error e
  | .ok buffer =>
    let last := (buffer.accumulator <<< (toBits-buffer.bitCount)) &&& (2^toBits-1)
    if pad then
      .ok (if buffer.bitCount > 0 then buffer.output ++ [last] else buffer.output)
    else if buffer.bitCount ≥ fromBits ∨ last ≠ 0 then .error .zeroPadding
    else .ok buffer.output

def recoveryText (values : List ℕ) : Bytes :=
  recoveryHRP ++ [49] ++ values.map (fun v => bech32Charset.getD v 0)

def bech32Checksum (data : List ℕ) : List ℕ :=
  let polymod := bech32Polymod (expandHRP recoveryHRP ++ data ++ List.replicate 6 0) ^^^
    bech32mConstant
  (List.range 6).map (fun index => (polymod >>> (5*(5-index))) &&& 31)

def encodeRecoveryKey (key : Bytes) : Except RecoveryKeyError Bytes :=
  if key.length ≠ 32 then .error .keyLength
  else
    match convertBits (key.map UInt8.toNat) 8 5 true with
    | .error e => .error e
    | .ok data => .ok (recoveryText (data ++ bech32Checksum data))

structure CaseMap where
  lower : ℕ → ℕ
  upper : ℕ → ℕ

def lastIndexByte (b : UInt8) : Bytes → Option ℕ
  | [] => none
  | c :: rest =>
    match lastIndexByte b rest with
    | some i => some (i+1)
    | none => if c = b then some 0 else none

def charsetValues : Bytes → Option (List ℕ)
  | [] => some []
  | c :: rest =>
    match bech32Charset.findIdx? (fun x => x = c), charsetValues rest with
    | some v, some vs => some (v :: vs)
    | _, _ => none

def decodeRecoveryValues (values : List ℕ) : Except RecoveryKeyError Bytes :=
  if bech32Polymod (expandHRP recoveryHRP ++ values) ≠ bech32mConstant then .error .checksum
  else
    match convertBits (values.take (values.length-6)) 5 8 false with
    | .error e => .error e
    | .ok decoded =>
      if decoded.length ≠ 32 then .error .payload else .ok (decoded.map UInt8.ofNat)

def decodeRecoveryText (encoded : Bytes) : Except RecoveryKeyError Bytes :=
  match lastIndexByte 49 encoded with
  | none => .error .format
  | some separator =>
    if separator ≤ 0 ∨ separator+7 > encoded.length then .error .format
    else if encoded.take separator ≠ recoveryHRP then
      .error (.unexpectedPrefix (encoded.take separator))
    else
      match charsetValues (encoded.drop (separator+1)) with
      | none => .error .character
      | some values => decodeRecoveryValues values

def decodeRecoveryKey (cases : CaseMap) (encoded : Bytes) : Except RecoveryKeyError Bytes :=
  if encoded ≠ mapRunes cases.lower encoded ∧ encoded ≠ mapRunes cases.upper encoded then
    .error .mixedCase
  else decodeRecoveryText (mapRunes cases.lower encoded)

/-- The buffer after the groups in `read`: the complete groups are given out, the rest of
the bits is in the accumulator. -/
structure BitBuffer.Holds (fromBits toBits : ℕ) (read : List ℕ) (buffer : BitBuffer) : Prop where
  accumulator : buffer.accumulator = BitGroups.value fromBits read%2^(fromBits+toBits-1)
  bitCount : buffer.bitCount < toBits
  length : buffer.output.length*toBits+buffer.bitCount = read.length*fromBits
  output : BitGroups.value toBits buffer.output = BitGroups.value fromBits read/2^buffer.bitCount
  bound : ∀ d ∈ buffer.output, d < 2^toBits

theorem next_group (n : ℕ) {width count toBits : ℕ} (hcount : toBits ≤ count) (hwidth : count ≤ width) :
    n/2^(count-toBits) =
      n/2^count*2^toBits+(((n%2^width) >>> (count-toBits)) &&& (2^toBits-1)) := by
  have hpow : 2^count = 2^(count-toBits)*2^toBits := by
    rw [← pow_add, Nat.sub_add_cancel hcount]
  have hsplit : 2^width = 2^(count-toBits)*2^(width-(count-toBits)) := by
    rw [← pow_add]
    congr 1
    omega
  have hdvd : 2^toBits ∣ 2^(width-(count-toBits)) := pow_dvd_pow 2 (by omega)
  rw [Nat.and_two_pow_sub_one_eq_mod, Nat.shiftRight_eq_div_pow, hsplit,
    Nat.mod_mul_right_div_self, Nat.mod_mod_of_dvd _ hdvd, hpow, ← Nat.div_div_eq_div_mul]
  exact (Nat.div_add_mod' _ _).symm

theorem drainBits_spec (n width toBits : ℕ) (hto : 0 < toBits) {fuel : ℕ} (count : ℕ)
    (output : List ℕ) (hfuel : count ≤ fuel) (hcount : count ≤ width)
    (hvalue : BitGroups.value toBits output = n/2^count) (hbound : ∀ d ∈ output, d < 2^toBits) :
    let drained := drainBits toBits (n%2^width) fuel count output
    drained.1 < toBits ∧ drained.2.length*toBits+drained.1 = output.length*toBits+count ∧
      BitGroups.value toBits drained.2 = n/2^drained.1 ∧ ∀ d ∈ drained.2, d < 2^toBits := by
  induction fuel generalizing count output with
  | zero =>
    obtain rfl : count = 0 := by omega
    exact ⟨hto, rfl, hvalue, hbound⟩
  | succ fuel ih =>
    rw [drainBits]
    by_cases hc : count ≥ toBits
    · rw [if_pos hc]
      have hnext := ih (count-toBits)
        (output ++ [((n%2^width) >>> (count-toBits)) &&& (2^toBits-1)]) (by omega) (by omega)
        (by rw [BitGroups.value_concat, hvalue]; exact (next_group n hc hcount).symm)
        (by
          intro d hd
          rcases mem_append.mp hd with hd | hd
          · exact hbound d hd
          · rw [mem_singleton.mp hd, Nat.and_two_pow_sub_one_eq_mod]
            exact Nat.mod_lt _ (Nat.two_pow_pos _))
      refine ⟨hnext.1, ?_, hnext.2.2⟩
      rw [hnext.2.1, length_append, length_singleton, Nat.add_mul]
      omega
    · rw [if_neg hc]
      exact ⟨by omega, rfl, hvalue, hbound⟩

variable {fromBits toBits : ℕ} {read : List ℕ} {buffer : BitBuffer}

theorem BitBuffer.Holds.step (h : buffer.Holds fromBits toBits read) {value : ℕ}
    (hvalue : value < 2^fromBits) :
    let accumulator := ((buffer.accumulator <<< fromBits) ||| value) &&& (2^(fromBits+toBits-1)-1)
    let drained := drainBits toBits accumulator (buffer.bitCount+fromBits)
      (buffer.bitCount+fromBits) buffer.output
    BitBuffer.Holds fromBits toBits (read ++ [value]) ⟨accumulator, drained.1, drained.2⟩ := by
  intro accumulator
  have hbit := h.bitCount
  have hacc : accumulator =
      BitGroups.value fromBits (read ++ [value])%2^(fromBits+toBits-1) := by
    show ((buffer.accumulator <<< fromBits) ||| value) &&& (2^(fromBits+toBits-1)-1) = _
    rw [Nat.and_two_pow_sub_one_eq_mod, ← Nat.shiftLeft_add_eq_or_of_lt hvalue, Nat.shiftLeft_eq,
      h.accumulator, BitGroups.value_concat]
    rw [Nat.add_mod, Nat.mod_mul_mod, ← Nat.add_mod]
  have hdrain := drainBits_spec (BitGroups.value fromBits (read ++ [value])) (fromBits+toBits-1)
    toBits (by omega) (buffer.bitCount+fromBits) buffer.output le_rfl
    (by omega)
    (by
      rw [h.output, BitGroups.value_concat, Nat.add_comm buffer.bitCount, pow_add,
        ← Nat.div_div_eq_div_mul, Nat.mul_comm (BitGroups.value fromBits read),
        Nat.mul_add_div (Nat.two_pow_pos _), Nat.div_eq_of_lt hvalue, Nat.add_zero])
    h.bound
  rw [← hacc] at hdrain
  obtain ⟨hlt, hlen, hout, hbound⟩ := hdrain
  refine ⟨hacc, hlt, ?_, hout, hbound⟩
  have hlength := h.length
  show (drainBits _ _ _ _ _).2.length*toBits+(drainBits _ _ _ _ _).1 = _
  rw [hlen, length_append, length_singleton, Nat.add_mul]
  omega

theorem bufferBits_spec (input read : List ℕ) (buffer : BitBuffer)
    (hinput : ∀ v ∈ input, v < 2^fromBits) (h : buffer.Holds fromBits toBits read) :
    ∃ last, bufferBits fromBits toBits input buffer = .ok last ∧
      last.Holds fromBits toBits (read ++ input) := by
  induction input generalizing read buffer with
  | nil => exact ⟨buffer, rfl, by rwa [append_nil]⟩
  | cons value rest ih =>
    have hvalue := hinput value mem_cons_self
    have hwide : value >>> fromBits = 0 := by
      rw [Nat.shiftRight_eq_div_pow, Nat.div_eq_of_lt hvalue]
    obtain ⟨last, hok, hlast⟩ := ih (read ++ [value]) _
      (forall_mem_cons.mp hinput).2 (h.step hvalue)
    refine ⟨last, ?_, ?_⟩
    · rw [bufferBits, if_neg (by simpa using hwide)]
      exact hok
    · rwa [append_assoc] at hlast

theorem bitBuffer_empty (hto : 0 < toBits) :
    BitBuffer.Holds fromBits toBits [] ⟨0, 0, []⟩ :=
  ⟨by simp [BitGroups.value], hto, by simp, by simp [BitGroups.value], by simp⟩

theorem last_group (h : buffer.Holds fromBits toBits read) (hfrom : 0 < fromBits) :
    (buffer.accumulator <<< (toBits-buffer.bitCount)) &&& (2^toBits-1) =
      BitGroups.value fromBits read%2^buffer.bitCount*2^(toBits-buffer.bitCount) := by
  have hbit := h.bitCount
  have hpow : 2^toBits = 2^buffer.bitCount*2^(toBits-buffer.bitCount) := by
    rw [← pow_add]
    congr 1
    omega
  rw [Nat.and_two_pow_sub_one_eq_mod, Nat.shiftLeft_eq, hpow, Nat.mul_mod_mul_right,
    h.accumulator, Nat.mod_mod_of_dvd _ (pow_dvd_pow 2 (by omega))]

theorem convertBits_pad {input : List ℕ} (fromBits toBits : ℕ) (hfrom : 0 < fromBits)
    (hto : 0 < toBits) (hinput : ∀ v ∈ input, v < 2^fromBits) :
    ∃ output, convertBits input fromBits toBits true = .ok output ∧
      (∀ d ∈ output, d < 2^toBits) ∧ input.length*fromBits ≤ output.length*toBits ∧
      output.length*toBits < input.length*fromBits+toBits ∧
      BitGroups.value toBits output =
        BitGroups.value fromBits input*2^(output.length*toBits-input.length*fromBits) := by
  obtain ⟨buffer, hok, h⟩ := bufferBits_spec input [] ⟨0, 0, []⟩ hinput
    (bitBuffer_empty hto)
  rw [nil_append] at h
  have hbit := h.bitCount
  have hlen := h.length
  have hlast := last_group h hfrom
  simp only [convertBits, hok, hlast, if_true]
  by_cases hcount : buffer.bitCount > 0
  · rw [if_pos hcount]
    have hsize : (buffer.output.length+1)*toBits-input.length*fromBits =
        toBits-buffer.bitCount := by
      rw [Nat.add_mul]
      omega
    refine ⟨_, rfl, ?_, ?_, ?_, ?_⟩
    · intro d hd
      rcases mem_append.mp hd with hd | hd
      · exact h.bound d hd
      · rw [mem_singleton.mp hd, ← hlast, Nat.and_two_pow_sub_one_eq_mod]
        exact Nat.mod_lt _ (Nat.two_pow_pos _)
    · rw [length_append, length_singleton, Nat.add_mul]
      omega
    · rw [length_append, length_singleton, Nat.add_mul]
      omega
    · have hpow : 2^toBits = 2^buffer.bitCount*2^(toBits-buffer.bitCount) := by
        rw [← pow_add]
        congr 1
        omega
      rw [BitGroups.value_concat, h.output, length_append, length_singleton, hsize, hpow,
        ← Nat.mul_assoc, ← Nat.add_mul, Nat.div_add_mod']
  · rw [if_neg hcount]
    obtain hzero : buffer.bitCount = 0 := by omega
    have hvalue := h.output
    rw [hzero] at hlen hvalue
    have hsize : buffer.output.length*toBits-input.length*fromBits = 0 := by omega
    refine ⟨_, rfl, h.bound, by omega, by omega, ?_⟩
    rw [hvalue, hsize]
    simp

theorem convertBits_no_pad (input output : List ℕ) (fromBits toBits : ℕ) (hfrom : 0 < fromBits)
    (hto : 0 < toBits) (hinput : ∀ v ∈ input, v < 2^fromBits) :
    convertBits input fromBits toBits false = .ok output ↔
      (∀ d ∈ output, d < 2^toBits) ∧ output.length*toBits ≤ input.length*fromBits ∧
      input.length*fromBits < output.length*toBits+toBits ∧
      input.length*fromBits < output.length*toBits+fromBits ∧
      BitGroups.value fromBits input =
        BitGroups.value toBits output*2^(input.length*fromBits-output.length*toBits) := by
  obtain ⟨buffer, hok, h⟩ := bufferBits_spec input [] ⟨0, 0, []⟩ hinput
    (bitBuffer_empty hto)
  rw [nil_append] at h
  have hbit := h.bitCount
  have hlen := h.length
  have hlast := last_group h hfrom
  have hrest : BitGroups.value fromBits input = BitGroups.value toBits buffer.output*
      2^buffer.bitCount+BitGroups.value fromBits input%2^buffer.bitCount := by
    rw [h.output, Nat.div_add_mod']
  have hzero : BitGroups.value fromBits input%2^buffer.bitCount*2^(toBits-buffer.bitCount) ≠ 0 ↔
      BitGroups.value fromBits input%2^buffer.bitCount ≠ 0 := by
    simp
  simp only [convertBits, hok, hlast, Bool.false_eq_true, if_false, hzero]
  constructor
  · intro hconvert
    split_ifs at hconvert with hbad
    obtain rfl : buffer.output = output := Except.ok.inj hconvert
    obtain ⟨hcount, hmod⟩ := not_or.mp hbad
    have hsize : input.length*fromBits-buffer.output.length*toBits = buffer.bitCount := by omega
    refine ⟨h.bound, by omega, by omega, by omega, ?_⟩
    rw [hsize]
    have := not_not.mp hmod
    omega
  · rintro ⟨hbound, hle, hlt, hfew, hvalue⟩
    -- The length fixes the number of bits left over, and the number the groups.
    have hlength : output.length = buffer.output.length := by
      have h1 : output.length*toBits < (buffer.output.length+1)*toBits := by
        rw [Nat.add_mul]
        omega
      have h2 : buffer.output.length*toBits < (output.length+1)*toBits := by
        rw [Nat.add_mul]
        omega
      have h1' := Nat.lt_of_mul_lt_mul_right h1
      have h2' := Nat.lt_of_mul_lt_mul_right h2
      omega
    rw [hlength] at hle hfew hvalue
    have hsize : input.length*fromBits-buffer.output.length*toBits = buffer.bitCount := by omega
    rw [hsize] at hvalue
    have hmod : BitGroups.value fromBits input%2^buffer.bitCount = 0 := by
      rw [hvalue, Nat.mul_mod_left]
    have hout : buffer.output = output := by
      apply BitGroups.value_injective _ _ hlength.symm h.bound hbound
      rw [h.output, hvalue, Nat.mul_div_cancel _ (Nat.two_pow_pos _)]
    rw [if_neg (by omega), hout]

variable (b : UInt8) (key text : Bytes) (data : List ℕ) (c : ℕ) (xs : List ℕ) {values : List ℕ}

theorem convertBits_key_iff {bytes : List ℕ} (hdata : ∀ d ∈ data, d < 2^5)
    (hbytes : ∀ b ∈ bytes, b < 2^8) (hlen : bytes.length = 32) :
    convertBits data 5 8 false = .ok bytes ↔ convertBits bytes 8 5 true = .ok data := by
  obtain ⟨output, hok, hbound, hle, hlt, hvalue⟩ :=
    convertBits_pad 8 5 (by decide) (by decide) hbytes
  rw [hok, convertBits_no_pad data bytes 5 8 (by decide) (by decide) hdata]
  rw [hlen] at hle hlt hvalue ⊢
  have houtput : output.length = 52 := by omega
  rw [houtput] at hvalue
  constructor
  · rintro ⟨-, hle', hlt', hfew, hback⟩
    have hdlen : data.length = 52 := by omega
    rw [hdlen] at hback
    rw [BitGroups.value_injective output data (by omega) hbound hdata (by rw [hvalue, hback])]
  · intro heq
    obtain rfl : output = data := Except.ok.inj heq
    rw [houtput]
    exact ⟨hbytes, by decide, by decide, by decide, hvalue⟩

def bech32Shift (c : ℕ) : ℕ :=
  ((c &&& 0x1ffffff) <<< 5) ^^^ (c/2^25%2*0x3b6a57b2) ^^^ (c/2^26%2*0x26508e6d) ^^^
    (c/2^27%2*0x1ea119fa) ^^^ (c/2^28%2*0x3d4233dd) ^^^ (c/2^29%2*0x2a1462b3)

theorem if_bit (i x g : ℕ) :
    (if ((c >>> 25) >>> i) &&& 1 = 1 then x ^^^ g else x) = x ^^^ (c/2^(25+i)%2*g) := by
  rw [← Nat.shiftRight_add, Nat.and_one_is_mod, Nat.shiftRight_eq_div_pow]
  rcases Nat.mod_two_eq_zero_or_one (c/2^(25+i)) with h | h <;> simp [h]

theorem bech32Round_eq (v : ℕ) : bech32Round c v = bech32Shift c ^^^ v := by
  simp only [bech32Round, bech32Generators, zipIdx_cons, zipIdx_nil, foldl_cons,
    foldl_nil, if_bit, bech32Shift]
  ac_rfl

theorem additive_bech32Shift : XorLinear.Additive bech32Shift :=
  ((((((XorLinear.additive_shiftLeft 5).comp (XorLinear.additive_and 0x1ffffff)).xor
    (XorLinear.additive_bit 25 _)).xor (XorLinear.additive_bit 26 _)).xor
    (XorLinear.additive_bit 27 _)).xor (XorLinear.additive_bit 28 _)).xor
    (XorLinear.additive_bit 29 _)

theorem bech32Shift_lt : bech32Shift c < 2^30 := by
  have hlow : (c &&& 0x1ffffff) <<< 5 < 2^30 := by
    have : c &&& 0x1ffffff ≤ 0x1ffffff := Nat.and_le_right
    rw [Nat.shiftLeft_eq]
    omega
  have hbit (n g : ℕ) (hg : g < 2^30) : c/2^n%2*g < 2^30 := by
    rcases Nat.mod_two_eq_zero_or_one (c/2^n) with h | h <;> rw [h] <;> omega
  unfold bech32Shift
  exact Nat.xor_lt_two_pow (Nat.xor_lt_two_pow (Nat.xor_lt_two_pow (Nat.xor_lt_two_pow
    (Nat.xor_lt_two_pow hlow (hbit _ _ (by decide))) (hbit _ _ (by decide)))
    (hbit _ _ (by decide))) (hbit _ _ (by decide))) (hbit _ _ (by decide))

theorem bech32Shift_of_lt (h : c < 2^25) : bech32Shift c = c <<< 5 := by
  have hbit (n : ℕ) (hn : 25 ≤ n) : c/2^n = 0 :=
    Nat.div_eq_of_lt (h.trans_le (Nat.pow_le_pow_right (by decide) hn))
  have hlow : c &&& 0x1ffffff = c := by
    rw [show 0x1ffffff = 2^25-1 from rfl, Nat.and_two_pow_sub_one_eq_mod, Nat.mod_eq_of_lt h]
  simp only [bech32Shift, hlow, hbit 25 (by decide), hbit 26 (by decide), hbit 27 (by decide),
    hbit 28 (by decide), hbit 29 (by decide), Nat.zero_mod, Nat.zero_mul, Nat.xor_zero]

def bech32Rounds (c : ℕ) (values : List ℕ) : ℕ := values.foldl (fun c v => bech32Shift c ^^^ v) c

theorem bech32Polymod_eq (values : List ℕ) : bech32Polymod values = bech32Rounds 1 values := by
  have h : bech32Round = fun c v => bech32Shift c ^^^ v := by
    funext c v
    exact bech32Round_eq c v
  rw [bech32Polymod, h]
  rfl

theorem bech32Rounds_append (ys : List ℕ) :
    bech32Rounds c (xs ++ ys) = bech32Rounds (bech32Rounds c xs) ys := foldl_append

theorem bech32Rounds_concat (c : ℕ) (xs : List ℕ) (v : ℕ) :
    bech32Rounds c (xs ++ [v]) = bech32Shift (bech32Rounds c xs) ^^^ v := bech32Rounds_append c xs [v]

theorem bech32Rounds_xor (a b : ℕ) {xs ys : List ℕ} (h : xs.length = ys.length) :
    bech32Rounds a xs ^^^ bech32Rounds b ys =
      bech32Rounds (a ^^^ b) (List.zipWith (· ^^^ ·) xs ys) :=
  additive_bech32Shift.foldl a b xs ys h

theorem bech32Rounds_lt (hc : c < 2^30) (h : ∀ v ∈ values, v < 2^30) :
    bech32Rounds c values < 2^30 := by
  induction values using List.reverseRecOn with
  | nil => exact hc
  | append_singleton values v _ =>
    rw [bech32Rounds_concat]
    exact Nat.xor_lt_two_pow (bech32Shift_lt _) (h v (by simp))

theorem bech32Rounds_zero (hlen : values.length ≤ 6) (h : ∀ v ∈ values, v < 2^5) :
    bech32Rounds 0 values = BitGroups.value 5 values := by
  induction values using List.reverseRecOn with
  | nil => rfl
  | append_singleton values v ih =>
    rw [length_append, length_singleton] at hlen
    have hvalues : ∀ x ∈ values, x < 2^5 := fun x hx => h x (by simp [hx])
    have hlt : BitGroups.value 5 values < 2^25 :=
      (BitGroups.value_lt hvalues).trans_le (Nat.pow_le_pow_right (by decide) (by omega))
    rw [bech32Rounds_concat, ih (by omega) hvalues, bech32Shift_of_lt _ hlt,
      XorLinear.shiftLeft_xor_of_lt (h v (by simp)), BitGroups.value_concat]

theorem bech32Checksum_value {word : ℕ} (h : word < 2^30) :
    BitGroups.value 5 ((List.range 6).map (fun index => (word >>> (5*(5-index))) &&& 31)) = word := by
  have hand (x : ℕ) : x &&& 31 = x%32 := Nat.and_two_pow_sub_one_eq_mod x 5
  simp only [range_succ, range_zero, nil_append, map_cons, map_nil,
    cons_append, BitGroups.value, foldl_cons, foldl_nil, hand,
    Nat.shiftRight_eq_div_pow]
  norm_num
  omega

theorem bech32Checksum_length : (bech32Checksum data).length = 6 := by
  simp [bech32Checksum]

theorem bech32Checksum_lt : ∀ v ∈ bech32Checksum data, v < 2^5 := by
  intro v hv
  obtain ⟨index, -, rfl⟩ := mem_map.mp hv
  rw [show 31 = 2^5-1 from rfl, Nat.and_two_pow_sub_one_eq_mod]
  exact Nat.mod_lt _ (by decide)

theorem expandHRP_lt : ∀ v ∈ expandHRP recoveryHRP, v < 2^5 := by decide

theorem bech32Polymod_eq_iff {data check : List ℕ} (hdata : ∀ d ∈ data, d < 2^5)
    (hcheck : ∀ d ∈ check, d < 2^5) (hlen : check.length = 6) :
    bech32Polymod (expandHRP recoveryHRP ++ (data ++ check)) = bech32mConstant ↔
      check = bech32Checksum data := by
  have hreplicate : ∀ d ∈ List.replicate 6 0, d < 2^30 := by decide
  have hbase : ∀ d ∈ expandHRP recoveryHRP ++ data, d < 2^30 := by
    intro d hd
    rcases mem_append.mp hd with hd | hd
    · exact (expandHRP_lt d hd).trans (by decide)
    · exact (hdata d hd).trans (by decide)
  have hzip : List.zipWith (· ^^^ ·) (List.replicate 6 0) check = check := by
    rcases check with _ | ⟨a, _ | ⟨b, _ | ⟨c, _ | ⟨d, _ | ⟨e, _ | ⟨f, _ | _⟩⟩⟩⟩⟩⟩ <;>
      simp [List.replicate] at hlen ⊢
  -- The data with six zeros leave a word, and the symbols are added to it.
  have hsum : bech32Polymod (expandHRP recoveryHRP ++ (data ++ check)) =
      bech32Polymod (expandHRP recoveryHRP ++ data ++ List.replicate 6 0) ^^^
        BitGroups.value 5 check := by
    rw [← bech32Rounds_zero hlen.le hcheck, bech32Polymod_eq, bech32Polymod_eq,
      ← append_assoc, bech32Rounds_append _ _ check, bech32Rounds_append _ _ (List.replicate 6 0),
      bech32Rounds_xor _ _ (by rw [length_replicate, hlen]), Nat.xor_zero, hzip]
  have hword : bech32Polymod (expandHRP recoveryHRP ++ data ++ List.replicate 6 0) ^^^
      bech32mConstant < 2^30 := by
    rw [bech32Polymod_eq, bech32Rounds_append]
    exact Nat.xor_lt_two_pow (bech32Rounds_lt _
      (bech32Rounds_lt _ (by decide) hbase) hreplicate) (by decide)
  have hvalue := bech32Checksum_value hword
  rw [hsum]
  constructor
  · intro h
    apply BitGroups.value_injective _ _ (by rw [hlen, bech32Checksum_length]) hcheck
      (bech32Checksum_lt data)
    rw [bech32Checksum, hvalue, ← h, Nat.xor_xor_cancel_left]
  · rintro rfl
    rw [bech32Checksum, hvalue, Nat.xor_xor_cancel_left]

theorem findIdx_charset (c : UInt8) (v : ℕ) :
    bech32Charset.findIdx? (fun x => x = c) = some v ↔ v < 2^5 ∧ bech32Charset.getD v 0 = c := by
  have hback : ∀ v < 2^5,
      bech32Charset.findIdx? (fun x => x = bech32Charset.getD v 0) = some v := by decide
  constructor
  · intro h
    obtain ⟨hlt, hc, -⟩ := findIdx?_eq_some_iff_getElem.mp h
    have hlength : bech32Charset.length = 2^5 := by decide
    refine ⟨hlength ▸ hlt, ?_⟩
    rw [getD_eq_getElem _ _ hlt]
    exact of_decide_eq_true hc
  · rintro ⟨hlt, rfl⟩
    exact hback v hlt

theorem charsetValues_eq_some_iff (values : List ℕ) : charsetValues text = some values ↔
      (∀ v ∈ values, v < 2^5) ∧ text = values.map (fun v => bech32Charset.getD v 0) := by
  induction text generalizing values with
  | nil =>
    constructor
    · intro h
      cases h
      simp
    · rintro ⟨-, h⟩
      rw [map_eq_nil_iff.mp h.symm]
      rfl
  | cons c rest ih =>
    constructor
    · intro h
      rw [charsetValues] at h
      split at h
      · rename_i v vs hv hvs
        cases h
        obtain ⟨hlt, hc⟩ := (findIdx_charset c v).mp hv
        obtain ⟨hall, hrest⟩ := (ih vs).mp hvs
        exact ⟨forall_mem_cons.mpr ⟨hlt, hall⟩, by rw [map_cons, hc, ← hrest]⟩
      · cases h
    · rintro ⟨hall, htext⟩
      match values, htext with
      | v :: vs, htext =>
        rw [map_cons, List.cons.injEq] at htext
        obtain ⟨hlt, hvs⟩ := forall_mem_cons.mp hall
        rw [charsetValues, (findIdx_charset c v).mpr ⟨hlt, htext.1.symm⟩,
          (ih vs).mpr ⟨hvs, htext.2⟩]

theorem lastIndexByte_eq_none_iff (s : Bytes) : lastIndexByte b s = none ↔ b ∉ s := by
  induction s with
  | nil => simp [lastIndexByte]
  | cons c rest ih =>
    rw [lastIndexByte, mem_cons, not_or]
    cases h : lastIndexByte b rest with
    | some i =>
      have hmem : ¬b ∉ rest := fun hn => by simp [ih.mpr hn] at h
      simp [hmem]
    | none =>
      have hmem := ih.mp h
      by_cases hc : c = b
      · simp [hc]
      · simp [hc, hmem, Ne.symm hc]

theorem lastIndexByte_append (before after : Bytes) (h : b ∉ after) :
    lastIndexByte b (before ++ b :: after) = some before.length := by
  induction before with
  | nil =>
    rw [nil_append, lastIndexByte, (lastIndexByte_eq_none_iff b after).mpr h]
    simp
  | cons c before ih => rw [cons_append, lastIndexByte, ih, length_cons]

theorem lastIndexByte_split {s : Bytes} (i : ℕ) (h : lastIndexByte b s = some i) :
    s = s.take i ++ b :: s.drop (i+1) := by
  induction s generalizing i with
  | nil => cases h
  | cons c rest ih =>
    rw [lastIndexByte] at h
    cases hrest : lastIndexByte b rest with
    | some j =>
      rw [hrest] at h
      obtain rfl : j+1 = i := Option.some.inj h
      rw [take_succ_cons, drop_succ_cons, cons_append, ← ih j hrest]
    | none =>
      rw [hrest] at h
      split_ifs at h with hc
      obtain rfl : 0 = i := Option.some.inj h
      rw [hc]
      rfl

theorem mem_recoveryText (h : ∀ v ∈ values, v < 2^5) (b : UInt8) (hb : b ∈ recoveryText values) :
    b ∈ recoveryHRP ++ [49] ++ bech32Charset := by
  have hcharset : ∀ v < 2^5, bech32Charset.getD v 0 ∈ bech32Charset := by decide
  rcases mem_append.mp hb with hb | hb
  · exact mem_append_left _ hb
  · obtain ⟨v, hv, rfl⟩ := mem_map.mp hb
    exact mem_append_right _ (hcharset v (h v hv))

theorem decodeRecoveryText_text (h : ∀ v ∈ values, v < 2^5) (hlen : 6 ≤ values.length) :
    decodeRecoveryText (recoveryText values) = decodeRecoveryValues values := by
  have hone : ∀ v < 2^5, bech32Charset.getD v 0 ≠ 49 := by decide
  have hhrp : recoveryHRP.length = 5 := by decide
  have htext : recoveryText values =
      recoveryHRP ++ 49 :: values.map (fun v => bech32Charset.getD v 0) := by
    rw [recoveryText, append_assoc]
    rfl
  have hlast : lastIndexByte 49 (recoveryText values) = some 5 := by
    rw [htext, lastIndexByte_append, hhrp]
    intro hmem
    obtain ⟨v, hv, he⟩ := mem_map.mp hmem
    exact hone v (h v hv) he
  have htake : (recoveryText values).take 5 = recoveryHRP := by
    rw [htext, ← hhrp, take_left]
  have hdrop : (recoveryText values).drop (5+1) =
      values.map (fun v => bech32Charset.getD v 0) := by
    rw [htext, ← drop_drop, ← hhrp, drop_left]
    rfl
  have hsize : (recoveryText values).length = 6+values.length := by
    rw [htext, length_append, length_cons, length_map, hhrp]
    omega
  rw [decodeRecoveryText, hlast]
  simp only [hsize, htake, hdrop, (charsetValues_eq_some_iff _ values).mpr ⟨h, rfl⟩]
  rw [if_neg (by omega), if_neg (by simp)]

theorem decodeRecoveryText_shape {key : Bytes} (h : decodeRecoveryText text = .ok key) :
    ∃ values, text = recoveryText values ∧ (∀ v ∈ values, v < 2^5) ∧ 6 ≤ values.length := by
  have hhrp : recoveryHRP.length = 5 := by decide
  rw [decodeRecoveryText] at h
  cases hlast : lastIndexByte 49 text with
  | none => simp [hlast] at h
  | some separator =>
    simp only [hlast] at h
    split_ifs at h with hformat hprefix
    cases hvalues : charsetValues (text.drop (separator+1)) with
    | none => simp [hvalues] at h
    | some values =>
      obtain ⟨hall, hdrop⟩ := (charsetValues_eq_some_iff _ values).mp hvalues
      have hsplit := lastIndexByte_split 49 separator hlast
      refine ⟨values, ?_, hall, ?_⟩
      · rw [hsplit, not_not.mp hprefix, hdrop, recoveryText, append_assoc]
        rfl
      · have hlength := congrArg List.length hdrop
        rw [length_drop, length_map] at hlength
        omega

theorem encodeRecoveryKey_ok_iff : encodeRecoveryKey key = .ok text ↔
    key.length = 32 ∧ ∃ data, convertBits (key.map UInt8.toNat) 8 5 true = .ok data ∧
      text = recoveryText (data ++ bech32Checksum data) := by
  rw [encodeRecoveryKey]
  by_cases hlen : key.length = 32
  · rw [if_neg (not_not.mpr hlen)]
    cases convertBits (key.map UInt8.toNat) 8 5 true with
    | error e => simp
    | ok data => simp [hlen, eq_comm]
  · simp [hlen]

theorem keyBytes_lt : ∀ b ∈ key.map UInt8.toNat, b < 2^8 := by
  intro b hb
  obtain ⟨c, -, rfl⟩ := mem_map.mp hb
  exact c.toNat_lt

theorem encodeRecoveryKey_shape (h : encodeRecoveryKey key = .ok text) :
    ∃ values, text = recoveryText values ∧ (∀ v ∈ values, v < 2^5) ∧ values.length = 58 ∧
      bech32Polymod (expandHRP recoveryHRP ++ values) = bech32mConstant := by
  obtain ⟨hlen, data, hdata, rfl⟩ := (encodeRecoveryKey_ok_iff key text).mp h
  obtain ⟨data', hdata', hbound, hle, hlt, -⟩ :=
    convertBits_pad 8 5 (by decide) (by decide) (keyBytes_lt key)
  obtain rfl : data = data' := Except.ok.inj (hdata.symm.trans hdata')
  rw [length_map, hlen] at hle hlt
  refine ⟨data ++ bech32Checksum data, rfl, ?_, ?_, ?_⟩
  · intro v hv
    rcases mem_append.mp hv with hv | hv
    · exact hbound v hv
    · exact bech32Checksum_lt data v hv
  · rw [length_append, bech32Checksum_length]
    omega
  · exact (bech32Polymod_eq_iff hbound (bech32Checksum_lt data)
      (bech32Checksum_length data)).mpr rfl

theorem recoveryText_injective {ys : List ℕ} (hx : ∀ v ∈ xs, v < 2^5) (hy : ∀ v ∈ ys, v < 2^5)
    (h : recoveryText xs = recoveryText ys) : xs = ys := by
  have hchars := append_cancel_left h
  have hsome := (charsetValues_eq_some_iff _ xs).mpr ⟨hx, rfl⟩
  rw [hchars, (charsetValues_eq_some_iff _ ys).mpr ⟨hy, rfl⟩] at hsome
  exact (Option.some.inj hsome).symm

theorem decodeRecoveryText_ok_iff (key : Bytes) :
    decodeRecoveryText text = .ok key ↔ encodeRecoveryKey key = .ok text := by
  -- Both sides speak of a text of quintets; compare them there.
  have hcore (values : List ℕ) (hall : ∀ v ∈ values, v < 2^5) (hlen : 6 ≤ values.length) :
      decodeRecoveryText (recoveryText values) = .ok key ↔
        encodeRecoveryKey key = .ok (recoveryText values) := by
    have hsplit := take_append_drop (values.length-6) values
    generalize hdata : values.take (values.length-6) = data at hsplit
    generalize hcheck : values.drop (values.length-6) = check at hsplit
    have hchecklen : check.length = 6 := by
      rw [← hcheck, length_drop]
      omega
    have hdatalt : ∀ d ∈ data, d < 2^5 := fun d hd => hall d (hsplit ▸ mem_append_left _ hd)
    have hchecklt : ∀ d ∈ check, d < 2^5 := fun d hd => hall d (hsplit ▸ mem_append_right _ hd)
    rw [decodeRecoveryText_text hall hlen, decodeRecoveryValues, hdata, ← hsplit,
      encodeRecoveryKey_ok_iff]
    constructor
    · intro h
      split_ifs at h with hsum
      have hsum' := (bech32Polymod_eq_iff hdatalt hchecklt hchecklen).mp (not_not.mp hsum)
      cases hconvert : convertBits data 5 8 false with
      | error e => simp [hconvert] at h
      | ok decoded =>
        simp only [hconvert] at h
        split_ifs at h with hsize
        cases h
        have hbytes := ((convertBits_no_pad data decoded 5 8 (by decide) (by decide)
          hdatalt).mp hconvert).1
        have hmap : (decoded.map UInt8.ofNat).map UInt8.toNat = decoded := by
          rw [map_map]
          exact map_fixed (fun b hb => toNat_byte b (hbytes b hb))
        refine ⟨by simpa using hsize, data, ?_, by rw [hsum']⟩
        rw [hmap]
        exact (convertBits_key_iff data hdatalt hbytes (not_not.mp hsize)).mp hconvert
    · rintro ⟨hkey, data', hconvert, htext⟩
      obtain ⟨output, houtput, hbound, -⟩ :=
        convertBits_pad 8 5 (by decide) (by decide) (keyBytes_lt key)
      obtain rfl : data' = output := Except.ok.inj (hconvert.symm.trans houtput)
      have hall' : ∀ v ∈ data' ++ bech32Checksum data', v < 2^5 := by
        intro v hv
        rcases mem_append.mp hv with hv | hv
        · exact hbound v hv
        · exact bech32Checksum_lt data' v hv
      have heq := recoveryText_injective _ (hsplit ▸ hall) hall' htext
      obtain ⟨rfl, rfl⟩ := append_inj' heq (by rw [hchecklen, bech32Checksum_length])
      have hback := (convertBits_key_iff data hdatalt (keyBytes_lt key)
        (by rwa [length_map])).mpr hconvert
      have hpoly := (bech32Polymod_eq_iff hdatalt hchecklt hchecklen).mpr rfl
      rw [if_neg (not_not.mpr hpoly), hback]
      simp [hkey, Function.comp_def]
  constructor
  · intro h
    obtain ⟨values, rfl, hall, hlen⟩ := decodeRecoveryText_shape text h
    exact (hcore values hall hlen).mp h
  · intro h
    obtain ⟨values, rfl, hall, hlen, -⟩ := encodeRecoveryKey_shape key text h
    exact (hcore values hall (by omega)).mpr h

end YunPin
