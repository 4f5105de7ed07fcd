import YunPin.RelayRevocation

/-! Sealed boxes as text. A box travels as one base64url blob over a framed byte string.
The client parses it with `DecodeSealedBox`, the relay checks the frame with code of its
own and serves the bytes encoded again. -/
namespace YunPin
open ByteText List Option

structure SealedBox where
  nonce : Bytes
  ciphertext : Bytes
deriving DecidableEq

def sealedBoxWireVersion : UInt8 := 1
def sealedBoxWireHeaderSize : ℕ := 4+1+4+24
def maxSealedBoxWireSize : ℕ := 256*1024
def maxSealedBoxCiphertextSize : ℕ := maxSealedBoxWireSize-sealedBoxWireHeaderSize
def sealedBoxWireMagic : Bytes := lit "YPBX"

def SealedBox.wire (box : SealedBox) : Bytes :=
  sealedBoxWireMagic ++ [sealedBoxWireVersion] ++ putUint32 box.ciphertext.length ++ box.nonce ++
    box.ciphertext

def encodeSealedBox (box : SealedBox) : Except String Bytes :=
  if box.nonce.length ≠ 24 then .error "sealed box nonce must be 24 bytes"
  else if box.ciphertext.length < aeadOverhead ∨
      box.ciphertext.length > maxSealedBoxCiphertextSize then
    .error "sealed box ciphertext length is invalid"
  else .ok (base64Encode box.wire)

def decodeSealedBox (encoded : Bytes) : Except String SealedBox :=
  if encoded = [] ∨ encoded.length > base64EncodedLen maxSealedBoxWireSize then
    .error "sealed box wire length is invalid"
  else
    match base64Decode encoded with
    | none => .error "sealed box wire is not unpadded base64url"
    | some wire =>
      if wire.length < sealedBoxWireHeaderSize+aeadOverhead then
        .error "sealed box wire is truncated"
      else if wire.take 4 ≠ sealedBoxWireMagic then .error "sealed box wire magic is invalid"
      else if (wire.drop 4).head? ≠ some sealedBoxWireVersion then
        .error ("unsupported sealed box wire version " ++ toString (wire.getD 4 0).toNat)
      else
        let ciphertextLength := uint32 ((wire.drop 5).take 4)
        if ciphertextLength < aeadOverhead ∨ ciphertextLength > maxSealedBoxCiphertextSize then
          .error "sealed box ciphertext length is invalid"
        else if wire.length ≠ sealedBoxWireHeaderSize+ciphertextLength then
          .error "sealed box wire has a length mismatch or trailing bytes"
        else .ok ⟨(wire.drop 9).take 24, wire.drop sealedBoxWireHeaderSize⟩

structure SealedBox.Valid (box : SealedBox) : Prop where
  nonce : box.nonce.length = 24
  lower : aeadOverhead ≤ box.ciphertext.length
  upper : box.ciphertext.length ≤ maxSealedBoxCiphertextSize

variable (value : Bytes) (c : Crypto) (identity : DeviceIdentity) (box : SealedBox)

theorem encodeSealedBox_ok_iff (text : Bytes) :
    encodeSealedBox box = .ok text ↔ box.Valid ∧ text = base64Encode box.wire := by
  unfold encodeSealedBox
  split_ifs with hn hc
  · simp only [false_iff, not_and]
    exact fun hv => absurd hv.nonce hn
  · simp only [false_iff, not_and]
    intro hv
    have := hv.lower
    have := hv.upper
    omega
  · simp only [Except.ok.injEq]
    constructor
    · rintro rfl
      exact ⟨⟨not_not.mp hn, by omega, by omega⟩, rfl⟩
    · rintro ⟨_, rfl⟩
      rfl

theorem putUint32_uint32 (a b c d : UInt8) : putUint32 (uint32 [a, b, c, d]) = [a, b, c, d] := by
  have ha := a.toNat_lt
  have hb := b.toNat_lt
  have hc := c.toNat_lt
  have hd := d.toNat_lt
  have hbyte (n : ℕ) (x : UInt8) (h : n%256 = x.toNat) : UInt8.ofNat n = x := by
    apply UInt8.toNat_inj.mp
    rw [UInt8.toNat_ofNat', h]
  simp only [putUint32, uint32, List.cons.injEq, and_true]
  exact ⟨hbyte _ a (by omega), hbyte _ b (by omega), hbyte _ c (by omega), hbyte _ d (by omega)⟩

theorem SealedBox.wire_length (h : box.nonce.length = 24) :
    box.wire.length = sealedBoxWireHeaderSize+box.ciphertext.length := by
  simp only [SealedBox.wire, length_append, h, putUint32, length_cons, length_nil,
    sealedBoxWireHeaderSize]
  rfl

def SealedBox.ofWire (wire : Bytes) : SealedBox :=
  ⟨(wire.drop 9).take 24, wire.drop sealedBoxWireHeaderSize⟩

/-- The checks on the header, in the words of the two parsers. -/
structure SealedBox.Framed (wire : Bytes) : Prop where
  magic : wire.take 4 = sealedBoxWireMagic
  version : (wire.drop 4).head? = some sealedBoxWireVersion
  lower : aeadOverhead ≤ uint32 ((wire.drop 5).take 4)
  upper : uint32 ((wire.drop 5).take 4) ≤ maxSealedBoxCiphertextSize
  size : wire.length = sealedBoxWireHeaderSize+uint32 ((wire.drop 5).take 4)

theorem SealedBox.wire_eq (box : SealedBox) :
    box.wire = [0x59, 0x50, 0x42, 0x58, 1] ++ putUint32 box.ciphertext.length ++
      (box.nonce ++ box.ciphertext) := by
  have hmagic : sealedBoxWireMagic = [0x59, 0x50, 0x42, 0x58] := by decide
  rw [SealedBox.wire, hmagic, sealedBoxWireVersion]
  simp only [append_assoc, cons_append, nil_append]

theorem SealedBox.ofWire_wire (h : box.nonce.length = 24) : SealedBox.ofWire box.wire = box := by
  have h9 : box.wire.drop 9 = box.nonce ++ box.ciphertext := by
    rw [box.wire_eq]
    rfl
  have h33 : box.wire.drop sealedBoxWireHeaderSize = (box.wire.drop 9).drop 24 := by
    rw [drop_drop]
    rfl
  rw [SealedBox.ofWire, h33, h9, take_left' h, drop_left' h]

theorem SealedBox.framed_wire (h : box.Valid) : SealedBox.Framed box.wire := by
  have hlt : box.ciphertext.length < 2^32 := by
    have := h.upper
    simp only [maxSealedBoxCiphertextSize, maxSealedBoxWireSize, sealedBoxWireHeaderSize] at this
    omega
  have hlen : uint32 ((box.wire.drop 5).take 4) = box.ciphertext.length := by
    rw [box.wire_eq]
    exact uint32_putUint32 hlt
  constructor
  · have hmagic : [0x59, 0x50, 0x42, 0x58] = sealedBoxWireMagic := by decide
    rw [box.wire_eq, ← hmagic]
    rfl
  · rw [box.wire_eq]
    rfl
  · rw [hlen]
    exact h.lower
  · rw [hlen]
    exact h.upper
  · rw [hlen]
    exact box.wire_length h.nonce

theorem SealedBox.wire_ofWire {wire : Bytes} (h : SealedBox.Framed wire) :
    (SealedBox.ofWire wire).Valid ∧ (SealedBox.ofWire wire).wire = wire := by
  obtain ⟨hmagic, hversion, hlower, hupper, hsize⟩ := h
  match wire with
  | [] | [_] | [_, _] | [_, _, _] | [_, _, _, _] | [_, _, _, _, _] | [_, _, _, _, _, _]
  | [_, _, _, _, _, _, _] | [_, _, _, _, _, _, _, _] =>
    simp only [length_cons, length_nil, sealedBoxWireHeaderSize] at hsize
    omega
  | m₁ :: m₂ :: m₃ :: m₄ :: v :: a :: b :: c :: d :: rest =>
    have hrest : rest.length = 24+uint32 [a, b, c, d] := by
      simp only [length_cons, sealedBoxWireHeaderSize] at hsize
      simp only [drop_succ_cons, drop_zero, take_succ_cons, take_zero] at hsize
      omega
    have hbox : SealedBox.ofWire (m₁ :: m₂ :: m₃ :: m₄ :: v :: a :: b :: c :: d :: rest) =
        ⟨rest.take 24, rest.drop 24⟩ := rfl
    have hlen : (rest.drop 24).length = uint32 [a, b, c, d] := by
      rw [length_drop, hrest]
      omega
    rw [hbox]
    refine ⟨⟨?_, ?_, ?_⟩, ?_⟩
    · rw [length_take, hrest]
      omega
    · rw [hlen]
      exact hlower
    · rw [hlen]
      exact hupper
    · have hm : [m₁, m₂, m₃, m₄] = sealedBoxWireMagic := hmagic
      have hv : v = sealedBoxWireVersion := some.inj hversion
      simp only [SealedBox.wire]
      rw [hlen, putUint32_uint32, ← hm, ← hv, append_assoc, take_append_drop]
      rfl

theorem decodeSealedBox_ok_iff (encoded : Bytes) (box : SealedBox) :
    decodeSealedBox encoded = .ok box ↔
      encoded ≠ [] ∧ encoded.length ≤ base64EncodedLen maxSealedBoxWireSize ∧
      base64Decode encoded = some box.wire ∧ box.Valid := by
  constructor
  · intro h
    unfold decodeSealedBox at h
    split_ifs at h with hsize
    obtain ⟨hne, hle⟩ := not_or.mp hsize
    split at h
    · cases h
    · rename_i wire hdecode
      simp only at h
      split_ifs at h with _ hm hv hn hl
      obtain ⟨hlower, hupper⟩ := not_or.mp hn
      have hframed : SealedBox.Framed wire :=
        ⟨not_not.mp hm, not_not.mp hv, not_lt.mp hlower, not_lt.mp hupper, not_not.mp hl⟩
      obtain ⟨hvalid, hwire⟩ := SealedBox.wire_ofWire hframed
      have hbox : SealedBox.ofWire wire = box := Except.ok.inj h
      rw [hbox] at hvalid hwire
      exact ⟨hne, not_lt.mp hle, hwire ▸ hdecode, hvalid⟩
  · rintro ⟨hne, hle, hdecode, hvalid⟩
    have hf := box.framed_wire hvalid
    have hlong : ¬box.wire.length < sealedBoxWireHeaderSize+aeadOverhead := by
      have := hvalid.lower
      rw [box.wire_length hvalid.nonce]
      omega
    have hn : ¬(uint32 ((box.wire.drop 5).take 4) < aeadOverhead ∨
        uint32 ((box.wire.drop 5).take 4) > maxSealedBoxCiphertextSize) :=
      not_or.mpr ⟨not_lt.mpr hf.lower, not_lt.mpr hf.upper⟩
    unfold decodeSealedBox
    rw [if_neg (not_or.mpr ⟨hne, not_lt.mpr hle⟩)]
    simp only [hdecode]
    rw [if_neg hlong, if_neg (not_not.mpr hf.magic), if_neg (not_not.mpr hf.version), if_neg hn,
      if_neg (not_not.mpr hf.size)]
    exact congrArg Except.ok (box.ofWire_wire hvalid.nonce)

theorem decodeSized_some_iff {decoded : Bytes} {lo hi : ℕ} :
    decodeSized value lo hi = some decoded ↔
      base64Decode value = some decoded ∧ lo ≤ decoded.length ∧ decoded.length ≤ hi := by
  unfold decodeSized
  split
  · rename_i hnone
    simp [hnone]
  · rename_i bytes hsome
    rw [hsome]
    constructor
    · intro h
      split_ifs at h
      cases h
      exact ⟨rfl, by omega, by omega⟩
    · rintro ⟨h, hlo, hhi⟩
      cases h
      rw [if_neg (by omega)]

theorem decodeSealedBoxWire_some_iff (value bytes : Bytes) :
    decodeSealedBoxWire value = some bytes ↔
      base64Decode value = some bytes ∧ ∃ box : SealedBox, box.Valid ∧ box.wire = bytes := by
  constructor
  · intro h
    unfold decodeSealedBoxWire at h
    split at h
    · cases h
    · rename_i decoded hdecode
      simp only at h
      split_ifs at h with hm hn
      obtain rfl := some.inj h
      obtain ⟨hmagic, hversion⟩ := not_or.mp hm
      obtain ⟨hlower, hn⟩ := not_or.mp hn
      obtain ⟨hupper, hl⟩ := not_or.mp hn
      have hframed : SealedBox.Framed decoded :=
        ⟨not_not.mp hmagic, not_not.mp hversion, not_lt.mp hlower, not_lt.mp hupper,
          not_not.mp hl⟩
      exact ⟨((decodeSized_some_iff _).mp hdecode).1, _, SealedBox.wire_ofWire hframed⟩
  · rintro ⟨hdecode, box, hvalid, rfl⟩
    have hf := box.framed_wire hvalid
    have hsized : decodeSized value (33+16) maxSealedBoxWire = some box.wire := by
      have hlen := box.wire_length hvalid.nonce
      have hlower := hvalid.lower
      have hupper := hvalid.upper
      simp only [sealedBoxWireHeaderSize, aeadOverhead, maxSealedBoxCiphertextSize,
        maxSealedBoxWireSize] at hlen hlower hupper
      refine (decodeSized_some_iff _).mpr ⟨hdecode, by omega, ?_⟩
      rw [maxSealedBoxWire]
      omega
    have hheader : ¬(box.wire.take 4 ≠ lit "YPBX" ∨ (box.wire.drop 4).head? ≠ some 1) :=
      not_or.mpr ⟨not_not.mpr hf.magic, not_not.mpr hf.version⟩
    have hlength : ¬(uint32 ((box.wire.drop 5).take 4) < 16 ∨
        uint32 ((box.wire.drop 5).take 4) > maxSealedBoxWire-33 ∨
        box.wire.length ≠ 33+uint32 ((box.wire.drop 5).take 4)) :=
      not_or.mpr ⟨not_lt.mpr hf.lower, not_or.mpr ⟨not_lt.mpr hf.upper, not_not.mpr hf.size⟩⟩
    unfold decodeSealedBoxWire
    simp only [hsized]
    rw [if_neg hheader, if_neg hlength]

theorem base64Encode_wire_size (h : box.Valid) : base64Encode box.wire ≠ [] ∧
    (base64Encode box.wire).length ≤ base64EncodedLen maxSealedBoxWireSize := by
  have hlen := box.wire_length h.nonce
  have hupper := h.upper
  have hle : box.wire.length ≤ maxSealedBoxWireSize := by
    simp only [maxSealedBoxCiphertextSize, maxSealedBoxWireSize, sealedBoxWireHeaderSize] at *
    omega
  refine ⟨?_, ?_⟩
  · intro hnil
    have hzero := base64Encode_length box.wire
    rw [hnil, hlen] at hzero
    simp only [length_nil, base64EncodedLen, sealedBoxWireHeaderSize] at hzero
    omega
  · rw [base64Encode_length]
    exact base64EncodedLen_mono hle

theorem decodeSealedBox_base64Encode (h : box.Valid) :
    decodeSealedBox (base64Encode box.wire) = .ok box := by
  obtain ⟨hne, hle⟩ := base64Encode_wire_size box h
  exact (decodeSealedBox_ok_iff _ _).mpr ⟨hne, hle, base64Decode_base64Encode _, h⟩

/-- The decoder inverts the encoder. An accepted text is the one the encoder gives
exactly when it is strict base64, without line breaks and with zero trailing bits. -/
theorem sealed_box_text_canonical (text : Bytes) (box : SealedBox) :
    (encodeSealedBox box = .ok text → decodeSealedBox text = .ok box) ∧
    (decodeSealedBox text = .ok box →
      ∃ canonical, encodeSealedBox box = .ok canonical ∧ base64Strict canonical = true ∧
        (text = canonical ↔ base64Strict text = true)) := by
  constructor
  · intro h
    obtain ⟨hvalid, rfl⟩ := (encodeSealedBox_ok_iff box text).mp h
    exact decodeSealedBox_base64Encode box hvalid
  · intro h
    obtain ⟨_, _, hdecode, hvalid⟩ := (decodeSealedBox_ok_iff text box).mp h
    refine ⟨_, (encodeSealedBox_ok_iff box _).mpr ⟨hvalid, rfl⟩, ?_, ?_⟩
    · exact (base64Encode_base64Decode _ _ (base64Decode_base64Encode box.wire)).mp rfl
    · rw [eq_comm]
      exact base64Encode_base64Decode text box.wire hdecode

def sampleBox : SealedBox := ⟨List.replicate 24 0, List.replicate 16 0⟩

theorem sealed_box_text_canonical_sample : ∃ text,
    encodeSealedBox sampleBox = .ok text ∧ decodeSealedBox text = .ok sampleBox ∧
    ∃ canonical, encodeSealedBox sampleBox = .ok canonical ∧ base64Strict canonical = true ∧
      (text = canonical ↔ base64Strict text = true) := by
  have h : encodeSealedBox sampleBox = .ok (base64Encode sampleBox.wire) := by decide
  have hdecode := (sealed_box_text_canonical _ _).1 h
  exact ⟨_, h, hdecode, (sealed_box_text_canonical _ _).2 hdecode⟩

/-- A line break after the text of a box is skipped. -/
theorem sealed_box_text_line_break : ∃ text box, decodeSealedBox text = .ok box ∧
    encodeSealedBox box ≠ .ok text :=
  ⟨base64Encode sampleBox.wire ++ lit "\n", sampleBox, by decide, by decide⟩

/-! The relay accepts what the encoder gives, and what it has stored is text that a
client can parse. -/

def BoxText (text : Bytes) : Prop :=
  ∃ box, decodeSealedBox text = .ok box ∧ encodeSealedBox box = .ok text

theorem boxText_base64Encode (h : box.Valid) : BoxText (base64Encode box.wire) :=
  ⟨box, decodeSealedBox_base64Encode box h, (encodeSealedBox_ok_iff box _).mpr ⟨h, rfl⟩⟩

theorem boxText_decodeSealedBoxWire {bytes : Bytes} (h : decodeSealedBoxWire value = some bytes) :
    BoxText (base64Encode bytes) := by
  obtain ⟨_, box, hvalid, rfl⟩ := (decodeSealedBoxWire_some_iff value bytes).mp h
  exact boxText_base64Encode box hvalid

structure RelayDB.Boxed (db : RelayDB) : Prop where
  keyrings : ∀ k ∈ db.keyrings, BoxText (base64Encode k.ciphertext)
  pairings : ∀ p ∈ db.pairings, p.state = .approved ∨ p.state = .claimed →
    BoxText (base64Encode p.encryptedKeyring)

/-- A request behind authentication leaves the keyrings alone or adds the row of an
epoch that has none. -/
theorem AuthOp.exec_keyrings (op : AuthOp) (moment : Moment) (db : RelayDB) :
    (op.exec c identity moment db).2.keyrings = db.keyrings ∨
    ∃ epoch value decoded, op = .putKeyring epoch value ∧ 1 ≤ epoch ∧
      decodeSealedBoxWire value = some decoded ∧
      db.keyrings.find? (fun k => k.accountID = identity.accountID ∧ k.epoch = epoch) = none ∧
      (op.exec c identity moment db).2.keyrings =
        db.keyrings ++ [⟨identity.accountID, epoch, decoded, identity.id, moment.now⟩] := by
  have hl := op.exec_leaves c identity moment db
  generalize op.exec c identity moment db = out at hl
  cases hl with
  | synced input =>
    refine .inl (syncEnvelopes_induction c identity input
      (fun db' => db'.keyrings = db.keyrings) rfl ?_ ?_)
    · intro db' e _ h _ _
      exact h
    · intro db' cursor h
      exact h
  | stored epoch value decoded reply hepoch hdecode hnone =>
    exact .inr ⟨epoch, value, decoded, rfl, hepoch, hdecode, hnone, rfl⟩
  | _ => exact .inl rfl

theorem OpenOp.exec_keyrings (op : OpenOp) (moment : Moment) (db : RelayDB) :
    (op.exec c moment db).2.keyrings = db.keyrings := by
  rcases op.exec_cases c moment db with he | ⟨_, _, _, _, _, _, he⟩ | ⟨_, _, _, _, _, _, _, _, _, he⟩ |
    ⟨_, _, _, _, _, he⟩ <;> rw [he] <;> rfl

variable {db : RelayDB}

theorem approvePairing_boxed {pairingID value : Bytes} {moment : Moment} {p : PairingRow}
    (h : p ∈ (approvePairing identity pairingID value moment db).2.pairings) :
    p ∈ db.pairings ∨ decodeSealedBoxWire value = some p.encryptedKeyring := by
  unfold approvePairing at h
  split at h
  · exact .inl h
  · rename_i keyring hdecode
    simp only at h
    have hmem : ∃ where_ : PairingRow → Bool, p ∈ (db.updatePairings where_ (fun p => { p with
        state := .approved
        newDeviceID := randomID moment 0
        encryptedKeyring := keyring })).pairings := by
      split_ifs at h <;> exact ⟨_, h⟩
    obtain ⟨where_, hmem⟩ := hmem
    rcases mem_updatePairings db _ _ hmem with hold | ⟨q, _, _, rfl⟩
    · exact .inl hold
    · exact .inr hdecode

theorem AuthOp.exec_boxed (op : AuthOp) (moment : Moment) (h : db.Boxed) :
    (op.exec c identity moment db).2.Boxed := by
  refine ⟨?_, ?_⟩
  · rcases op.exec_keyrings c identity moment db with he | ⟨_, _, _, _, _, hdecode, _, he⟩
    · rw [he]
      exact h.keyrings
    · rw [he]
      intro k hk
      rcases mem_append.mp hk with hold | hnew
      · exact h.keyrings k hold
      · rw [mem_singleton.mp hnew]
        exact boxText_decodeSealedBoxWire _ hdecode
  · intro p hp hstate
    rcases op.exec_pairings c identity moment db with he | ⟨row, _, _, _, _, _, _, hcreated, he⟩ |
      ⟨pairingID, value, _, _, rfl, _, _⟩
    · exact h.pairings p (he ▸ hp) hstate
    · rw [he] at hp
      rcases mem_append.mp hp with hold | hnew
      · exact h.pairings p hold hstate
      · rw [mem_singleton.mp hnew, hcreated] at hstate
        simp at hstate
    · rcases approvePairing_boxed identity hp with hold | hdecode
      · exact h.pairings p hold hstate
      · exact boxText_decodeSealedBoxWire _ hdecode

theorem OpenOp.exec_boxed (op : OpenOp) (moment : Moment) (h : db.Boxed) :
    (op.exec c moment db).2.Boxed := by
  refine ⟨?_, ?_⟩
  · rw [op.exec_keyrings c moment db]
    exact h.keyrings
  · intro p hp hstate
    rcases op.exec_cases c moment db with he | ⟨_, _, _, _, _, _, he⟩ |
      ⟨_, _, _, _, _, _, _, _, _, he⟩ | ⟨_, _, _, _, _, he⟩
    · exact h.pairings p (he ▸ hp) hstate
    · exact h.pairings p (by rw [he] at hp; exact hp) hstate
    · rw [he] at hp
      rcases mem_updatePairings _ _ _ hp with hold | ⟨q, hq, hw, rfl⟩
      · exact h.pairings p hold hstate
      · -- A claim keeps the keyring of the approved pairing.
        have happroved := (of_decide_eq_true hw).2
        exact h.pairings q hq (.inl happroved)
    · rw [he] at hp
      rcases mem_updatePairings _ _ _ hp with hold | ⟨q, _, _, rfl⟩
      · exact h.pairings p hold hstate
      · simp at hstate

theorem Relay.step_boxed {s s' : Relay} {a : RelayAction} (h : s.step c a = some s')
    (hs : s.db.Boxed) : s'.db.Boxed := by
  rcases Relay.step_cases h with ⟨_, _, _, _, hdb, _⟩ | ⟨_, moment, f, _, _, hdb, _⟩ |
    ⟨op, moment, _, hdb, _⟩
  · rw [hdb]
    exact hs
  · rw [hdb]
    exact f.op.exec_boxed c f.identity moment hs
  · rw [hdb]
    exact op.exec_boxed c moment hs

theorem claimPairing_boxed {c : Crypto} {pairingID secret : Bytes} {moment : Moment} {db' : RelayDB}
    {accountID deviceID token text : Bytes} (h : db.Boxed)
    (hclaim : claimPairing c pairingID secret moment db =
      (⟨201, .claimed accountID deviceID token text⟩, db')) : BoxText text := by
  unfold claimPairing at hclaim
  split at hclaim
  · simp [writeError] at hclaim
  · rename_i p hfind
    have hfound : p.id = pairingID ∧ p.state = .approved := by simpa using find?_some hfind
    split_ifs at hclaim
    · simp [writeError] at hclaim
    simp only at hclaim
    split at hclaim
    · simp [writeError] at hclaim
    · simp only [Prod.mk.injEq, Reply.mk.injEq, Body.claimed.injEq, true_and] at hclaim
      rw [← hclaim.1.2.2.2]
      exact h.pairings p (mem_of_find?_eq_some hfind) (.inl hfound.2)

/-- The relay accepts every text of the encoder; a client parses the text of every
box that the relay accepts; and so in every reachable state the keyrings it lists
and the keyring a claim answers with are texts that a client parses. -/
theorem relay_client_sealed_boxes (c : Crypto) :
    (∀ box text, encodeSealedBox box = .ok text → decodeSealedBoxWire text = some box.wire) ∧
    (∀ value bytes, decodeSealedBoxWire value = some bytes → ∃ box, box.wire = bytes ∧
      decodeSealedBox (base64Encode bytes) = .ok box ∧
      encodeSealedBox box = .ok (base64Encode bytes)) ∧
    ∀ actions s, Runs.run (Relay.step c) .empty actions = some s →
      (∀ identity, ∃ rows, getKeyring identity s.db = ⟨200, .keyrings rows⟩ ∧
        ∀ k ∈ rows, BoxText (base64Encode k.ciphertext)) ∧
      ∀ pairingID secret moment accountID deviceID token text db',
        claimPairing c pairingID secret moment s.db =
          (⟨201, .claimed accountID deviceID token text⟩, db') → BoxText text := by
  refine ⟨?_, ?_, ?_⟩
  · intro box text h
    obtain ⟨hvalid, rfl⟩ := (encodeSealedBox_ok_iff box text).mp h
    exact (decodeSealedBoxWire_some_iff _ _).mpr ⟨base64Decode_base64Encode _, box, hvalid, rfl⟩
  · intro value bytes h
    obtain ⟨_, box, hvalid, rfl⟩ := (decodeSealedBoxWire_some_iff value bytes).mp h
    exact ⟨box, rfl, decodeSealedBox_base64Encode box hvalid,
      (encodeSealedBox_ok_iff box _).mpr ⟨hvalid, rfl⟩⟩
  · intro actions s hrun
    have hboxed : s.db.Boxed := by
      apply Runs.run_invariant (fun s => s.db.Boxed) ?_ ?_ hrun
      · exact fun s a s' hs h => Relay.step_boxed c h hs
      · exact ⟨by simp [Relay.empty, RelayDB.empty], by simp [Relay.empty, RelayDB.empty]⟩
    refine ⟨fun identity => ⟨_, rfl, ?_⟩, ?_⟩
    · intro k hk
      rw [mem_insertionSort] at hk
      exact hboxed.keyrings k (mem_filter.mp hk).1
    · intro pairingID secret moment accountID deviceID token text db' hclaim
      exact claimPairing_boxed hboxed hclaim

/-- A keyring sent with a line break after it is served without. -/
theorem relay_client_sealed_boxes_sample : ∃ s : Relay,
    Runs.run (Relay.step sampleCrypto) .empty (sampleSetup ++
      [.arrive firstHeader (.putKeyring 1 (base64Encode sampleBox.wire ++ lit "\n")) none,
        .run 0 (sampleMoment 0)]) = some s ∧
    s.db.keyrings.map (·.ciphertext) = [sampleBox.wire] ∧
    ∀ identity, ∃ rows, getKeyring identity s.db = ⟨200, .keyrings rows⟩ ∧
      ∀ k ∈ rows, BoxText (base64Encode k.ciphertext) := by
  apply Runs.exists_some (fun s => s.db.keyrings.map (·.ciphertext) = [sampleBox.wire]) (by decide)
  intro s hs h
  exact ⟨h, ((relay_client_sealed_boxes sampleCrypto).2.2 _ s hs).1⟩

end YunPin
