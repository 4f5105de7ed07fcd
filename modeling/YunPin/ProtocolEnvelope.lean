import YunPin.ProtocolCrdt

/-! Envelopes of protocol v1: the authenticated header, sealing and opening a
payload, and the JSON wire form. The cryptographic primitives and the CBOR codec
are third-party code and enter as parameters. -/
namespace YunPin
open ByteText List

def protocolVersion : ℕ := 1
def paddingBucket : ℕ := 512
def maxEnvelopePayload : ℕ := 512*1024
def aeadOverhead : ℕ := 16
def maxEnvelopeCiphertext : ℕ :=
  (maxEnvelopePayload+4+paddingBucket-1)/paddingBucket*paddingBucket+aeadOverhead
def maxInt64 : ℕ := 2^63-1

structure Header where
  version : ℕ
  accountID : Bytes
  objectID : Bytes
  keyEpoch : ℕ
  deviceID : Bytes
  deviceSeq : ℕ
  previousHash : Bytes
  nonce : Bytes
deriving DecidableEq, Inhabited

structure Envelope where
  header : Header
  ciphertext : Bytes
  signature : Bytes
deriving DecidableEq, Inhabited

/-- SHA-256, HMAC and HKDF over it, XChaCha20-Poly1305, Ed25519, and the
canonical CBOR of a header. -/
structure Crypto where
  sha256 : Bytes → Bytes
  hmac : (key message : Bytes) → Bytes
  hkdf : (secret salt info : Bytes) → Bytes
  aeadSeal : (key nonce plain aad : Bytes) → Bytes
  aeadOpen : (key nonce ciphertext aad : Bytes) → Option Bytes
  edPublic : (signingPrivate : Bytes) → Bytes
  edSign : (signingPrivate message : Bytes) → Bytes
  edVerify : (signingPublic message signature : Bytes) → Bool
  canonicalHeader : Header → Bytes

structure Crypto.Laws (c : Crypto) : Prop where
  sha256_length : ∀ m, (c.sha256 m).length = 32
  aeadSeal_length : ∀ k n p a, (c.aeadSeal k n p a).length = p.length+aeadOverhead
  aeadOpen_aeadSeal : ∀ k n p a, c.aeadOpen k n (c.aeadSeal k n p a) a = some p
  edSign_length : ∀ s m, (c.edSign s m).length = 64
  edPublic_length : ∀ s, (c.edPublic s).length = 32
  edVerify_edSign : ∀ s m, c.edVerify (c.edPublic s) m (c.edSign s m) = true

structure Cbor (P : Type) where
  marshal : P → Bytes
  unmarshal : Bytes → Option P

abbrev RandomSource := ℕ → UInt8

def RandomSource.read (source : RandomSource) (offset n : ℕ) : Bytes :=
  (List.range n).map (fun i => source (offset+i))

@[simp] theorem RandomSource.read_length (source : RandomSource) {offset n : ℕ} :
    (source.read offset n).length = n := by simp [RandomSource.read]

def validateHeader (header : Header) : Except String Unit :=
  if header.version ≠ protocolVersion then
    .error ("unsupported protocol version " ++ toString header.version)
  else if header.accountID.length ≠ 16 ∨ header.objectID.length ≠ 16 ∨
      header.deviceID.length ≠ 16 then
    .error "account, object, and device identifiers must be 16 bytes"
  else if header.keyEpoch < 1 ∨ header.keyEpoch > maxInt64 then
    .error "key epoch must be between 1 and MaxInt64"
  else if header.deviceSeq < 1 ∨ header.deviceSeq > maxInt64 then
    .error "device sequence must be between 1 and MaxInt64"
  else if header.previousHash.length ≠ 0 ∧ header.previousHash.length ≠ 32 then
    .error "previous hash must be empty or 32 bytes"
  else if header.nonce.length ≠ 24 then
    .error "XChaCha20 nonce must be 24 bytes"
  else .ok ()

def validateEnvelopeBody (ciphertext signature : Bytes) : Except String Unit :=
  if signature.length ≠ 64 then .error "invalid envelope signature length"
  else if ciphertext.length < paddingBucket+16 ∨ ciphertext.length > maxEnvelopeCiphertext ∨
      (ciphertext.length-16)%paddingBucket ≠ 0 then
    .error "invalid envelope ciphertext length"
  else .ok ()

def deriveObjectKey (c : Crypto) (epochKey objectID : Bytes) : Except String Bytes :=
  if epochKey.length ≠ 32 then .error "epoch key must be 32 bytes"
  else .ok (c.hkdf epochKey objectID (lit "yunpin-envelope-v1"))

def putUint32 (n : ℕ) : Bytes :=
  [UInt8.ofNat (n/2^24), UInt8.ofNat (n/2^16), UInt8.ofNat (n/2^8), UInt8.ofNat n]

def uint32 : Bytes → ℕ
  | a :: b :: c :: d :: _ => a.toNat*2^24+b.toNat*2^16+c.toNat*2^8+d.toNat
  | _ => 0

/-- Length prefix, canonical CBOR, random bytes up to the next 512-byte bucket. -/
def paddedPayload {P : Type} (cbor : Cbor P) (payload : P) (source : RandomSource) (offset : ℕ) :
    Except String Bytes :=
  let encoded := cbor.marshal payload
  if encoded.length > maxEnvelopePayload then .error "payload too large"
  else
    let needed := 4+encoded.length
    let bucketed := (needed+paddingBucket-1)/paddingBucket*paddingBucket
    let target := if bucketed < paddingBucket then paddingBucket else bucketed
    .ok (putUint32 encoded.length ++ encoded ++ source.read offset (target-needed))

def protocolSeal {P : Type} (c : Crypto) (cbor : Cbor P) (epochKey : Bytes) (header : Header)
    (payload : P) (signingPrivate : Bytes) (source : RandomSource) : Except String Envelope :=
  let header := { header with version := protocolVersion, nonce := source.read 0 24 }
  match validateHeader header with
  | .error e => .error e
  | .ok () =>
    if signingPrivate.length ≠ 64 then .error "invalid Ed25519 private key"
    else
      let aad := c.canonicalHeader header
      match paddedPayload cbor payload source 24 with
      | .error e => .error e
      | .ok plain =>
        match deriveObjectKey c epochKey header.objectID with
        | .error e => .error e
        | .ok key =>
          let ciphertext := c.aeadSeal key header.nonce plain aad
          .ok ⟨header, ciphertext, c.edSign signingPrivate (aad ++ ciphertext)⟩

def protocolOpen {P : Type} (c : Crypto) (cbor : Cbor P) (epochKey : Bytes) (envelope : Envelope)
    (signingPublic : Bytes) : Except String P :=
  match validateHeader envelope.header with
  | .error e => .error e
  | .ok () =>
    if signingPublic.length ≠ 32 then .error "invalid Ed25519 public key"
    else
      match validateEnvelopeBody envelope.ciphertext envelope.signature with
      | .error e => .error e
      | .ok () =>
        let aad := c.canonicalHeader envelope.header
        if ¬c.edVerify signingPublic (aad ++ envelope.ciphertext) envelope.signature then
          .error "invalid envelope signature"
        else
          match deriveObjectKey c epochKey envelope.header.objectID with
          | .error e => .error e
          | .ok key =>
            match c.aeadOpen key envelope.header.nonce envelope.ciphertext aad with
            | none => .error "unable to authenticate envelope"
            | some plain =>
              if plain.length < 4 then .error "invalid padded payload"
              else if uint32 (plain.take 4) > plain.length-4 then
                .error "invalid padded payload length"
              else
                match cbor.unmarshal ((plain.drop 4).take (uint32 (plain.take 4))) with
                | none => .error "cbor: cannot unmarshal"
                | some payload => .ok payload

def envelopeHash (c : Crypto) (envelope : Envelope) : Except String Bytes :=
  match validateHeader envelope.header with
  | .error e => .error e
  | .ok () =>
    match validateEnvelopeBody envelope.ciphertext envelope.signature with
    | .error e => .error e
    | .ok () =>
      .ok (c.sha256 (c.canonicalHeader envelope.header ++ envelope.ciphertext ++ envelope.signature))

/-! The JSON wire form. `encoding/json` carries these values unchanged: the
strings the client writes are ASCII. -/

structure WireEnvelope where
  version : ℕ
  deviceID : Bytes
  deviceSeq : ℕ
  objectID : Bytes
  keyEpoch : ℕ
  previousHash : Bytes
  nonce : Bytes
  ciphertext : Bytes
  signature : Bytes
  cursor : ℤ
deriving DecidableEq, Inhabited

/-- The optional previous hash: an absent one is the omitted empty string. -/
def wirePreviousHash (hash : Bytes) : Bytes := if hash.length ≠ 0 then base64Encode hash else []

def decodePreviousHash (value : Bytes) : Option Bytes :=
  if value ≠ [] then base64Decode value else some []

def Envelope.toWire (envelope : Envelope) : Except String WireEnvelope :=
  match validateHeader envelope.header with
  | .error e => .error e
  | .ok () =>
    match validateEnvelopeBody envelope.ciphertext envelope.signature with
    | .error e => .error e
    | .ok () => .ok {
        version := envelope.header.version
        deviceID := []
        deviceSeq := envelope.header.deviceSeq
        objectID := hexEncode envelope.header.objectID
        keyEpoch := envelope.header.keyEpoch
        previousHash := wirePreviousHash envelope.header.previousHash
        nonce := base64Encode envelope.header.nonce
        ciphertext := base64Encode envelope.ciphertext
        signature := base64Encode envelope.signature
        cursor := 0 }

def decodeHexWireID (value : Bytes) : Option Bytes := decodeLowerHex 16 value

def envelopeFromWire (accountID deviceID : Bytes) (wire : WireEnvelope) : Except String Envelope :=
  match decodeHexWireID wire.objectID with
  | none => .error "invalid wire object ID"
  | some objectID =>
    if wire.deviceID ≠ [] ∧ decodeHexWireID wire.deviceID ≠ some deviceID then
      .error "wire device ID does not match authenticated device"
    else
      match base64Decode wire.nonce with
      | none => .error "invalid wire nonce"
      | some nonce =>
        match base64Decode wire.ciphertext with
        | none => .error "invalid wire ciphertext"
        | some ciphertext =>
          match base64Decode wire.signature with
          | none => .error "invalid wire signature"
          | some signature =>
            match decodePreviousHash wire.previousHash with
            | none => .error "invalid wire previous hash"
            | some previous =>
              let envelope : Envelope := {
                header := {
                  version := wire.version
                  accountID := accountID
                  objectID := objectID
                  keyEpoch := wire.keyEpoch
                  deviceID := deviceID
                  deviceSeq := wire.deviceSeq
                  previousHash := previous
                  nonce := nonce }
                ciphertext := ciphertext
                signature := signature }
              match validateHeader envelope.header with
              | .error e => .error e
              | .ok () =>
                match validateEnvelopeBody ciphertext signature with
                | .error e => .error e
                | .ok () => .ok envelope

def envelopeFromDownload (accountID : Bytes) (wire : WireEnvelope) : Except String Envelope :=
  if wire.deviceID = [] then .error "downloaded envelope is missing a device ID"
  else
    match decodeHexWireID wire.deviceID with
    | none => .error "invalid downloaded device ID"
    | some deviceID => envelopeFromWire accountID deviceID wire

theorem validateHeader_ok_iff (h : Header) : validateHeader h = .ok () ↔
    h.version = protocolVersion ∧ (h.accountID.length = 16 ∧ h.objectID.length = 16 ∧
      h.deviceID.length = 16) ∧ (1 ≤ h.keyEpoch ∧ h.keyEpoch ≤ maxInt64) ∧
      (1 ≤ h.deviceSeq ∧ h.deviceSeq ≤ maxInt64) ∧
      (h.previousHash.length = 0 ∨ h.previousHash.length = 32) ∧ h.nonce.length = 24 := by
  unfold validateHeader
  split_ifs with h1 h2 h3 h4 h5 h6 <;> simp only [false_iff, true_iff] <;> omega

theorem validateEnvelopeBody_ok_iff {ciphertext signature : Bytes} :
    validateEnvelopeBody ciphertext signature = .ok () ↔ signature.length = 64 ∧
      paddingBucket+16 ≤ ciphertext.length ∧ ciphertext.length ≤ maxEnvelopeCiphertext ∧
      (ciphertext.length-16)%paddingBucket = 0 := by
  unfold validateEnvelopeBody
  split_ifs with h1 h2 <;> simp only [false_iff, true_iff] <;> omega

theorem uint32_putUint32 {n : ℕ} (h : n < 2^32) {rest : Bytes} :
    uint32 ((putUint32 n ++ rest).take 4) = n := by
  simp only [putUint32, cons_append, nil_append, take_succ_cons, take_zero,
    uint32, UInt8.toNat_ofNat']
  omega

variable {P : Type}

variable {cbor : Cbor P} {payload : P} {source : RandomSource}

theorem paddedPayload_facts {offset : ℕ} {plain : Bytes}
    (h : paddedPayload cbor payload source offset = .ok plain) :
    (cbor.marshal payload).length ≤ maxEnvelopePayload ∧
      (∃ pad, plain = putUint32 (cbor.marshal payload).length ++ cbor.marshal payload ++ pad) ∧
      paddingBucket ≤ plain.length ∧ plain.length+16 ≤ maxEnvelopeCiphertext ∧
      plain.length%paddingBucket = 0 := by
  unfold paddedPayload at h
  simp only at h
  split_ifs at h with hlen hb
  · have hn : 4+(cbor.marshal payload).length ≤
        (4+(cbor.marshal payload).length+paddingBucket-1)/paddingBucket*paddingBucket := by
      unfold paddingBucket
      omega
    unfold paddingBucket at *
    omega
  · cases h
    refine ⟨by omega, ⟨_, rfl⟩, ?_⟩
    simp only [length_append, RandomSource.read_length, putUint32, length_cons,
      length_nil, maxEnvelopeCiphertext, maxEnvelopePayload, paddingBucket, aeadOverhead]
      at *
    omega

variable {c : Crypto} {epochKey signingPrivate : Bytes} {header : Header} {envelope : Envelope}

theorem protocolSeal_facts
    (h : protocolSeal c cbor epochKey header payload signingPrivate source = .ok envelope) :
    ∃ plain, paddedPayload cbor payload source 24 = .ok plain ∧ epochKey.length = 32 ∧
      validateHeader envelope.header = .ok () ∧
      envelope.header = { header with version := protocolVersion, nonce := source.read 0 24 } ∧
      envelope.ciphertext = c.aeadSeal (c.hkdf epochKey header.objectID (lit "yunpin-envelope-v1"))
        envelope.header.nonce plain (c.canonicalHeader envelope.header) ∧
      envelope.signature = c.edSign signingPrivate
        (c.canonicalHeader envelope.header ++ envelope.ciphertext) := by
  unfold protocolSeal at h
  simp only at h
  split at h
  · simp at h
  rename_i hv
  split_ifs at h with hpriv
  split at h
  · simp at h
  rename_i plain hplain
  unfold deriveObjectKey at h
  split_ifs at h with hkey
  simp only [Except.ok.injEq] at h
  subst h
  exact ⟨plain, hplain, not_not.mp hkey, hv, rfl, rfl, rfl⟩

theorem protocolSeal_body (hc : c.Laws)
    (h : protocolSeal c cbor epochKey header payload signingPrivate source = .ok envelope) :
    validateEnvelopeBody envelope.ciphertext envelope.signature = .ok () := by
  obtain ⟨plain, hplain, _, _, _, hct, hsig⟩ := protocolSeal_facts h
  obtain ⟨_, _, hlo, hhi, hmod⟩ := paddedPayload_facts hplain
  rw [validateEnvelopeBody_ok_iff, hsig, hc.edSign_length, hct, hc.aeadSeal_length]
  unfold aeadOverhead
  exact ⟨rfl, by omega, hhi, by rwa [Nat.add_sub_cancel]⟩

theorem protocolOpen_protocolSeal (hc : c.Laws)
    (h : protocolSeal c cbor epochKey header payload signingPrivate source = .ok envelope)
    (hp : cbor.unmarshal (cbor.marshal payload) = some payload) :
    protocolOpen c cbor epochKey envelope (c.edPublic signingPrivate) = .ok payload := by
  have hbody := protocolSeal_body hc h
  obtain ⟨plain, hplain, hkey, hv, hh, hct, hsig⟩ := protocolSeal_facts h
  obtain ⟨hmax, ⟨pad, hpad⟩, hlo, _, _⟩ := paddedPayload_facts hplain
  have hobj : envelope.header.objectID = header.objectID := by rw [hh]
  -- The plaintext is the length, the payload and the padding.
  have hlen : uint32 (plain.take 4) = (cbor.marshal payload).length := by
    rw [hpad, append_assoc]
    exact uint32_putUint32 (by unfold maxEnvelopePayload at hmax; omega)
  have hslice : (plain.drop 4).take (cbor.marshal payload).length = cbor.marshal payload := by
    rw [hpad, append_assoc, drop_left' (by rfl)]
    exact take_left' rfl
  have hfit : ¬(cbor.marshal payload).length > plain.length-4 := by
    rw [hpad]
    simp only [length_append, putUint32, length_cons, length_nil]
    omega
  have hver : c.edVerify (c.edPublic signingPrivate)
      (c.canonicalHeader envelope.header ++ envelope.ciphertext) envelope.signature = true := by
    rw [hsig]
    exact hc.edVerify_edSign _ _
  have hdec : c.aeadOpen (c.hkdf epochKey envelope.header.objectID (lit "yunpin-envelope-v1"))
      envelope.header.nonce envelope.ciphertext (c.canonicalHeader envelope.header) = some plain := by
    rw [hct, hobj]
    exact hc.aeadOpen_aeadSeal _ _ _ _
  unfold protocolOpen
  unfold paddingBucket at hlo
  simp only [hv, hbody, hver, hc.edPublic_length, deriveObjectKey, hkey, ne_eq, not_true_eq_false,
    if_false]
  rw [hdec]
  simp only [hlen, hslice, hp, hfit, if_false, show ¬plain.length < 4 by omega]

theorem protocolOpen_unmarshal {signingPublic : Bytes}
    (h : protocolOpen c cbor epochKey envelope signingPublic = .ok payload) :
    ∃ bytes, cbor.unmarshal bytes = some payload := by
  unfold protocolOpen at h
  split at h
  · simp at h
  split at h
  · simp at h
  split at h
  · simp at h
  dsimp only at h
  split at h
  · simp at h
  split at h
  · simp at h
  split at h
  · simp at h
  split at h
  · simp at h
  split at h
  · simp at h
  split at h
  · simp at h
  rename_i p hp
  rw [← Except.ok.inj h]
  exact ⟨_, hp⟩

/-- The wire form of an envelope, as an upload (no device, no cursor) or as a
download. -/
def Envelope.wireFields (e : Envelope) (device : Bytes) (cursor : ℤ) : WireEnvelope where
  version := e.header.version
  deviceID := device
  deviceSeq := e.header.deviceSeq
  objectID := hexEncode e.header.objectID
  keyEpoch := e.header.keyEpoch
  previousHash := wirePreviousHash e.header.previousHash
  nonce := base64Encode e.header.nonce
  ciphertext := base64Encode e.ciphertext
  signature := base64Encode e.signature
  cursor := cursor

theorem toWire_ok_iff (envelope : Envelope) (wire : WireEnvelope) :
    envelope.toWire = .ok wire ↔ validateHeader envelope.header = .ok () ∧
      validateEnvelopeBody envelope.ciphertext envelope.signature = .ok () ∧
      wire = envelope.wireFields [] 0 := by
  unfold Envelope.toWire
  split
  · rename_i hv
    simp [hv]
  · rename_i hv
    split
    · rename_i hb
      simp [hb]
    · rename_i hb
      simp only [hv, hb, true_and, Except.ok.injEq]
      exact eq_comm

theorem decodePreviousHash_wirePreviousHash (hash : Bytes) :
    decodePreviousHash (wirePreviousHash hash) = some hash := by
  unfold decodePreviousHash wirePreviousHash
  by_cases hz : hash = []
  · simp [hz]
  · have hne : base64Encode hash ≠ [] := fun he => hz ((base64Encode_eq_nil hash).mp he)
    simp [hz, hne, base64Decode_base64Encode]

variable {e : Envelope}

theorem toWire_eq_wireFields {w : WireEnvelope} (h : e.toWire = .ok w) :
    w = e.wireFields [] 0 := ((toWire_ok_iff e w).mp h).2.2

theorem envelopeFromWire_wireFields {device : Bytes} {cursor : ℤ}
    (hv : validateHeader e.header = .ok ())
    (hb : validateEnvelopeBody e.ciphertext e.signature = .ok ())
    (hd : device = [] ∨ device = hexEncode e.header.deviceID) :
    envelopeFromWire e.header.accountID e.header.deviceID (e.wireFields device cursor) = .ok e := by
  obtain ⟨_, ⟨_, ho, hdev⟩, _⟩ := (validateHeader_ok_iff e.header).mp hv
  have hid : ¬(device ≠ [] ∧ decodeHexWireID device ≠ some e.header.deviceID) := by
    intro ⟨hne, hdec⟩
    rcases hd with hd | hd
    · exact hne hd
    · exact hdec (by rw [hd]; exact decodeLowerHex_hexEncode 16 _ hdev)
  have hobj : decodeHexWireID (hexEncode e.header.objectID) = some e.header.objectID :=
    decodeLowerHex_hexEncode 16 _ ho
  unfold envelopeFromWire
  simp only [Envelope.wireFields, hobj, hid, if_false, base64Decode_base64Encode,
    decodePreviousHash_wirePreviousHash, hv, hb]

theorem envelopeFromDownload_wireFields {cursor : ℤ} (hv : validateHeader e.header = .ok ())
    (hb : validateEnvelopeBody e.ciphertext e.signature = .ok ()) :
    envelopeFromDownload e.header.accountID
      (e.wireFields (hexEncode e.header.deviceID) cursor) = .ok e := by
  obtain ⟨_, ⟨_, _, hdev⟩, _⟩ := (validateHeader_ok_iff e.header).mp hv
  have hne : hexEncode e.header.deviceID ≠ [] := by
    apply ne_nil_of_length_pos
    rw [hexEncode_length, hdev]
    norm_num
  have hdec : decodeHexWireID (hexEncode e.header.deviceID) = some e.header.deviceID :=
    decodeLowerHex_hexEncode 16 _ hdev
  unfold envelopeFromDownload
  change (if hexEncode e.header.deviceID = [] then _ else
    match decodeHexWireID (hexEncode e.header.deviceID) with | none => _ | some _ => _) = _
  rw [if_neg hne, hdec]
  exact envelopeFromWire_wireFields hv hb (.inr rfl)

end YunPin
