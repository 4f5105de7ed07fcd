import YunPin.ProtocolEnvelope

/-! The tables of the sync relay, its replies, and the helpers its handlers share.
Rows are kept in the order of their integer key or of insertion. -/
namespace YunPin
open ByteText List

structure AccountRow where
  id : Bytes
  recoveryAuthenticationHash : Bytes
deriving DecidableEq

structure DeviceRow where
  id : Bytes
  accountID : Bytes
  nameCiphertext : Bytes
  tokenHash : Bytes
  ed25519PublicKey : Bytes
  x25519PublicKey : Bytes
  ackCursor : ℤ
  createdAt : ℤ
  revokedAt : Option ℤ
deriving DecidableEq

inductive PairingState
  | created
  | joined
  | approved
  | claimed
deriving DecidableEq

/-- The pending columns and the new device are null until the pairing is joined
and approved. -/
structure PairingRow where
  id : Bytes
  accountID : Bytes
  creatorDeviceID : Bytes
  secretHash : Bytes
  state : PairingState
  pendingNameCiphertext : Bytes
  pendingEd25519PublicKey : Bytes
  pendingX25519PublicKey : Bytes
  newDeviceID : Bytes
  encryptedKeyring : Bytes
  expiresAt : ℤ
  claimedAt : Option ℤ
deriving DecidableEq

structure KeyringRow where
  accountID : Bytes
  epoch : ℤ
  ciphertext : Bytes
  writerDeviceID : Bytes
  createdAt : ℤ
deriving DecidableEq

/-- `cursor` is the `AUTOINCREMENT` key. A null `previous_hash` is empty. -/
structure EnvelopeRow where
  cursor : ℤ
  accountID : Bytes
  deviceID : Bytes
  deviceSeq : ℕ
  version : ℕ
  objectID : Bytes
  keyEpoch : ℕ
  previousHash : Bytes
  nonce : Bytes
  ciphertext : Bytes
  signature : Bytes
  recordHash : Bytes
deriving DecidableEq

structure RelayDB where
  accounts : List AccountRow
  devices : List DeviceRow
  pairings : List PairingRow
  keyrings : List KeyringRow
  envelopes : List EnvelopeRow
  lastCursor : ℤ

def RelayDB.empty : RelayDB := ⟨[], [], [], [], [], 0⟩

/-- The clock and the random source of the process that runs a handler. -/
structure Moment where
  now : ℤ
  random : RandomSource

structure DeviceIdentity where
  id : Bytes
  accountID : Bytes
  ed25519Key : Bytes
  x25519Key : Bytes
deriving DecidableEq

structure SyncRequest where
  cursor : ℤ
  ackCursor : ℤ
  limit : ℤ
  envelopes : List WireEnvelope
deriving DecidableEq

structure SyncRejection where
  deviceSequence : ℕ
  code : String
deriving DecidableEq

structure SyncResponse where
  acceptedSequences : List ℕ
  rejectedSequences : List SyncRejection
  envelopes : List WireEnvelope
  nextCursor : ℤ
  hasMore : Bool
  currentKeyEpoch : ℤ
deriving DecidableEq

/-- The encoded name and keys of a device, in a registration and in the creator's
view of a joined pairing. -/
structure DeviceRegistration where
  deviceNameCiphertext : Bytes
  ed25519PublicKey : Bytes
  x25519PublicKey : Bytes
deriving DecidableEq

inductive Body
  | error (code : String)
  | account (accountID deviceID deviceToken : Bytes)
  | pairing (pairingID pairingSecret creatorX25519PublicKey : Bytes) (expiresAt : ℤ)
  | pairingState (state : PairingState)
  | pairingDetail (pairingID : Bytes) (state : PairingState) (expiresAt : ℤ) (expired : Bool)
      (pending : Option DeviceRegistration)
  | claimed (accountID deviceID deviceToken encryptedKeyring : Bytes)
  | sync (response : SyncResponse)
  | devices (rows : List DeviceRow) (current : Bytes)
  | keyrings (rows : List KeyringRow)
  | keyringEpoch (epoch : ℤ)
  | noContent
deriving DecidableEq

structure Reply where
  status : ℕ
  body : Body
deriving DecidableEq

def writeError (status : ℕ) (code : String) : Reply := ⟨status, .error code⟩

def digest (c : Crypto) (value : Bytes) : Bytes := c.sha256 value

def decodeSized (value : Bytes) (min max : ℕ) : Option Bytes :=
  match base64Decode value with
  | none => none
  | some decoded => if decoded.length < min ∨ decoded.length > max then none else some decoded

def maxSealedBoxWire : ℕ := 256*2^10

def decodeSealedBoxWire (value : Bytes) : Option Bytes :=
  match decodeSized value (33+16) maxSealedBoxWire with
  | none => none
  | some decoded =>
    if decoded.take 4 ≠ lit "YPBX" ∨ (decoded.drop 4).head? ≠ some 1 then none
    else
      let ciphertextLength := uint32 ((decoded.drop 5).take 4)
      if ciphertextLength < 16 ∨ ciphertextLength > maxSealedBoxWire-33 ∨
          decoded.length ≠ 33+ciphertextLength then none
      else some decoded

structure DecodedRegistration where
  nameCiphertext : Bytes
  edKey : Bytes
  xKey : Bytes

def validateRegistration (input : DeviceRegistration) : Except String DecodedRegistration :=
  match decodeSized input.deviceNameCiphertext 16 512 with
  | none => .error "invalid_device_name_ciphertext"
  | some name =>
    match decodeSized input.ed25519PublicKey 32 32 with
    | none => .error "invalid_ed25519_public_key"
    | some edKey =>
      match decodeSized input.x25519PublicKey 32 32 with
      | none => .error "invalid_x25519_public_key"
      | some xKey => .ok ⟨name, edKey, xKey⟩

def randomID (moment : Moment) (offset : ℕ) : Bytes := hexEncode (moment.random.read offset 16)

def randomSecret (moment : Moment) (offset n : ℕ) : Bytes :=
  base64Encode (moment.random.read offset n)

/-- The constraints of `devices`: primary key, unique token, column lengths and
the reference to an account. -/
def RelayDB.insertDevice (db : RelayDB) (row : DeviceRow) : Option RelayDB :=
  if db.devices.any (fun d => d.id = row.id ∨ d.tokenHash = row.tokenHash) ∨
      row.tokenHash.length ≠ 32 ∨ row.ed25519PublicKey.length ≠ 32 ∨
      row.x25519PublicKey.length ≠ 32 ∨ ¬db.accounts.any (fun a => a.id = row.accountID) then none
  else some { db with devices := db.devices ++ [row] }

/-! Authentication: the bearer token of the `Authorization` header, then one query
outside of any transaction. -/

def bearerToken (header : Bytes) : Option Bytes :=
  if header.take 7 ≠ lit "Bearer " ∨ (header.drop 7).contains 0x20 then none
  else if trimSpace (header.drop 7) = [] then none
  else some (trimSpace (header.drop 7))

def DeviceRow.identity (row : DeviceRow) : DeviceIdentity :=
  ⟨row.id, row.accountID, row.ed25519PublicKey, row.x25519PublicKey⟩

def authenticate (c : Crypto) (db : RelayDB) (header : Bytes) : Except Reply DeviceIdentity :=
  match bearerToken header with
  | none => .error (writeError 401 "authentication_required")
  | some token =>
    match db.devices.find? (fun d => d.tokenHash = digest c token ∧ d.revokedAt = none) with
    | none => .error (writeError 401 "invalid_device_token")
    | some row => .ok row.identity

variable {db : RelayDB}

theorem authenticate_ok {c : Crypto} {header : Bytes} {identity : DeviceIdentity}
    (h : authenticate c db header = .ok identity) :
    ∃ token, bearerToken header = some token ∧ ∃ row ∈ db.devices,
      row.tokenHash = digest c token ∧ row.revokedAt = none ∧ row.identity = identity := by
  unfold authenticate at h
  split at h
  · simp at h
  rename_i token htoken
  split at h
  · simp at h
  rename_i row hrow
  have hp : row.tokenHash = digest c token ∧ row.revokedAt = none := by
    simpa using find?_some hrow
  exact ⟨token, htoken, row, mem_of_find?_eq_some hrow, hp.1, hp.2, Except.ok.inj h⟩

theorem authenticate_error {c : Crypto} {header : Bytes} {reply : Reply}
    (h : authenticate c db header = .error reply) :
    ∃ status code, reply = writeError status code := by
  unfold authenticate at h
  split at h
  · exact ⟨_, _, (Except.error.inj h).symm⟩
  · split at h
    · exact ⟨_, _, (Except.error.inj h).symm⟩
    · simp at h

theorem insertDevice_some {db' : RelayDB} {row : DeviceRow} (h : db.insertDevice row = some db') :
    (∀ d ∈ db.devices, d.id ≠ row.id ∧ d.tokenHash ≠ row.tokenHash) ∧
      db' = { db with devices := db.devices ++ [row] } := by
  unfold RelayDB.insertDevice at h
  split_ifs at h with hc
  refine ⟨?_, (Option.some.inj h).symm⟩
  intro d hd
  by_contra hn
  apply hc
  refine .inl (any_eq_true.mpr ⟨d, hd, ?_⟩)
  rw [decide_eq_true_eq]
  tauto

end YunPin
