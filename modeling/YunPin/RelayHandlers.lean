import YunPin.RelaySync

/-! The account, device, pairing and keyring handlers of the relay, and the
requests it serves. A handler's statements form one transaction or one statement;
its authentication is a query of its own before that. -/
namespace YunPin
open ByteText List

def pairingLifetime : ℤ := 10*60*1000

structure AccountInput where
  recoveryAuthentication : Bytes
  registration : DeviceRegistration
deriving DecidableEq

def DecodedRegistration.device (r : DecodedRegistration) (c : Crypto) (id accountID token : Bytes)
    (createdAt : ℤ) : DeviceRow where
  id := id
  accountID := accountID
  nameCiphertext := r.nameCiphertext
  tokenHash := digest c token
  ed25519PublicKey := r.edKey
  x25519PublicKey := r.xKey
  ackCursor := 0
  createdAt := createdAt
  revokedAt := none

def createAccount (c : Crypto) (input : AccountInput) (moment : Moment) (db : RelayDB) :
    Reply × RelayDB :=
  match validateRegistration input.registration with
  | .error e => (writeError 400 e, db)
  | .ok registration =>
    match decodeSized input.recoveryAuthentication 32 32 with
    | none => (writeError 400 "invalid_recovery_authentication", db)
    | some recoveryAuthentication =>
      let accountID := randomID moment 0
      let deviceID := randomID moment 16
      let deviceToken := randomSecret moment 32 32
      if db.accounts.any (fun a => a.id = accountID) then (writeError 500 "database_error", db)
      else
        let db' : RelayDB := { db with accounts := db.accounts ++
          [⟨accountID, digest c recoveryAuthentication⟩] }
        match db'.insertDevice (registration.device c deviceID accountID deviceToken moment.now) with
        | none => (writeError 500 "database_error", db)
        | some db'' => (⟨201, .account accountID deviceID deviceToken⟩, db'')

def validID (value : Bytes) : Bool := value.length = 32 ∧ (hexDecode value).isSome

/-- The recovery hash of an account never changes, so its query and the insertion
are taken together. -/
def recoverAccount (c : Crypto) (accountID : Bytes) (input : AccountInput) (moment : Moment)
    (db : RelayDB) : Reply × RelayDB :=
  if ¬validID accountID then (writeError 404 "account_not_found", db)
  else
    match validateRegistration input.registration with
    | .error e => (writeError 400 e, db)
    | .ok registration =>
      match decodeSized input.recoveryAuthentication 32 32 with
      | none => (writeError 401 "invalid_recovery_authentication", db)
      | some recoveryAuthentication =>
        match db.accounts.find? (fun a => a.id = accountID) with
        | none => (writeError 401 "invalid_recovery_authentication", db)
        | some account =>
          if account.recoveryAuthenticationHash ≠ digest c recoveryAuthentication then
            (writeError 401 "invalid_recovery_authentication", db)
          else
            let deviceID := randomID moment 0
            let deviceToken := randomSecret moment 16 32
            match db.insertDevice
                (registration.device c deviceID accountID deviceToken moment.now) with
            | none => (writeError 500 "database_error", db)
            | some db' => (⟨201, .account accountID deviceID deviceToken⟩, db')

/-! Pairing: create (authenticated), join (by the secret), read and approve (by the
creator), claim (by the secret). -/

def createPairing (c : Crypto) (identity : DeviceIdentity) (moment : Moment) (db : RelayDB) :
    Reply × RelayDB :=
  let pairingID := randomID moment 0
  let pairingSecret := randomSecret moment 16 24
  let expiresAt := moment.now+pairingLifetime
  if db.pairings.any (fun p => p.id = pairingID) then (writeError 500 "database_error", db)
  else
    (⟨201, .pairing pairingID pairingSecret (base64Encode identity.x25519Key) expiresAt⟩,
      { db with pairings := db.pairings ++ [{
        id := pairingID
        accountID := identity.accountID
        creatorDeviceID := identity.id
        secretHash := digest c pairingSecret
        state := .created
        pendingNameCiphertext := []
        pendingEd25519PublicKey := []
        pendingX25519PublicKey := []
        newDeviceID := []
        encryptedKeyring := []
        expiresAt := expiresAt
        claimedAt := none }] })

/-- `UPDATE pairings SET … WHERE …`: the number of rows it affects tells the
handler whether it succeeded. -/
def RelayDB.updatePairings (db : RelayDB) (where_ : PairingRow → Bool)
    (set : PairingRow → PairingRow) : RelayDB :=
  { db with pairings := db.pairings.map (fun p => if where_ p then set p else p) }

structure JoinInput where
  pairingSecret : Bytes
  registration : DeviceRegistration
deriving DecidableEq

def joinPairing (c : Crypto) (pairingID : Bytes) (input : JoinInput) (moment : Moment)
    (db : RelayDB) : Reply × RelayDB :=
  match validateRegistration input.registration with
  | .error e => (writeError 400 e, db)
  | .ok registration =>
    let where_ (p : PairingRow) : Bool := p.id = pairingID ∧
      p.secretHash = digest c input.pairingSecret ∧ p.state = .created ∧ p.expiresAt > moment.now
    let db' := db.updatePairings where_ (fun p => { p with
      state := .joined
      pendingNameCiphertext := registration.nameCiphertext
      pendingEd25519PublicKey := registration.edKey
      pendingX25519PublicKey := registration.xKey })
    if db.pairings.countP where_ ≠ 1 then (writeError 401 "invalid_or_expired_pairing", db')
    else (⟨200, .pairingState .joined⟩, db')

def PairingRow.pending (p : PairingRow) : Option DeviceRegistration :=
  if p.pendingNameCiphertext.length ≠ 0 then some {
    deviceNameCiphertext := base64Encode p.pendingNameCiphertext
    ed25519PublicKey := base64Encode p.pendingEd25519PublicKey
    x25519PublicKey := base64Encode p.pendingX25519PublicKey }
  else none

def getPairing (identity : DeviceIdentity) (pairingID : Bytes) (moment : Moment) (db : RelayDB) :
    Reply :=
  match db.pairings.find? (fun p => p.id = pairingID ∧ p.accountID = identity.accountID ∧
      p.creatorDeviceID = identity.id) with
  | none => writeError 404 "pairing_not_found"
  | some row => ⟨200, .pairingDetail pairingID row.state row.expiresAt
      (row.expiresAt ≤ moment.now) row.pending⟩

def approvePairing (identity : DeviceIdentity) (pairingID encryptedKeyring : Bytes)
    (moment : Moment) (db : RelayDB) : Reply × RelayDB :=
  match decodeSealedBoxWire encryptedKeyring with
  | none => (writeError 400 "invalid_encrypted_keyring", db)
  | some keyring =>
    let deviceID := randomID moment 0
    let where_ (p : PairingRow) : Bool := p.id = pairingID ∧ p.accountID = identity.accountID ∧
      p.creatorDeviceID = identity.id ∧ p.state = .joined ∧ p.expiresAt > moment.now
    let db' := db.updatePairings where_ (fun p => { p with
      state := .approved
      newDeviceID := deviceID
      encryptedKeyring := keyring })
    if db.pairings.countP where_ ≠ 1 then (writeError 409 "pairing_not_ready", db')
    else (⟨200, .pairingState .approved⟩, db')

def PairingRow.device (p : PairingRow) (c : Crypto) (token : Bytes) (createdAt : ℤ) : DeviceRow where
  id := p.newDeviceID
  accountID := p.accountID
  nameCiphertext := p.pendingNameCiphertext
  tokenHash := digest c token
  ed25519PublicKey := p.pendingEd25519PublicKey
  x25519PublicKey := p.pendingX25519PublicKey
  ackCursor := 0
  createdAt := createdAt
  revokedAt := none

def claimPairing (c : Crypto) (pairingID pairingSecret : Bytes) (moment : Moment) (db : RelayDB) :
    Reply × RelayDB :=
  match db.pairings.find? (fun p => p.id = pairingID ∧ p.state = .approved) with
  | none => (writeError 401 "invalid_or_expired_pairing", db)
  | some p =>
    if p.expiresAt ≤ moment.now ∨ p.secretHash ≠ digest c pairingSecret then
      (writeError 401 "invalid_or_expired_pairing", db)
    else
      let deviceToken := randomSecret moment 0 32
      match db.insertDevice (p.device c deviceToken moment.now) with
      | none => (writeError 409 "pairing_already_claimed", db)
      | some db' =>
        (⟨201, .claimed p.accountID p.newDeviceID deviceToken (base64Encode p.encryptedKeyring)⟩,
          db'.updatePairings (fun q => q.id = pairingID ∧ q.state = .approved)
            (fun q => { q with state := .claimed, claimedAt := some moment.now }))

def listDevices (identity : DeviceIdentity) (db : RelayDB) : Reply :=
  ⟨200, .devices ((db.devices.filter (fun d => d.accountID = identity.accountID)).insertionSort
    (fun a b => a.createdAt ≤ b.createdAt)) identity.id⟩

def revokeDevice (identity : DeviceIdentity) (deviceID : Bytes) (moment : Moment) (db : RelayDB) :
    Reply × RelayDB :=
  if deviceID = identity.id then (writeError 409 "cannot_revoke_current_device", db)
  else
    let where_ (d : DeviceRow) : Bool :=
      d.id = deviceID ∧ d.accountID = identity.accountID ∧ d.revokedAt = none
    let db' : RelayDB := { db with devices := db.devices.map (fun d =>
      if where_ d then { d with revokedAt := some moment.now } else d) }
    if db.devices.countP where_ ≠ 1 then (writeError 404 "device_not_found", db')
    else (⟨204, .noContent⟩, db')

def getKeyring (identity : DeviceIdentity) (db : RelayDB) : Reply :=
  ⟨200, .keyrings ((db.keyrings.filter (fun k => k.accountID = identity.accountID)).insertionSort
    (fun a b => a.epoch ≤ b.epoch))⟩

/-- `INSERT OR IGNORE`; a row that is there already is compared with the request.
Keyring rows never change, so the comparison is taken together with the insertion. -/
def putKeyring (identity : DeviceIdentity) (epoch : ℤ) (ciphertext : Bytes) (moment : Moment)
    (db : RelayDB) : Reply × RelayDB :=
  match decodeSealedBoxWire ciphertext with
  | none => (writeError 400 "invalid_keyring", db)
  | some decoded =>
    if epoch < 1 then (writeError 400 "invalid_keyring", db)
    else
      match db.keyrings.find? (fun k => k.accountID = identity.accountID ∧ k.epoch = epoch) with
      | some existing =>
        if existing.ciphertext ≠ decoded then (writeError 409 "keyring_epoch_conflict", db)
        else (⟨200, .keyringEpoch epoch⟩, db)
      | none => (⟨200, .keyringEpoch epoch⟩, { db with keyrings := db.keyrings ++
          [⟨identity.accountID, epoch, decoded, identity.id, moment.now⟩] })

inductive AuthOp
  | createPairing
  | getPairing (pairingID : Bytes)
  | approvePairing (pairingID encryptedKeyring : Bytes)
  | sync (input : SyncRequest)
  | listDevices
  | revokeDevice (deviceID : Bytes)
  | getKeyring
  | putKeyring (epoch : ℤ) (ciphertext : Bytes)
deriving DecidableEq

inductive OpenOp
  | createAccount (input : AccountInput)
  | recoverAccount (accountID : Bytes) (input : AccountInput)
  | joinPairing (pairingID : Bytes) (input : JoinInput)
  | claimPairing (pairingID pairingSecret : Bytes)
deriving DecidableEq

def AuthOp.exec (c : Crypto) (identity : DeviceIdentity) (op : AuthOp) (moment : Moment)
    (db : RelayDB) : Reply × RelayDB :=
  match op with
  | .createPairing => YunPin.createPairing c identity moment db
  | .getPairing pairingID => (YunPin.getPairing identity pairingID moment db, db)
  | .approvePairing pairingID keyring => YunPin.approvePairing identity pairingID keyring moment db
  | .sync input => syncEnvelopes c identity input db
  | .listDevices => (YunPin.listDevices identity db, db)
  | .revokeDevice deviceID => YunPin.revokeDevice identity deviceID moment db
  | .getKeyring => (YunPin.getKeyring identity db, db)
  | .putKeyring epoch ciphertext => YunPin.putKeyring identity epoch ciphertext moment db

def OpenOp.exec (c : Crypto) (op : OpenOp) (moment : Moment) (db : RelayDB) : Reply × RelayDB :=
  match op with
  | .createAccount input => YunPin.createAccount c input moment db
  | .recoverAccount accountID input => YunPin.recoverAccount c accountID input moment db
  | .joinPairing pairingID input => YunPin.joinPairing c pairingID input moment db
  | .claimPairing pairingID secret => YunPin.claimPairing c pairingID secret moment db

variable (c : Crypto) (identity : DeviceIdentity) (op : AuthOp) (moment : Moment) (db : RelayDB)

/-- The answers and databases a signed request can leave. -/
inductive AuthOp.Leaves : AuthOp → Reply × RelayDB → Prop
  | same (op : AuthOp) (reply : Reply) : Leaves op (reply, db)
  | created (row : PairingRow) (secret : Bytes) (reply : Reply)
      (hfresh : ∀ p ∈ db.pairings, p.id ≠ row.id) (haccount : row.accountID = identity.accountID)
      (hcreator : row.creatorDeviceID = identity.id) (hsecret : row.secretHash = digest c secret)
      (hstate : row.state = .created) (hreply : reply = ⟨201, .pairing row.id secret
        (base64Encode identity.x25519Key) row.expiresAt⟩) :
      Leaves .createPairing (reply, { db with pairings := db.pairings ++ [row] })
  | approved (pairingID box : Bytes) (where_ : PairingRow → Bool) (keyring : Bytes) (reply : Reply)
      (hw : ∀ p, where_ p = true → p.creatorDeviceID = identity.id ∧ p.state = .joined) :
      Leaves (.approvePairing pairingID box) (reply, db.updatePairings where_ (fun p => { p with
        state := .approved
        newDeviceID := randomID moment 0
        encryptedKeyring := keyring }))
  | synced (input : SyncRequest) : Leaves (.sync input) (syncEnvelopes c identity input db)
  | revoked (deviceID : Bytes) (reply : Reply) (hself : deviceID ≠ identity.id) :
      Leaves (.revokeDevice deviceID) (reply, { db with devices := db.devices.map (fun d =>
        if d.id = deviceID ∧ d.accountID = identity.accountID ∧ d.revokedAt = none
        then { d with revokedAt := some moment.now } else d) })
  | stored (epoch : ℤ) (value decoded : Bytes) (reply : Reply) (hepoch : 1 ≤ epoch)
      (hdecode : decodeSealedBoxWire value = some decoded) (hnone : db.keyrings.find?
        (fun k => k.accountID = identity.accountID ∧ k.epoch = epoch) = none) :
      Leaves (.putKeyring epoch value) (reply, { db with keyrings := db.keyrings ++
        [⟨identity.accountID, epoch, decoded, identity.id, moment.now⟩] })

theorem AuthOp.exec_leaves : Leaves c identity moment db op (op.exec c identity moment db) := by
  cases op with
  | createPairing =>
    simp only [exec, YunPin.createPairing]
    split_ifs with hany
    · exact .same _ _
    · apply Leaves.created _ (randomSecret moment 16 24)
      · intro p hp he
        exact hany (any_eq_true.mpr ⟨p, hp, decide_eq_true he⟩)
      all_goals rfl
  | getPairing pairingID | listDevices | getKeyring => exact .same _ _
  | approvePairing pairingID box =>
    simp only [exec, YunPin.approvePairing]
    split
    · exact .same _ _
    -- The update runs before its count is checked, so both answers leave this table.
    split_ifs <;> refine .approved pairingID box _ _ _ ?_ <;> intro p hp <;>
      exact ⟨(of_decide_eq_true hp).2.2.1, (of_decide_eq_true hp).2.2.2.1⟩
  | sync input => exact .synced input
  | revokeDevice deviceID =>
    simp only [exec, YunPin.revokeDevice, decide_eq_true_eq]
    split_ifs with hself
    · exact .same _ _
    · exact .revoked deviceID _ hself
    · exact .revoked deviceID _ hself
  | putKeyring epoch value =>
    simp only [exec, YunPin.putKeyring]
    split
    · exact .same _ _
    rename_i decoded hdecode
    split_ifs with hepoch
    · exact .same _ _
    split
    · split_ifs <;> exact .same _ _
    · rename_i hnone
      exact .stored epoch value decoded _ (not_lt.mp hepoch) hdecode hnone

theorem AuthOp.exec_envelopes (h : ∀ input, op ≠ .sync input) :
    (op.exec c identity moment db).2.envelopes = db.envelopes ∧
      (op.exec c identity moment db).2.lastCursor = db.lastCursor := by
  have hl := op.exec_leaves c identity moment db
  generalize op.exec c identity moment db = out at hl
  cases hl with
  | synced input => exact absurd rfl (h input)
  | _ => exact ⟨rfl, rfl⟩

theorem syncEnvelopes_pairings {input : SyncRequest} (db : RelayDB) :
    (syncEnvelopes c identity input db).2.pairings = db.pairings := by
  apply syncEnvelopes_induction c identity input (fun db' => db'.pairings = db.pairings) rfl
  · intro db' e _ h _ _
    exact h
  · intro db' cursor h
    exact h

/-- An authenticated request leaves the pairings alone, opens one under a fresh id,
or approves joined pairings of its own device. -/
theorem AuthOp.exec_pairings : (op.exec c identity moment db).2.pairings = db.pairings ∨
    (∃ row secret, op = .createPairing ∧ (∀ p ∈ db.pairings, p.id ≠ row.id) ∧
      row.accountID = identity.accountID ∧ row.creatorDeviceID = identity.id ∧
      row.secretHash = digest c secret ∧ row.state = .created ∧
      op.exec c identity moment db = (⟨201, .pairing row.id secret
        (base64Encode identity.x25519Key) row.expiresAt⟩,
        { db with pairings := db.pairings ++ [row] })) ∨
    (∃ pairingID box where_ keyring, op = .approvePairing pairingID box ∧
      (∀ p, where_ p = true → p.creatorDeviceID = identity.id ∧ p.state = .joined) ∧
      (op.exec c identity moment db).2 = db.updatePairings where_ (fun p => { p with
        state := .approved
        newDeviceID := randomID moment 0
        encryptedKeyring := keyring })) := by
  have hl := op.exec_leaves c identity moment db
  generalize op.exec c identity moment db = out at hl
  cases hl with
  | created row secret reply hfresh hacc hcreator hsecret hstate hreply =>
    rw [hreply]
    exact .inr (.inl ⟨row, secret, rfl, hfresh, hacc, hcreator, hsecret, hstate, rfl⟩)
  | approved pairingID box where_ keyring reply hw =>
    exact .inr (.inr ⟨pairingID, box, where_, keyring, rfl, hw, rfl⟩)
  | synced input => exact .inl (syncEnvelopes_pairings c identity db)
  | _ => exact .inl rfl

theorem mem_updatePairings (where_ : PairingRow → Bool) (set : PairingRow → PairingRow)
    {p : PairingRow} (h : p ∈ (db.updatePairings where_ set).pairings) :
    p ∈ db.pairings ∨ ∃ q ∈ db.pairings, where_ q = true ∧ p = set q := by
  obtain ⟨q, hq, rfl⟩ := mem_map.mp h
  split_ifs with hw
  · exact .inr ⟨q, hq, hw, rfl⟩
  · exact .inl hq

/-- A request without authentication leaves the database alone, adds a device
under a fresh id and token (with its account, or closing its pairing), or joins a
pairing. -/
theorem OpenOp.exec_cases (op : OpenOp) (moment : Moment) (db : RelayDB) :
    (op.exec c moment db).2 = db ∨
    (∃ accounts row, (∀ pairingID secret, op ≠ .claimPairing pairingID secret) ∧
      row.revokedAt = none ∧
      (∀ d ∈ db.devices, d.id ≠ row.id ∧ d.tokenHash ≠ row.tokenHash) ∧
      (∃ offset, row.id = randomID moment offset) ∧ (op.exec c moment db).2 =
        { db with accounts := db.accounts ++ accounts, devices := db.devices ++ [row] }) ∨
    (∃ pairingID secret p token, op = .claimPairing pairingID secret ∧ p ∈ db.pairings ∧
      p.id = pairingID ∧ p.state = .approved ∧
      (∀ d ∈ db.devices, d.id ≠ p.newDeviceID ∧ d.tokenHash ≠ digest c token) ∧
      (op.exec c moment db).2 = RelayDB.updatePairings
        { db with devices := db.devices ++ [p.device c token moment.now] }
        (fun q => q.id = pairingID ∧ q.state = .approved)
        (fun q => { q with state := .claimed, claimedAt := some moment.now })) ∨
    (∃ where_ name edKey xKey, (∀ p, where_ p = true → p.state = .created) ∧
      (op.exec c moment db).2 = db.updatePairings where_ (fun p => { p with
        state := .joined
        pendingNameCiphertext := name
        pendingEd25519PublicKey := edKey
        pendingX25519PublicKey := xKey })) := by
  cases op with
  | createAccount input =>
    simp only [exec, YunPin.createAccount]
    split
    · exact .inl rfl
    split
    · exact .inl rfl
    split_ifs with hacc
    · exact .inl rfl
    split
    · exact .inl rfl
    · -- Every check passed: the account and its first device are inserted.
      rename_i db' hins
      obtain ⟨hfresh, rfl⟩ := insertDevice_some hins
      exact .inr (.inl ⟨_, _, by simp, rfl, hfresh, ⟨16, rfl⟩, rfl⟩)
  | recoverAccount accountID input =>
    simp only [exec, YunPin.recoverAccount]
    split_ifs with hid
    · split
      · exact .inl rfl
      split
      · exact .inl rfl
      split
      · exact .inl rfl
      split_ifs with hhash
      · exact .inl rfl
      split
      · exact .inl rfl
      · rename_i db' hins
        obtain ⟨hfresh, rfl⟩ := insertDevice_some hins
        exact .inr (.inl ⟨[], _, by simp, rfl, hfresh, ⟨0, rfl⟩, by rw [append_nil]⟩)
    · exact .inl rfl
  | joinPairing pairingID input =>
    simp only [exec, YunPin.joinPairing]
    split
    · exact .inl rfl
    rename_i registration _
    -- The update runs before its count is checked, so both answers leave this table.
    refine .inr (.inr (.inr ⟨fun p => decide (p.id = pairingID ∧
      p.secretHash = digest c input.pairingSecret ∧ p.state = .created ∧
      p.expiresAt > moment.now), registration.nameCiphertext, registration.edKey,
      registration.xKey, ?_, ?_⟩))
    · intro p hp
      exact (of_decide_eq_true hp).2.2.1
    · split_ifs <;> rfl
  | claimPairing pairingID secret =>
    simp only [exec, YunPin.claimPairing]
    split
    · exact .inl rfl
    rename_i p hp
    split_ifs with hbad
    · exact .inl rfl
    split
    · exact .inl rfl
    · rename_i db' hins
      obtain ⟨hfresh, rfl⟩ := insertDevice_some hins
      have hq : p.id = pairingID ∧ p.state = .approved := by simpa using find?_some hp
      exact .inr (.inr (.inl ⟨pairingID, secret, p, _, rfl, mem_of_find?_eq_some hp,
        hq.1, hq.2, hfresh, rfl⟩))

def DeviceRow.fixed (row : DeviceRow) : DeviceRow := { row with ackCursor := 0, revokedAt := none }

/-- An authenticated request rewrites device rows in place: it changes no fixed
column, keeps revocations, and revokes a row only as a request of another device
of the account to do so. -/
theorem AuthOp.exec_devices :
    ∃ g : DeviceRow → DeviceRow, (op.exec c identity moment db).2.devices = db.devices.map g ∧
      ∀ r, (g r).fixed = r.fixed ∧ (r.revokedAt ≠ none → (g r).revokedAt = r.revokedAt) ∧
        ((g r).revokedAt ≠ none → r.revokedAt ≠ none ∨ (op = .revokeDevice r.id ∧
          r.id ≠ identity.id ∧ r.accountID = identity.accountID)) := by
  have hl := op.exec_leaves c identity moment db
  generalize op.exec c identity moment db = out at hl
  cases hl with
  | synced input =>
    have hack : ∃ g : DeviceRow → DeviceRow,
        (syncEnvelopes c identity input db).2.devices = db.devices.map g ∧
          ∀ r, (g r).fixed = r.fixed ∧ (g r).revokedAt = r.revokedAt := by
      apply syncEnvelopes_induction c identity input (fun db' => ∃ g : DeviceRow → DeviceRow,
        db'.devices = db.devices.map g ∧ ∀ r, (g r).fixed = r.fixed ∧
          (g r).revokedAt = r.revokedAt) ⟨id, (map_id _).symm, fun r => ⟨rfl, rfl⟩⟩
      · intro db' e _ h _ _
        exact h
      · rintro db' cursor ⟨g, hg, hr⟩
        refine ⟨_, by simp only [RelayDB.acknowledge, hg, map_map]; rfl, ?_⟩
        intro r
        simp only [Function.comp]
        split_ifs <;> exact ⟨(hr r).1, (hr r).2⟩
    obtain ⟨g, hg, hr⟩ := hack
    exact ⟨g, hg, fun r => ⟨(hr r).1, fun _ => (hr r).2, fun h => .inl ((hr r).2 ▸ h)⟩⟩
  | revoked deviceID reply hself =>
    refine ⟨_, rfl, ?_⟩
    intro r
    split_ifs with hw
    · exact ⟨rfl, fun h => absurd hw.2.2 h,
        fun _ => .inr ⟨by rw [hw.1], fun he => hself (hw.1.symm.trans he), hw.2.1⟩⟩
    · exact ⟨rfl, fun _ => rfl, .inl⟩
  | _ => exact ⟨id, (map_id _).symm, fun r => ⟨rfl, fun _ => rfl, .inl⟩⟩

end YunPin
