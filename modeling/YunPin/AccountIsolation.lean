import YunPin.OwnedTable
import YunPin.RelayRevocation

/-! Accounts on one relay. What a request of an account answers and writes depends on
the rows of that account only, whatever ids its path and body name. -/
namespace YunPin
open ByteText OwnedTable List

structure AccountRows where
  devices : List DeviceRow
  pairings : List PairingRow
  keyrings : List KeyringRow
  envelopes : List EnvelopeRow
deriving DecidableEq

def RelayDB.rowsOf (db : RelayDB) (account : Bytes) : AccountRows where
  devices := OwnedTable.rowsOf DeviceRow.accountID account db.devices
  pairings := OwnedTable.rowsOf PairingRow.accountID account db.pairings
  keyrings := OwnedTable.rowsOf KeyringRow.accountID account db.keyrings
  envelopes := OwnedTable.rowsOf EnvelopeRow.accountID account db.envelopes

/-- Two databases that cannot be told apart from inside the account. -/
structure AgreeOn (account : Bytes) (a b : RelayDB) : Prop where
  rows : a.rowsOf account = b.rowsOf account
  cursor : a.lastCursor = b.lastCursor

/-- No row of another account differs, and neither does the list of accounts. -/
structure OthersKept (account : Bytes) (a b : RelayDB) : Prop where
  rows : ∀ other, other ≠ account → b.rowsOf other = a.rowsOf other
  accounts : b.accounts = a.accounts

section
variable {account : Bytes} {a b : RelayDB} (h : AgreeOn account a b)
include h

theorem AgreeOn.devices : rowsOf DeviceRow.accountID account a.devices =
    rowsOf DeviceRow.accountID account b.devices := congrArg AccountRows.devices h.rows

theorem AgreeOn.pairings : rowsOf PairingRow.accountID account a.pairings =
    rowsOf PairingRow.accountID account b.pairings := congrArg AccountRows.pairings h.rows

theorem AgreeOn.keyrings : rowsOf KeyringRow.accountID account a.keyrings =
    rowsOf KeyringRow.accountID account b.keyrings := congrArg AccountRows.keyrings h.rows

theorem AgreeOn.envelopes : rowsOf EnvelopeRow.accountID account a.envelopes =
    rowsOf EnvelopeRow.accountID account b.envelopes := congrArg AccountRows.envelopes h.rows

theorem AgreeOn.with_devices {x y : List DeviceRow}
    (hxy : rowsOf DeviceRow.accountID account x = rowsOf DeviceRow.accountID account y) :
    AgreeOn account { a with devices := x } { b with devices := y } := by
  refine ⟨?_, h.cursor⟩
  simp only [RelayDB.rowsOf, hxy, h.pairings, h.keyrings, h.envelopes]

theorem AgreeOn.with_pairings {x y : List PairingRow}
    (hxy : rowsOf PairingRow.accountID account x = rowsOf PairingRow.accountID account y) :
    AgreeOn account { a with pairings := x } { b with pairings := y } := by
  refine ⟨?_, h.cursor⟩
  simp only [RelayDB.rowsOf, hxy, h.devices, h.keyrings, h.envelopes]

theorem AgreeOn.with_keyrings {x y : List KeyringRow}
    (hxy : rowsOf KeyringRow.accountID account x = rowsOf KeyringRow.accountID account y) :
    AgreeOn account { a with keyrings := x } { b with keyrings := y } := by
  refine ⟨?_, h.cursor⟩
  simp only [RelayDB.rowsOf, hxy, h.devices, h.pairings, h.envelopes]

theorem AgreeOn.updatePairings (where_ : PairingRow → Bool) (set : PairingRow → PairingRow)
    (hset : ∀ p, (set p).accountID = p.accountID) :
    AgreeOn account (a.updatePairings where_ set) (b.updatePairings where_ set) :=
  h.with_pairings (rowsOf_update_congr hset h.pairings)

theorem AgreeOn.updateDevices (where_ : DeviceRow → Prop) [DecidablePred where_]
    (set : DeviceRow → DeviceRow) (hset : ∀ d, (set d).accountID = d.accountID) :
    AgreeOn account { a with devices := update where_ set a.devices }
      { b with devices := update where_ set b.devices } :=
  h.with_devices (rowsOf_update_congr hset h.devices)

omit h

theorem OthersKept.refl (a : RelayDB) : OthersKept account a a := ⟨fun _ _ => rfl, rfl⟩

theorem OthersKept.with_devices {x : List DeviceRow}
    (hx : ∀ other, other ≠ account → rowsOf DeviceRow.accountID other x =
      rowsOf DeviceRow.accountID other a.devices) : OthersKept account a { a with devices := x } :=
  ⟨fun other hne => by simp only [RelayDB.rowsOf, hx other hne], rfl⟩

theorem OthersKept.with_pairings {x : List PairingRow}
    (hx : ∀ other, other ≠ account → rowsOf PairingRow.accountID other x =
      rowsOf PairingRow.accountID other a.pairings) :
    OthersKept account a { a with pairings := x } :=
  ⟨fun other hne => by simp only [RelayDB.rowsOf, hx other hne], rfl⟩

theorem OthersKept.with_keyrings {x : List KeyringRow}
    (hx : ∀ other, other ≠ account → rowsOf KeyringRow.accountID other x =
      rowsOf KeyringRow.accountID other a.keyrings) :
    OthersKept account a { a with keyrings := x } :=
  ⟨fun other hne => by simp only [RelayDB.rowsOf, hx other hne], rfl⟩

theorem OthersKept.updatePairings (where_ : PairingRow → Bool) (set : PairingRow → PairingRow)
    (hw : Within PairingRow.accountID account (fun p => where_ p))
    (hset : ∀ p, (set p).accountID = p.accountID) :
    OthersKept account a (a.updatePairings where_ set) :=
  .with_pairings (fun _ hne => rowsOf_update_other hw hset hne)

theorem OthersKept.updateDevices (where_ : DeviceRow → Prop) [DecidablePred where_]
    (set : DeviceRow → DeviceRow) (hw : Within DeviceRow.accountID account where_)
    (hset : ∀ d, (set d).accountID = d.accountID) :
    OthersKept account a { a with devices := update where_ set a.devices } :=
  .with_devices (fun _ hne => rowsOf_update_other hw hset hne)

theorem OthersKept.trans {d : RelayDB} (h : OthersKept account a b) (h' : OthersKept account b d) :
    OthersKept account a d :=
  ⟨fun other hne => (h'.rows other hne).trans (h.rows other hne), h'.accounts.trans h.accounts⟩

end

/-! The handlers, one by one: `Isolated` is what each of them is shown to be. -/

/-- A handler that gives the same answer on databases that agree on the account, makes
them agree again, and keeps the rows of the others. -/
structure Isolated (account : Bytes) (a b : RelayDB) (run : RelayDB → Reply × RelayDB) : Prop where
  reply : (run a).1 = (run b).1
  rows : AgreeOn account (run a).2 (run b).2
  others : OthersKept account a (run a).2

section
variable {identity : DeviceIdentity} {a b : RelayDB} (h : AgreeOn identity.accountID a b)
include h

theorem isolated_query (answer : RelayDB → Reply) (hanswer : answer a = answer b) :
    Isolated identity.accountID a b (fun db => (answer db, db)) :=
  ⟨hanswer, h, .refl a⟩

variable {moment : Moment}

theorem isolated_createPairing (c : Crypto) (ha : ∀ p ∈ a.pairings, p.id ≠ randomID moment 0)
    (hb : ∀ p ∈ b.pairings, p.id ≠ randomID moment 0) :
    Isolated identity.accountID a b (createPairing c identity moment) := by
  have hfresh (db : RelayDB) (hdb : ∀ p ∈ db.pairings, p.id ≠ randomID moment 0) :
      db.pairings.any (fun p => p.id = randomID moment 0) = false := by
    rw [any_eq_false]
    intro p hp
    simpa using hdb p hp
  constructor
  · simp only [createPairing, hfresh a ha, hfresh b hb]
    rfl
  · simp only [createPairing, hfresh a ha, hfresh b hb]
    exact h.with_pairings (rowsOf_insert_congr h.pairings)
  · simp only [createPairing, hfresh a ha]
    exact .with_pairings (fun other hne => rowsOf_insert_other hne.symm)

theorem getPairing_congr {pairingID : Bytes} :
    getPairing identity pairingID moment a = getPairing identity pairingID moment b := by
  have hwithin : Within PairingRow.accountID identity.accountID (fun p => decide (p.id = pairingID ∧
      p.accountID = identity.accountID ∧ p.creatorDeviceID = identity.id)) :=
    fun p hp => (of_decide_eq_true hp).2.1
  rw [getPairing, getPairing, find?_congr hwithin h.pairings]

theorem isolated_approvePairing {pairingID keyring : Bytes} :
    Isolated identity.accountID a b (approvePairing identity pairingID keyring moment) := by
  unfold approvePairing
  cases decodeSealedBoxWire keyring with
  | none => exact ⟨rfl, h, .refl a⟩
  | some box =>
    have hwithin : Within PairingRow.accountID identity.accountID (fun p => decide (
        p.id = pairingID ∧ p.accountID = identity.accountID ∧ p.creatorDeviceID = identity.id ∧
        p.state = .joined ∧ p.expiresAt > moment.now)) :=
      fun p hp => (of_decide_eq_true hp).2.1
    have hcount := countP_congr hwithin h.pairings
    constructor
    · simp only [hcount]
      split_ifs <;> rfl
    · simp only [hcount]
      split_ifs <;> exact h.updatePairings _ _ (by intro p; rfl)
    · simp only
      split_ifs <;> exact .updatePairings _ _ hwithin (by intro p; rfl)

theorem listDevices_congr :
    listDevices identity a = listDevices identity b := by
  have hwithin : Within DeviceRow.accountID identity.accountID
      (fun d => decide (d.accountID = identity.accountID)) := fun d hd => of_decide_eq_true hd
  rw [listDevices, listDevices, filter_congr hwithin h.devices]

theorem isolated_revokeDevice {deviceID : Bytes} :
    Isolated identity.accountID a b (revokeDevice identity deviceID moment) := by
  have hwithin : Within DeviceRow.accountID identity.accountID (fun d => decide (
      d.id = deviceID ∧ d.accountID = identity.accountID ∧ d.revokedAt = none)) :=
    fun d hd => (of_decide_eq_true hd).2.1
  have hcount := countP_congr hwithin h.devices
  by_cases hself : deviceID = identity.id
  · constructor
    · simp only [revokeDevice, hself, if_true]
    · simpa only [revokeDevice, hself, if_true] using h
    · simpa only [revokeDevice, hself, if_true] using .refl a
  · constructor
    · simp only [revokeDevice, hself, if_false, hcount]
      split_ifs <;> rfl
    · simp only [revokeDevice, hself, if_false, hcount]
      split_ifs <;> exact h.updateDevices _ _ (by intro d; rfl)
    · simp only [revokeDevice, hself, if_false]
      split_ifs <;> exact .updateDevices _ _ hwithin (by intro d; rfl)

theorem getKeyring_congr :
    getKeyring identity a = getKeyring identity b := by
  have hwithin : Within KeyringRow.accountID identity.accountID
      (fun k => decide (k.accountID = identity.accountID)) := fun k hk => of_decide_eq_true hk
  rw [getKeyring, getKeyring, filter_congr hwithin h.keyrings]

theorem isolated_putKeyring {epoch : ℤ} {ciphertext : Bytes} :
    Isolated identity.accountID a b (putKeyring identity epoch ciphertext moment) := by
  have hwithin : Within KeyringRow.accountID identity.accountID
      (fun k => decide (k.accountID = identity.accountID ∧ k.epoch = epoch)) :=
    fun k hk => (of_decide_eq_true hk).1
  have hfind := find?_congr hwithin h.keyrings
  unfold putKeyring
  cases decodeSealedBoxWire ciphertext with
  | none => exact ⟨rfl, h, .refl a⟩
  | some decoded =>
    by_cases hepoch : epoch < 1
    · simp only [hepoch, if_true]
      exact ⟨rfl, h, .refl a⟩
    · simp only [hepoch, if_false]
      cases hexisting : b.keyrings.find? (fun k => decide (k.accountID = identity.accountID ∧
          k.epoch = epoch)) with
      | some existing =>
        rw [hexisting] at hfind
        constructor
        · simp only [hfind, hexisting]
          split_ifs <;> rfl
        · simp only [hfind, hexisting]
          split_ifs <;> exact h
        · simp only [hfind]
          split_ifs <;> exact .refl a
      | none =>
        rw [hexisting] at hfind
        constructor
        · simp only [hfind, hexisting]
        · simp only [hfind, hexisting]
          exact h.with_keyrings (rowsOf_insert_congr h.keyrings)
        · simp only [hfind]
          exact .with_keyrings (fun _ hne => rowsOf_insert_other hne.symm)

theorem AgreeOn.chain :
    a.chain identity.accountID identity.id = b.chain identity.accountID identity.id :=
  filter_congr (fun _ hr => (of_decide_eq_true hr).1) h.envelopes

theorem AgreeOn.insertEnvelope (e : DecodedEnvelope) :
    AgreeOn identity.accountID (a.insertEnvelope identity e) (b.insertEnvelope identity e) := by
  refine ⟨?_, ?_⟩
  · simp only [RelayDB.rowsOf, RelayDB.insertEnvelope, h.cursor, h.devices, h.pairings, h.keyrings]
    rw [rowsOf_insert_congr h.envelopes]
  · simp only [RelayDB.insertEnvelope, h.cursor]

omit h in
theorem othersKept_insertEnvelope (e : DecodedEnvelope) (db : RelayDB) :
    OthersKept identity.accountID db (db.insertEnvelope identity e) := by
  refine ⟨?_, rfl⟩
  intro other hne
  have hrow : (e.row identity (db.lastCursor+1)).accountID ≠ other := hne.symm
  simp only [RelayDB.rowsOf, RelayDB.insertEnvelope, rowsOf_insert_other hrow]

theorem AgreeOn.acknowledge (ackCursor : ℤ) :
    AgreeOn identity.accountID (a.acknowledge identity ackCursor)
      (b.acknowledge identity ackCursor) :=
  h.updateDevices (fun d => d.id = identity.id ∧ d.accountID = identity.accountID) _
    (by intro d; rfl)

omit h in
theorem othersKept_acknowledge {ackCursor : ℤ} (db : RelayDB) :
    OthersKept identity.accountID db (db.acknowledge identity ackCursor) :=
  .updateDevices (fun d => d.id = identity.id ∧ d.accountID = identity.accountID) _
    (fun _ hd => hd.2) (by intro d; rfl)

/-- The two uploads have the same answers so far, and their databases agree. -/
structure UploadsAgree (account : Bytes) (u v : Upload) : Prop where
  db : AgreeOn account u.db v.db
  accepted : u.accepted = v.accepted
  rejected : u.rejected = v.rejected

omit h in
theorem UploadsAgree.uploadOne {u v : Upload} (h : UploadsAgree identity.accountID u v)
    (e : DecodedEnvelope) :
    UploadsAgree identity.accountID (uploadOne identity u e) (uploadOne identity v e) := by
  have hreject (sequence : ℕ) (code : String) :
      UploadsAgree identity.accountID (u.reject sequence code) (v.reject sequence code) :=
    ⟨h.db, h.accepted, by simp only [Upload.reject, h.rejected]⟩
  unfold YunPin.uploadOne
  rw [h.db.chain]
  simp only
  split
  · split_ifs
    · exact ⟨h.db, by simp only [Upload.accept, h.accepted], h.rejected⟩
    · exact hreject _ _
  · split_ifs
    · exact hreject _ _
    · exact hreject _ _
    · exact hreject _ _
    · exact ⟨h.db.insertEnvelope e, by simp only [Upload.accept, h.accepted], h.rejected⟩

theorem UploadsAgree.uploadBatch (batch : Batch) :
    UploadsAgree identity.accountID (uploadBatch identity a batch)
      (uploadBatch identity b batch) := by
  unfold YunPin.uploadBatch
  have hstart : UploadsAgree identity.accountID ⟨a, [], batch.rejected⟩ ⟨b, [], batch.rejected⟩ :=
    ⟨h, rfl, rfl⟩
  generalize (⟨a, [], batch.rejected⟩ : Upload) = u at hstart
  generalize (⟨b, [], batch.rejected⟩ : Upload) = v at hstart
  induction batch.unique generalizing u v with
  | nil => exact hstart
  | cons e rest ih =>
    rw [foldl_cons, foldl_cons]
    exact ih _ _ (hstart.uploadOne e)

theorem AgreeOn.accountMaxCursor :
    a.accountMaxCursor identity.accountID = b.accountMaxCursor identity.accountID :=
  congrArg (fun l => (l.map EnvelopeRow.cursor).foldl max 0) h.envelopes

theorem AgreeOn.above (cursor : ℤ) :
    a.above identity.accountID cursor = b.above identity.accountID cursor :=
  filter_congr (fun _ hr => (of_decide_eq_true hr).1) h.envelopes

theorem AgreeOn.currentKeyEpoch :
    a.currentKeyEpoch identity.accountID = b.currentKeyEpoch identity.accountID :=
  congrArg (fun l => (l.map KeyringRow.epoch).foldl max 0) h.keyrings

theorem isolated_syncEnvelopes (c : Crypto) {input : SyncRequest} :
    Isolated identity.accountID a b (syncEnvelopes c identity input) := by
  have hothers : OthersKept identity.accountID a (syncEnvelopes c identity input a).2 := by
    apply syncEnvelopes_induction c identity input (OthersKept identity.accountID a) (.refl a)
    · intro db e _ hdb _ _
      exact hdb.trans (othersKept_insertEnvelope e db)
    · intro db cursor hdb
      exact hdb.trans (othersKept_acknowledge db)
  have hpair : (syncEnvelopes c identity input a).1 = (syncEnvelopes c identity input b).1 ∧
      AgreeOn identity.accountID (syncEnvelopes c identity input a).2
        (syncEnvelopes c identity input b).2 := by
    unfold syncEnvelopes
    generalize (if input.limit = 0 then defaultSyncLimit else input.limit) = limit
    by_cases hbatch : input.cursor < 0 ∨ input.ackCursor < 0 ∨
        input.envelopes.length > maxUploadBatch
    · simp only [hbatch, if_true]
      exact ⟨trivial, h⟩
    simp only [hbatch, if_false]
    by_cases hlimit : limit < 1 ∨ limit > maximumSyncLimit
    · simp only [hlimit, if_true]
      exact ⟨trivial, h⟩
    simp only [hlimit, if_false]
    cases validateBatch c identity input.envelopes with
    | error e => exact ⟨rfl, h⟩
    | ok decoded =>
      have hupload := UploadsAgree.uploadBatch h (splitBatch (sortBatch decoded))
      have hpage := hupload.db.acknowledge input.ackCursor
      simp only [hupload.db.accountMaxCursor, hupload.accepted, hupload.rejected, hpage.above,
        hpage.currentKeyEpoch]
      split_ifs
      · exact ⟨rfl, h⟩
      split
      · exact ⟨rfl, h⟩
      · exact ⟨rfl, hpage⟩
  exact ⟨hpair.1, hpair.2, hothers⟩

end

theorem AuthOp.exec_isolated (c : Crypto) {identity : DeviceIdentity} (op : AuthOp)
    {moment : Moment} {a b : RelayDB} (h : AgreeOn identity.accountID a b)
    (ha : ∀ p ∈ a.pairings, p.id ≠ randomID moment 0)
    (hb : ∀ p ∈ b.pairings, p.id ≠ randomID moment 0) :
    Isolated identity.accountID a b (op.exec c identity moment) := by
  cases op with
  | createPairing => exact isolated_createPairing h c ha hb
  | getPairing pairingID => exact isolated_query h _ (getPairing_congr h)
  | approvePairing pairingID keyring => exact isolated_approvePairing h
  | sync input => exact isolated_syncEnvelopes h c
  | listDevices => exact isolated_query h _ (listDevices_congr h)
  | revokeDevice deviceID => exact isolated_revokeDevice h
  | getKeyring => exact isolated_query h _ (getKeyring_congr h)
  | putKeyring epoch ciphertext => exact isolated_putKeyring h

theorem AgreeOn.authenticate {a b : RelayDB} {identity : DeviceIdentity} (c : Crypto)
    (header : Bytes) (h : AgreeOn identity.accountID a b) (hb : b.UniqueDevices)
    (hauth : authenticate c a header = .ok identity) :
    YunPin.authenticate c b header = .ok identity := by
  obtain ⟨token, htoken, row, hrow, hhash, hlive, hid⟩ := authenticate_ok hauth
  have hacc : row.accountID = identity.accountID := by rw [← hid]; rfl
  have hmem : row ∈ b.devices := by
    have hin : row ∈ rowsOf DeviceRow.accountID identity.accountID a.devices :=
      mem_filter.mpr ⟨hrow, decide_eq_true hacc⟩
    rw [h.devices] at hin
    exact (mem_filter.mp hin).1
  unfold YunPin.authenticate
  rw [htoken]
  simp only
  cases hfind : b.devices.find? (fun d => decide (d.tokenHash = digest c token ∧
      d.revokedAt = none)) with
  | none =>
    have hno := find?_eq_none.mp hfind row hmem
    exact absurd (decide_eq_true ⟨hhash, hlive⟩) hno
  | some other =>
    have hother : other.tokenHash = digest c token ∧ other.revokedAt = none := by
      simpa using find?_some hfind
    have hsame : other = row := inj_on_of_nodup_map hb.tokens
      (mem_of_find?_eq_some hfind) hmem (hother.1.trans hhash.symm)
    rw [hsame]
    exact congrArg Except.ok hid

/-- Two relays that agree on an account: a token of the account is accepted by both for
the same device, every request of a device of the account gets the same answer from
both, leaves the same rows of the account, and no row of another account changes. -/
theorem account_isolation (c : Crypto) (account : Bytes) (a b : RelayDB)
    (hrows : a.rowsOf account = b.rowsOf account) (hcursor : a.lastCursor = b.lastCursor)
    (ha : a.UniqueDevices) (hb : b.UniqueDevices) (identity : DeviceIdentity)
    (hidentity : identity.accountID = account) :
    (∀ header, authenticate c a header = .ok identity ↔ authenticate c b header = .ok identity) ∧
    ∀ (op : AuthOp) (moment : Moment),
      (∀ p ∈ a.pairings, p.id ≠ randomID moment 0) → (∀ p ∈ b.pairings, p.id ≠ randomID moment 0) →
      (op.exec c identity moment a).1 = (op.exec c identity moment b).1 ∧
      (op.exec c identity moment a).2.rowsOf account =
        (op.exec c identity moment b).2.rowsOf account ∧
      (op.exec c identity moment a).2.lastCursor = (op.exec c identity moment b).2.lastCursor ∧
      ∀ db ∈ [a, b], (∀ other, other ≠ account →
        (op.exec c identity moment db).2.rowsOf other = db.rowsOf other) ∧
        (op.exec c identity moment db).2.accounts = db.accounts := by
  subst hidentity
  have h : AgreeOn identity.accountID a b := ⟨hrows, hcursor⟩
  have h' : AgreeOn identity.accountID b a := ⟨hrows.symm, hcursor.symm⟩
  refine ⟨fun header => ⟨h.authenticate c header hb, h'.authenticate c header ha⟩, ?_⟩
  intro op moment hfresha hfreshb
  have hiso := op.exec_isolated c h hfresha hfreshb
  have hiso' := op.exec_isolated c h' hfreshb hfresha
  refine ⟨hiso.reply, hiso.rows.rows, hiso.rows.cursor, ?_⟩
  intro db hdb
  rcases mem_pair.mp hdb with rfl | rfl
  · exact ⟨hiso.others.rows, hiso.others.accounts⟩
  · exact ⟨hiso'.others.rows, hiso'.others.accounts⟩

def sampleDB (actions : List RelayAction) : RelayDB :=
  ((Runs.run (Relay.step sampleCrypto) .empty actions).getD .empty).db

/-- A relay with one account, and the same with a second one. -/
theorem account_isolation_sample : ∃ (a b : RelayDB) (account : Bytes) (identity : DeviceIdentity),
    authenticate sampleCrypto a firstHeader = .ok identity ∧
    a.rowsOf account = b.rowsOf account ∧ a.devices ≠ b.devices ∧
    authenticate sampleCrypto b firstHeader = .ok identity ∧
    ((AuthOp.sync sampleUpload).exec sampleCrypto identity (sampleMoment 0) a).1 =
      ((AuthOp.sync sampleUpload).exec sampleCrypto identity (sampleMoment 0) b).1 := by
  let a := sampleDB sampleSetup
  let b := sampleDB (.serve (.createAccount sampleAccount) (sampleMoment 50) :: sampleSetup)
  let identity : DeviceIdentity :=
    ⟨firstDevice, randomID (sampleMoment 0) 0, List.replicate 32 2, List.replicate 32 3⟩
  have hauth : authenticate sampleCrypto a firstHeader = .ok identity := by decide
  have hrows : a.rowsOf identity.accountID = b.rowsOf identity.accountID := by decide
  have hne : a.devices ≠ b.devices := by decide
  have ha : a.UniqueDevices := ⟨by decide, by decide⟩
  have hb : b.UniqueDevices := ⟨by decide, by decide⟩
  have hisolated := account_isolation sampleCrypto _ a b hrows (by decide) ha hb identity rfl
  exact ⟨a, b, _, identity, hauth, hrows, hne, (hisolated.1 _).mp hauth,
    (hisolated.2 _ _ (by decide) (by decide)).1⟩

end YunPin
