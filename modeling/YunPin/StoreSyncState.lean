import YunPin.StoreDatabase

/-! The checkpoint of the background sync worker: one row that holds the relay
cursor, the position in the device's signed chain and at most one staged upload. -/
namespace YunPin
open ByteText

def maxPreparedWireBytes : ℕ := 2^20

/-! The text `json.Marshal` gives for a wire envelope. The strings in it are
hexadecimal and base64, so nothing is escaped. -/

def jsonText (value : Bytes) : Bytes := lit "\"" ++ value ++ lit "\""

def jsonNumber (n : ℕ) : Bytes := lit (toString n)

def jsonField (name : String) (value : Bytes) : Bytes := jsonText (lit name) ++ lit ":" ++ value

/-- The members in the order of the struct; the `omitempty` ones only when set. -/
def WireEnvelope.json (wire : WireEnvelope) : Bytes :=
  let members :=
    [jsonField "version" (jsonNumber wire.version)] ++
    (if wire.deviceID = [] then [] else [jsonField "device_id" (jsonText wire.deviceID)]) ++
    [jsonField "device_seq" (jsonNumber wire.deviceSeq),
      jsonField "object_id" (jsonText wire.objectID),
      jsonField "key_epoch" (jsonNumber wire.keyEpoch)] ++
    (if wire.previousHash = [] then [] else
      [jsonField "previous_hash" (jsonText wire.previousHash)]) ++
    [jsonField "nonce" (jsonText wire.nonce),
      jsonField "ciphertext" (jsonText wire.ciphertext),
      jsonField "signature" (jsonText wire.signature)] ++
    (if wire.cursor = 0 then [] else [jsonField "cursor" (jsonNumber wire.cursor.toNat)])
  lit "\x7b" ++ (members.intersperse (lit ",")).flatten ++ lit "\x7d"

def Store.requireSync (store : Store) : Except String Unit :=
  if ¬store.syncEnabled ∨ ¬validSyncDeviceID store.deviceID then
    .error "store was not opened with OpenForDevice"
  else .ok ()

def Store.syncRow (store : Store) (db : LocalDB) : Except String SyncState :=
  match db.syncState with
  | some row => if row.deviceID = store.deviceID then .ok row else .error "sql: no rows in result set"
  | none => .error "sql: no rows in result set"

def PreparedUpload.malformed (upload : PreparedUpload) : Bool :=
  upload.eventID < 1 ∨ upload.eventVersion < 1 ∨ upload.deviceSequence < 1 ∨
    upload.envelopeHash.length ≠ 32

def loadSyncState (store : Store) (db : LocalDB) : Except String SyncState :=
  match store.requireSync with
  | .error e => .error e
  | .ok () =>
    match store.syncRow db with
    | .error e => .error e
    | .ok row =>
      if row.nextDeviceSequence < 1 then .error "invalid persisted device sequence"
      else
        match row.prepared with
        | some upload =>
          if upload.malformed ∨ upload.wire.json.length = 0 then
            .error "invalid persisted prepared upload"
          else .ok row
        | none => .ok row

/-- `SavePreparedUpload`, one transaction. Equal wire bytes are equal wires. -/
def savePreparedUpload (store : Store) (upload : PreparedUpload) (db : LocalDB) :
    Except String LocalDB :=
  match store.requireSync with
  | .error e => .error e
  | .ok () =>
    if upload.malformed ∨ upload.eventVersion > maxInt64 ∨ upload.deviceSequence ≥ maxInt64 ∨
        upload.wire.json.length = 0 ∨ upload.wire.json.length > maxPreparedWireBytes then
      .error "invalid prepared upload"
    else
      match store.syncRow db with
      | .error e => .error e
      | .ok row =>
        match row.prepared with
        | some existing =>
          if existing = upload then .ok db else .error "a different upload is already prepared"
        | none =>
          if row.nextDeviceSequence ≠ upload.deviceSequence then
            .error "prepared upload sequence does not match checkpoint"
          else if (db.outbox.filter (fun r =>
              r.eventID = upload.eventID ∧ r.version = upload.eventVersion)).length ≠ 1 then
            .error "outbox event changed before upload was prepared"
          else .ok { db with syncState := some { row with prepared := some upload } }

/-- `CommitPreparedUpload`, one transaction on whatever is staged. The flag tells
whether the outbox still held the version that was staged. -/
def commitPreparedUpload (store : Store) (db : LocalDB) : Except String (Bool × LocalDB) :=
  match store.requireSync with
  | .error e => .error e
  | .ok () =>
    match store.syncRow db with
    | .error e => .error e
    | .ok row =>
      match row.prepared with
      | none => .error "sql: Scan error: converting NULL to int64 is unsupported"
      | some upload =>
        if upload.malformed ∨ upload.deviceSequence = maxInt64 then
          .error "invalid prepared upload checkpoint"
        else
          let outbox := db.outbox.filter (fun r =>
            ¬(r.eventID = upload.eventID ∧ r.version = upload.eventVersion))
          .ok (outbox.length+1 = db.outbox.length, { db with
            outbox := outbox
            syncState := some { row with
              nextDeviceSequence := upload.deviceSequence+1
              previousHash := upload.envelopeHash
              prepared := none } })

def advanceSyncCursor (store : Store) (expected next : ℤ) (db : LocalDB) : Except String LocalDB :=
  match store.requireSync with
  | .error e => .error e
  | .ok () =>
    if expected < 0 ∨ next < expected then .error "invalid sync cursor transition"
    else
      match store.syncRow db with
      | .error _ => .error "sync cursor changed concurrently"
      | .ok row =>
        if row.cursor ≠ expected then .error "sync cursor changed concurrently"
        else .ok { db with syncState := some { row with cursor := next } }

theorem syncRow_ok_iff (store : Store) (db : LocalDB) (row : SyncState) :
    store.syncRow db = .ok row ↔ db.syncState = some row ∧ row.deviceID = store.deviceID := by
  unfold Store.syncRow
  cases hs : db.syncState with
  | none => simp
  | some r =>
    by_cases hd : r.deviceID = store.deviceID
    · simp only [hd, if_true, Except.ok.injEq, Option.some.injEq]
      exact ⟨fun he => ⟨he, he ▸ hd⟩, fun he => he.1⟩
    · simp only [hd, if_false, Option.some.injEq, false_iff, reduceCtorEq]
      rintro ⟨rfl, he⟩
      exact hd he

variable {db db' : LocalDB}

variable {store : Store}

theorem loadSyncState_ok {row : SyncState} (h : loadSyncState store db = .ok row) :
    db.syncState = some row ∧ row.deviceID = store.deviceID := by
  unfold loadSyncState at h
  split at h
  · simp at h
  split at h
  · simp at h
  rename_i r hr
  split_ifs at h
  have hrow : r = row := by
    split at h
    · split_ifs at h
      exact Except.ok.inj h
    · exact Except.ok.inj h
  exact (syncRow_ok_iff store db row).mp (hrow ▸ hr)

/-- A successful `SavePreparedUpload` found the same upload staged already, or
staged it over an empty slot for a version the outbox holds. -/
theorem savePreparedUpload_ok {upload : PreparedUpload}
    (h : savePreparedUpload store upload db = .ok db') :
    ∃ row, db.syncState = some row ∧
      ((row.prepared = some upload ∧ db' = db) ∨
        (row.prepared = none ∧ row.nextDeviceSequence = upload.deviceSequence ∧
          (∃ r ∈ db.outbox, r.eventID = upload.eventID ∧ r.version = upload.eventVersion) ∧
          db' = { db with syncState := some { row with prepared := some upload } })) := by
  unfold savePreparedUpload at h
  split at h
  · simp at h
  split at h
  · simp at h
  split at h
  · simp at h
  rename_i row hrow
  refine ⟨row, ((syncRow_ok_iff store db row).mp hrow).1, ?_⟩
  split at h
  · rename_i existing hex
    split_ifs at h with he
    exact .inl ⟨he ▸ hex, (Except.ok.inj h).symm⟩
  · rename_i hnone
    split_ifs at h with hseq hcount
    refine .inr ⟨hnone, not_not.mp hseq, ?_, (Except.ok.inj h).symm⟩
    have hpos : 0 < (db.outbox.filter (fun r =>
        r.eventID = upload.eventID ∧ r.version = upload.eventVersion)).length := by omega
    obtain ⟨r, hr⟩ := List.exists_mem_of_length_pos hpos
    obtain ⟨hmem, hp⟩ := List.mem_filter.mp hr
    exact ⟨r, hmem, by simpa using hp⟩

/-- What `CommitPreparedUpload` does to the database: it drops the staged version
from the outbox, advances the chain and clears the slot. -/
def LocalDB.committed (db : LocalDB) (row : SyncState) (upload : PreparedUpload) : LocalDB :=
  { db with
    outbox := db.outbox.filter (fun r =>
      ¬(r.eventID = upload.eventID ∧ r.version = upload.eventVersion))
    syncState := some { row with
      nextDeviceSequence := upload.deviceSequence+1
      previousHash := upload.envelopeHash
      prepared := none } }

theorem commitPreparedUpload_ok {acknowledged : Bool}
    (h : commitPreparedUpload store db = .ok (acknowledged, db')) :
    ∃ row upload, db.syncState = some row ∧ row.prepared = some upload ∧
      db' = db.committed row upload := by
  unfold commitPreparedUpload at h
  split at h
  · simp at h
  split at h
  · simp at h
  rename_i row hrow
  split at h
  · simp at h
  rename_i upload hup
  split_ifs at h
  obtain ⟨_, hdb⟩ := Prod.mk.inj (Except.ok.inj h)
  exact ⟨row, upload, ((syncRow_ok_iff store db row).mp hrow).1, hup, hdb.symm⟩

theorem advanceSyncCursor_ok {expected next : ℤ}
    (h : advanceSyncCursor store expected next db = .ok db') :
    0 ≤ expected ∧ expected ≤ next ∧ ∃ row, db.syncState = some row ∧ row.cursor = expected ∧
      db' = { db with syncState := some { row with cursor := next } } := by
  unfold advanceSyncCursor at h
  split at h
  · simp at h
  split_ifs at h with hc
  split at h
  · simp at h
  rename_i row hrow
  split_ifs at h with hcur
  exact ⟨by omega, by omega, row, ((syncRow_ok_iff store db row).mp hrow).1, not_not.mp hcur,
    (Except.ok.inj h).symm⟩

end YunPin
