import YunPin.StorePhrase

/-! The encrypted local store: its tables, the hybrid clock, and the operations
that change phrase records and the outbox. Encryption at rest is transparent (one
data key per database), so a row holds the record as JSON gives it back. A
function that can fail returns the database as well: a transaction committed
before the failure stays. -/
namespace YunPin
open ByteText

/-- `encrypted_outbox`, one row per object, in the order of `event_id`. -/
structure OutboxRow where
  eventID : ℕ
  objectID : ObjectID
  phrase : Phrase
  version : ℕ
deriving DecidableEq

structure PreparedUpload where
  eventID : ℕ
  eventVersion : ℕ
  deviceSequence : ℕ
  wire : WireEnvelope
  envelopeHash : Bytes
deriving DecidableEq

/-- The single row of `sync_state`. A null `previous_hash` is the empty string. -/
structure SyncState where
  deviceID : Bytes
  cursor : ℤ
  nextDeviceSequence : ℕ
  previousHash : Bytes
  prepared : Option PreparedUpload
deriving DecidableEq

structure LocalDB where
  phrases : SortedMap ObjectID Phrase
  outbox : List OutboxRow
  lastEventID : ℕ
  generation : ℕ
  hlcWall : ℤ
  hlcCounter : ℕ
  syncState : Option SyncState

def LocalDB.empty : LocalDB := ⟨∅, [], 0, 0, 0, 0, none⟩

structure Store where
  idKey : Bytes
  deviceID : Bytes
  syncEnabled : Bool
deriving DecidableEq

/-- `store.now()`, read in milliseconds by the clock and in seconds for the day. -/
structure Reading where
  millis : ℤ
  seconds : ℤ
deriving DecidableEq

def openStore (dataKey idKey deviceID : Bytes) (syncEnabled : Bool) (db : LocalDB) :
    Except String Store × LocalDB :=
  if dataKey.length ≠ 32 ∨ idKey.length ≠ 32 then
    (.error "data and object ID keys must be 32 bytes", db)
  else if syncEnabled then
    -- INSERT OR IGNORE, then compare with the device the database is bound to.
    let row := db.syncState.getD ⟨deviceID, 0, 1, [], none⟩
    let db := { db with syncState := some row }
    if row.deviceID ≠ deviceID then
      (.error "local store is bound to a different sync device", db)
    else (.ok ⟨idKey, deviceID, true⟩, db)
  else (.ok ⟨idKey, deviceID, false⟩, db)

def openLocal (dataKey idKey : Bytes) (db : LocalDB) : Except String Store × LocalDB :=
  openStore dataKey idKey (lit "local-only") false db

def openForDevice (dataKey idKey deviceID : Bytes) (db : LocalDB) : Except String Store × LocalDB :=
  if ¬validSyncDeviceID deviceID then
    (.error "device ID must be 16 bytes encoded as lowercase hexadecimal", db)
  else openStore dataKey idKey deviceID true db

def Store.objectID (x : Externals) (store : Store) (text pinyin : Bytes) :
    Except String ObjectID :=
  if isBlank text ∨ isBlank pinyin then .error "phrase text and Pinyin are required"
  else opaqueObjectID x.crypto x.unicode store.idKey text pinyin

/-- Coalesce into the row of the object, or add one under a fresh `event_id`. -/
def LocalDB.enqueue (db : LocalDB) (id : ObjectID) (phrase : Phrase) : LocalDB :=
  if db.outbox.any (fun row => row.objectID = id) then
    { db with outbox := db.outbox.map (fun row =>
        if row.objectID = id then { row with phrase := phrase, version := row.version+1 } else row) }
  else
    { db with
      outbox := db.outbox ++ [⟨db.lastEventID+1, id, phrase, 1⟩]
      lastEventID := db.lastEventID+1 }

/-- One transaction: the record, the generation and, when asked, the outbox. -/
def LocalDB.write (db : LocalDB) (id : ObjectID) (phrase : Phrase) (enqueue : Bool) : LocalDB :=
  let db := { db with phrases := db.phrases.insert id phrase, generation := db.generation+1 }
  if enqueue then db.enqueue id phrase else db

def upsert (x : Externals) (store : Store) (phrase : Phrase) (enqueue : Bool) (db : LocalDB) :
    Except String Unit × LocalDB :=
  match store.objectID x phrase.text phrase.pinyin with
  | .error e => (.error e, db)
  | .ok id => (.ok (), db.write id (jsonPhrase phrase) enqueue)

def wrapInt64 (n : ℤ) : ℤ := Int.bmod n (2^64)

def nextHLC (store : Store) (now : Reading) (db : LocalDB) : HLC × LocalDB :=
  let (wall, counter) :=
    if now.millis > db.hlcWall then (now.millis, 0)
    else if db.hlcCounter ≥ maxUint32 then (wrapInt64 (db.hlcWall+1), 0)
    else (db.hlcWall, db.hlcCounter+1)
  (⟨wall, counter, store.deviceID⟩, { db with hlcWall := wall, hlcCounter := counter })

def observeHLC (observed : HLC) (db : LocalDB) : LocalDB :=
  if observed.wallMillis > db.hlcWall ∨
      (observed.wallMillis = db.hlcWall ∧ observed.counter > db.hlcCounter) then
    { db with hlcWall := observed.wallMillis, hlcCounter := observed.counter }
  else db

/-! Local operations. All of them find the object, read its record, take a clock
tick and decide what to write; the write is one more transaction. -/

/-- A record to be written, and whether it also goes to the outbox. -/
structure Write where
  record : Phrase
  enqueue : Bool
deriving DecidableEq

/-- The decision of a local operation, with the result it returns. -/
structure Plan (α : Type) where
  write : Option Write
  result : α

def mutate {α : Type} (x : Externals) (store : Store) (now : Reading) (text pinyin : Bytes)
    (decide_ : ObjectID → HLC → Option Phrase → Except String (Plan α)) (db : LocalDB) :
    Except String (Plan α) × LocalDB :=
  match store.objectID x text pinyin with
  | .error e => (.error e, db)
  | .ok id =>
    let (clock, db') := nextHLC store now db
    match decide_ id clock (db.phrases.find? id) with
    | .error e => (.error e, db')
    | .ok plan =>
      match plan.write with
      | none => (.ok plan, db')
      | some w =>
        match upsert x store w.record w.enqueue db' with
        | (.error e, db'') => (.error e, db'')
        | (.ok (), db'') => (.ok plan, db'')

/-- The record `SaveExplicit` starts from: the stored one with the new content,
or the argument as an addition. -/
def explicitBase (existing : Option Phrase) (phrase : Phrase) : Phrase :=
  match existing with
  | some old =>
    { old with
      text := phrase.text
      pinyin := phrase.pinyin
      source := phrase.source
      lastUsedDay := if phrase.lastUsedDay > old.lastUsedDay then phrase.lastUsedDay
        else old.lastUsedDay }
  | none => { phrase with deleted := false, crdt := .zero }

def readd (phrase : Phrase) (clock : HLC) : Except String Phrase :=
  if ¬phrase.crdt.presence.present then
    if phrase.crdt.presence.generation = maxUint64 then .error "phrase generation exhausted"
    else .ok { phrase with crdt := { phrase.crdt with presence :=
      ⟨true, clock, phrase.crdt.presence.generation+1⟩ } }
  else .ok phrase

def setPinned (phrase : Phrase) (wanted : Bool) (clock : HLC) : Phrase :=
  if phrase.crdt.pinned.value ≠ wanted then
    { phrase with crdt := { phrase.crdt with pinned := ⟨wanted, clock⟩ } }
  else phrase

def raiseTotal (phrase : Phrase) (deviceID : Bytes) (wanted : UInt64) : Except String Phrase :=
  let counts := phrase.crdt.counts.getD ∅
  let current := totalCounts counts
  if wanted > current then
    let mine := (counts.find? deviceID).getD 0
    if maxUint64-mine < wanted-current then .error "phrase use counter exhausted"
    else .ok { phrase with crdt := { phrase.crdt with
      counts := some (counts.insert deviceID (mine+(wanted-current))) } }
  else .ok phrase

def explicitRecord (store : Store) (phrase : Phrase) (id : ObjectID) (clock : HLC)
    (existing : Option Phrase) : Except String Phrase :=
  match ensurePhraseState (explicitBase existing phrase) id store.deviceID clock with
  | .error e => .error e
  | .ok record =>
    match readd record clock with
    | .error e => .error e
    | .ok record =>
      match raiseTotal (setPinned record phrase.pinned clock) store.deviceID phrase.useCount with
      | .error e => .error e
      | .ok record => .ok (materializePhrase record)

def explicitSource (source : Bytes) : Bytes :=
  if trimSpace source = [] then lit "manual" else trimSpace source

def explicitPlan (store : Store) (phrase : Phrase) (id : ObjectID) (clock : HLC)
    (existing : Option Phrase) : Except String (Plan Unit) :=
  match explicitRecord store { phrase with source := explicitSource phrase.source } id clock
      existing with
  | .error e => .error e
  | .ok record => .ok ⟨some ⟨record, true⟩, ()⟩

def saveExplicit (x : Externals) (store : Store) (now : Reading) (phrase : Phrase) (db : LocalDB) :
    Except String (Plan Unit) × LocalDB :=
  mutate x store now phrase.text phrase.pinyin (explicitPlan store phrase) db

structure LearningContext where
  passwordField : Bool
  privateMode : Bool
  oneTimeInput : Bool
deriving DecidableEq

def LearningContext.disabled (learning : LearningContext) : Bool :=
  learning.passwordField || learning.privateMode || learning.oneTimeInput

structure LearnResult where
  recorded : Bool
  useCount : UInt64
  syncEligible : Bool
deriving DecidableEq

def learningThreshold : UInt64 := 2

def selectionBase (existing : Option Phrase) (phrase : Phrase) : Phrase :=
  existing.getD { phrase with source := lit "learned" }

def dayOf (now : Reading) : ℤ := now.seconds.tdiv 86400

def countSelection (store : Store) (now : Reading) (record : Phrase) : Except String Phrase :=
  let counts := record.crdt.counts.getD ∅
  let mine := (counts.find? store.deviceID).getD 0
  if mine = maxUint64 then .error "phrase use counter exhausted"
  else .ok (materializePhrase { record with
    lastUsedDay := dayOf now
    crdt := { record.crdt with counts := some (counts.insert store.deviceID (mine+1)) } })

def selectionPlan (store : Store) (now : Reading) (phrase : Phrase) (id : ObjectID) (clock : HLC)
    (existing : Option Phrase) : Except String (Plan LearnResult) :=
  match ensurePhraseState (selectionBase existing phrase) id store.deviceID clock with
  | .error e => .error e
  | .ok record =>
    if ¬record.crdt.presence.present then .ok ⟨none, ⟨false, record.useCount, false⟩⟩
    else
      match countSelection store now record with
      | .error e => .error e
      | .ok record =>
        let eligible := decide (record.useCount ≥ learningThreshold)
        .ok ⟨some ⟨record, eligible⟩, ⟨true, record.useCount, eligible⟩⟩

def recordSelection (x : Externals) (store : Store) (now : Reading) (phrase : Phrase)
    (learning : LearningContext) (db : LocalDB) : Except String (Plan LearnResult) × LocalDB :=
  if learning.disabled then (.ok ⟨none, ⟨false, 0, false⟩⟩, db)
  else mutate x store now phrase.text phrase.pinyin (selectionPlan store now phrase) db

def deletionBase (existing : Option Phrase) (text pinyin : Bytes) : Phrase :=
  existing.getD ⟨text, pinyin, lit "tombstone", 0, false, false, 0, .zero⟩

def bury (record : Phrase) (clock : HLC) : Phrase :=
  materializePhrase { record with crdt := { record.crdt with presence :=
    { record.crdt.presence with present := false, clock := clock } } }

def deletionPlan (store : Store) (text pinyin : Bytes) (id : ObjectID) (clock : HLC)
    (existing : Option Phrase) : Except String (Plan Unit) :=
  match ensurePhraseState (deletionBase existing text pinyin) id store.deviceID clock with
  | .error e => .error e
  | .ok record => .ok ⟨some ⟨bury record clock, true⟩, ()⟩

def deletePhrase (x : Externals) (store : Store) (now : Reading) (text pinyin : Bytes)
    (db : LocalDB) : Except String (Plan Unit) × LocalDB :=
  mutate x store now text pinyin (deletionPlan store text pinyin) db

/-! Merging a remote payload. `MergeRemotePayload` is cut at its database calls:
read the record, migrate it if it is a legacy one, observe the clock, write. -/

def Phrase.payload (phrase : Phrase) : PhrasePayload :=
  ⟨phrase.text, phrase.pinyin, phrase.source, phrase.lastUsedDay, phrase.crdt⟩

/-- A merge between its read and its write: the payload, its object, the record as
it was read, and the record to merge into. -/
structure Merge where
  payload : PhrasePayload
  id : ObjectID
  read : Option Phrase
  existing : Option Phrase
deriving DecidableEq

def mergeLoad (x : Externals) (store : Store) (payload : PhrasePayload) (db : LocalDB) :
    Except String Merge :=
  match validatePayloadObject x payload store.idKey with
  | .error e => .error e
  | .ok id => .ok ⟨payload, id, db.phrases.find? id, db.phrases.find? id⟩

/-- A record without CRDT state gets one first, at a clock tick of its own. -/
def Merge.migrate (store : Store) (now : Reading) (m : Merge) (db : LocalDB) :
    Except String Merge × LocalDB :=
  match m.existing with
  | none => (.ok m, db)
  | some old =>
    if old.crdt.objectID = [] then
      let (clock, db') := nextHLC store now db
      match ensurePhraseState old m.id store.deviceID clock with
      | .error e => (.error e, db')
      | .ok migrated => (.ok { m with existing := some migrated }, db')
    else (.ok m, db)

def Merge.merged (m : Merge) : Except String PhrasePayload :=
  match m.existing with
  | some old => mergePhrasePayload old.payload m.payload
  | none => .ok m.payload

def Merge.record (x : Externals) (store : Store) (m : Merge) : Except String Phrase :=
  match m.merged with
  | .error e => .error e
  | .ok merged =>
    match validatePayloadObject x merged store.idKey with
    | .error e => .error e
    | .ok _ => .ok (materializePhrase
        ⟨merged.text, merged.pinyin, merged.source, 0, false, false, merged.lastUsedDay,
          clonePhraseState merged.state⟩)

def latestClock (phrase : Phrase) : HLC :=
  if phrase.crdt.pinned.clock.compare phrase.crdt.presence.clock < 0 then phrase.crdt.presence.clock
  else phrase.crdt.pinned.clock

def mergeRemotePayload (x : Externals) (store : Store) (now : Reading) (payload : PhrasePayload)
    (db : LocalDB) : Except String Unit × LocalDB :=
  match mergeLoad x store payload db with
  | .error e => (.error e, db)
  | .ok m =>
    match m.migrate store now db with
    | (.error e, db') => (.error e, db')
    | (.ok m, db') =>
      match m.record x store with
      | .error e => (.error e, db')
      | .ok record => upsert x store record false (observeHLC (latestClock record) db')

structure PendingEvent where
  id : ℕ
  version : ℕ
  objectID : ObjectID
  phrase : Phrase
  deviceID : Bytes
  syncable : Bool

def pendingEvents (store : Store) (db : LocalDB) (limit : ℕ) : Except String (List PendingEvent) :=
  if limit < 1 ∨ limit > 256 then .error "outbox limit must be between 1 and 256"
  else .ok ((db.outbox.take limit).map (fun row =>
    ⟨row.eventID, row.version, row.objectID, row.phrase, store.deviceID, store.syncEnabled⟩))

def PendingEvent.protocolPayload (event : PendingEvent) : Except String PhrasePayload :=
  if event.phrase.crdt.objectID ≠ hexEncode event.objectID.val ∨
      event.phrase.crdt.presence.generation = 0 ∨ event.phrase.crdt.counts = none then
    .error "outbox phrase has invalid CRDT metadata"
  else .ok { event.phrase.payload with state := clonePhraseState event.phrase.crdt }

structure EnvelopeOptions where
  accountID : Bytes
  deviceID : Bytes
  keyEpoch : ℕ
  deviceSeq : ℕ
  previousHash : Bytes
  epochKey : Bytes
  signingPrivate : Bytes
  random : RandomSource

/-- The header of a sealed phrase. The version and the nonce are filled in by the seal. -/
def EnvelopeOptions.header (options : EnvelopeOptions) (id : ObjectID) : Header where
  version := 0
  accountID := options.accountID
  objectID := id.val
  keyEpoch := options.keyEpoch
  deviceID := options.deviceID
  deviceSeq := options.deviceSeq
  previousHash := options.previousHash
  nonce := []

def PendingEvent.sealEnvelope (x : Externals) (event : PendingEvent) (options : EnvelopeOptions) :
    Except String Envelope :=
  if ¬event.syncable ∨ ¬validSyncDeviceID event.deviceID then
    .error "store was not opened with OpenForDevice"
  else if options.deviceID.length ≠ 16 ∨ hexEncode options.deviceID ≠ event.deviceID then
    .error "envelope device ID does not match the local CRDT component"
  else
    match event.protocolPayload with
    | .error e => .error e
    | .ok payload =>
      if event.objectID.val ≠ (hexDecode payload.state.objectID).getD [] then
        .error "outbox object ID changed during adaptation"
      else
        protocolSeal x.crypto x.cbor options.epochKey (options.header event.objectID) payload
          options.signingPrivate options.random

/-- What `SealEnvelope` has sealed: the event's own payload, under the header the
options give. -/
theorem sealEnvelope_ok {x : Externals} {event : PendingEvent} {options : EnvelopeOptions}
    {envelope : Envelope} (h : event.sealEnvelope x options = .ok envelope) :
    ∃ payload, event.protocolPayload = .ok payload ∧
      protocolSeal x.crypto x.cbor options.epochKey (options.header event.objectID) payload
        options.signingPrivate options.random = .ok envelope := by
  unfold PendingEvent.sealEnvelope at h
  split_ifs at h
  split at h
  · simp at h
  rename_i payload hp
  split_ifs at h
  exact ⟨payload, hp, h⟩

@[simp] theorem enqueue_syncState (db : LocalDB) (id : ObjectID) {phrase : Phrase} :
    (db.enqueue id phrase).syncState = db.syncState := by
  unfold LocalDB.enqueue
  split_ifs <;> rfl

@[simp] theorem write_syncState {db : LocalDB} {id : ObjectID} {phrase : Phrase} {enqueue : Bool} :
    (db.write id phrase enqueue).syncState = db.syncState := by
  unfold LocalDB.write
  cases enqueue
  · rfl
  · exact enqueue_syncState _ id

structure LocalDB.SameRows (db db' : LocalDB) : Prop where
  phrases : db'.phrases = db.phrases
  outbox : db'.outbox = db.outbox
  lastEventID : db'.lastEventID = db.lastEventID
  syncState : db'.syncState = db.syncState

theorem LocalDB.SameRows.refl (db : LocalDB) : db.SameRows db := ⟨rfl, rfl, rfl, rfl⟩

theorem nextHLC_sameRows (store : Store) (now : Reading) (db : LocalDB) :
    db.SameRows (nextHLC store now db).2 := ⟨rfl, rfl, rfl, rfl⟩

theorem observeHLC_sameRows (observed : HLC) (db : LocalDB) :
    db.SameRows (observeHLC observed db) := by
  unfold observeHLC
  split_ifs
  · exact ⟨rfl, rfl, rfl, rfl⟩
  · exact .refl db

theorem migrate_sameRows (store : Store) (now : Reading) (m : Merge) (db : LocalDB) :
    db.SameRows (m.migrate store now db).2 := by
  unfold Merge.migrate
  split
  · exact .refl db
  · split_ifs
    · dsimp only
      split <;> exact nextHLC_sameRows store now db
    · exact .refl db

theorem write_phrases (db : LocalDB) (id : ObjectID) (phrase : Phrase) (enqueue : Bool) :
    (db.write id phrase enqueue).phrases = db.phrases.insert id phrase := by
  unfold LocalDB.write LocalDB.enqueue
  cases enqueue
  · rfl
  · simp only [if_true]
    split_ifs <;> rfl

theorem write_outbox {db db' : LocalDB} (h : db.SameRows db') (id : ObjectID) (phrase : Phrase) :
    (db'.write id phrase true).outbox = (db.enqueue id phrase).outbox ∧
      (db'.write id phrase true).lastEventID = (db.enqueue id phrase).lastEventID := by
  simp only [LocalDB.write, if_true, LocalDB.enqueue, h.outbox, h.lastEventID]
  split_ifs <;> exact ⟨rfl, rfl⟩

end YunPin
