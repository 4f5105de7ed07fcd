import YunPin.RelayTables

/-! `POST /v1/sync`: validation of uploaded envelopes, the upload loop over the
device's signed chain, and the download page. -/
namespace YunPin
open ByteText List Option

def maxCiphertext : ℕ := 524816
def maxUploadBatch : ℕ := 256
def defaultSyncLimit : ℤ := 256
def maximumSyncLimit : ℤ := 256
def maxDownloadBytes : ℕ := maxCiphertext

structure DecodedEnvelope where
  wire : WireEnvelope
  objectID : Bytes
  previousHash : Bytes
  nonce : Bytes
  ciphertext : Bytes
  signature : Bytes
  recordHash : Bytes
deriving DecidableEq

def decodeID (value : Bytes) : Option Bytes :=
  match hexDecode value with
  | none => none
  | some decoded => if decoded.length = 16 then some decoded else none

def relayHeader (c : Crypto) (accountID deviceID : Bytes) (wire : WireEnvelope)
    (previousHash nonce : Bytes) : Option Bytes :=
  match decodeID accountID with
  | none => none
  | some account =>
    match decodeID deviceID with
    | none => none
    | some device =>
      match decodeID wire.objectID with
      | none => none
      | some object =>
        if previousHash.length ≠ 0 ∧ previousHash.length ≠ 32 then none
        else if nonce.length ≠ 24 then none
        else some (c.canonicalHeader {
          version := wire.version
          accountID := account
          objectID := object
          keyEpoch := wire.keyEpoch
          deviceID := device
          deviceSeq := wire.deviceSeq
          previousHash := previousHash
          nonce := nonce })

def relayPreviousHash (value : Bytes) : Option Bytes :=
  if value ≠ [] then decodeSized value 32 32 else some []

def validateEnvelope (c : Crypto) (identity : DeviceIdentity) (wire : WireEnvelope) :
    Except String DecodedEnvelope :=
  if wire.deviceID ≠ [] ∨ wire.cursor ≠ 0 ∨ wire.version ≠ protocolVersion ∨ wire.deviceSeq < 1 ∨
      wire.deviceSeq > maxInt64 ∨ wire.keyEpoch < 1 ∨ wire.keyEpoch > maxInt64 then
    .error "invalid_envelope_metadata"
  else
    match decodeID wire.objectID with
    | none => .error "invalid_envelope_object_id"
    | some objectID =>
      match relayPreviousHash wire.previousHash with
      | none => .error "invalid_envelope_previous_hash"
      | some previousHash =>
        match decodeSized wire.nonce 24 24 with
        | none => .error "invalid_envelope_nonce"
        | some nonce =>
          match decodeSized wire.ciphertext (paddingBucket+16) maxCiphertext with
          | none => .error "invalid_envelope_ciphertext"
          | some ciphertext =>
            if (ciphertext.length-16)%paddingBucket ≠ 0 then .error "invalid_envelope_ciphertext"
            else
              match decodeSized wire.signature 64 64 with
              | none => .error "invalid_envelope_signature"
              | some signature =>
                match relayHeader c identity.accountID identity.id wire previousHash nonce with
                | none => .error "invalid_envelope_metadata"
                | some header =>
                  if ¬c.edVerify identity.ed25519Key (header ++ ciphertext) signature then
                    .error "invalid_envelope_signature"
                  else .ok {
                    wire := wire
                    objectID := objectID
                    previousHash := previousHash
                    nonce := nonce
                    ciphertext := ciphertext
                    signature := signature
                    recordHash := c.sha256 (header ++ ciphertext ++ signature) }

def validateBatch (c : Crypto) (identity : DeviceIdentity) :
    List WireEnvelope → Except String (List DecodedEnvelope)
  | [] => .ok []
  | wire :: rest =>
    match validateEnvelope c identity wire with
    | .error e => .error e
    | .ok decoded =>
      match validateBatch c identity rest with
      | .error e => .error e
      | .ok more => .ok (decoded :: more)

def sortBatch (decoded : List DecodedEnvelope) : List DecodedEnvelope :=
  decoded.insertionSort (fun a b => a.wire.deviceSeq ≤ b.wire.deviceSeq)

structure Batch where
  rejected : List SyncRejection
  unique : List DecodedEnvelope

def Batch.close (batch : Batch) (first : DecodedEnvelope) (conflict : Bool) : Batch :=
  if conflict then
    { batch with rejected := ⟨first.wire.deviceSeq, "sequence_conflict"⟩ :: batch.rejected }
  else { batch with unique := first :: batch.unique }

/-- Group a sorted batch by sequence: equal copies collapse to the first one, a
group with two different records is rejected as a whole. -/
def groupBatch (first : DecodedEnvelope) (conflict : Bool) : List DecodedEnvelope → Batch
  | [] => Batch.close ⟨[], []⟩ first conflict
  | e :: rest =>
    if e.wire.deviceSeq = first.wire.deviceSeq then
      groupBatch first (conflict || decide (e.recordHash ≠ first.recordHash)) rest
    else (groupBatch e false rest).close first conflict

def splitBatch : List DecodedEnvelope → Batch
  | [] => ⟨[], []⟩
  | first :: rest => groupBatch first false rest

def RelayDB.chain (db : RelayDB) (accountID deviceID : Bytes) : List EnvelopeRow :=
  db.envelopes.filter (fun r => r.accountID = accountID ∧ r.deviceID = deviceID)

def DecodedEnvelope.row (e : DecodedEnvelope) (identity : DeviceIdentity) (cursor : ℤ) :
    EnvelopeRow where
  cursor := cursor
  accountID := identity.accountID
  deviceID := identity.id
  deviceSeq := e.wire.deviceSeq
  version := e.wire.version
  objectID := e.objectID
  keyEpoch := e.wire.keyEpoch
  previousHash := e.previousHash
  nonce := e.nonce
  ciphertext := e.ciphertext
  signature := e.signature
  recordHash := e.recordHash

def RelayDB.insertEnvelope (db : RelayDB) (identity : DeviceIdentity) (e : DecodedEnvelope) :
    RelayDB :=
  { db with
    envelopes := db.envelopes ++ [e.row identity (db.lastCursor+1)]
    lastCursor := db.lastCursor+1 }

structure Upload where
  db : RelayDB
  accepted : List ℕ
  rejected : List SyncRejection

def Upload.accept (u : Upload) (sequence : ℕ) : Upload :=
  { u with accepted := u.accepted ++ [sequence] }

def Upload.reject (u : Upload) (sequence : ℕ) (code : String) : Upload :=
  { u with rejected := u.rejected ++ [⟨sequence, code⟩] }

/-- The highest stored sequence of a chain with its hash; zero and the empty hash
for an empty chain. -/
def lastRecord (chain : List EnvelopeRow) : ℕ × Bytes :=
  match chain.argmax (fun r => r.deviceSeq) with
  | none => (0, [])
  | some r => (r.deviceSeq, r.recordHash)

def uploadOne (identity : DeviceIdentity) (u : Upload) (e : DecodedEnvelope) : Upload :=
  let chain := u.db.chain identity.accountID identity.id
  match chain.find? (fun r => r.deviceSeq = e.wire.deviceSeq) with
  | some existing =>
    if existing.recordHash = e.recordHash then u.accept e.wire.deviceSeq
    else u.reject e.wire.deviceSeq "sequence_conflict"
  | none =>
    if e.wire.deviceSeq ≠ (lastRecord chain).1+1 then
      u.reject e.wire.deviceSeq
        (if e.wire.deviceSeq ≤ (lastRecord chain).1 then "sequence_conflict" else "sequence_gap")
    else if e.previousHash ≠ (lastRecord chain).2 then
      u.reject e.wire.deviceSeq "previous_hash_mismatch"
    else Upload.accept { u with db := u.db.insertEnvelope identity e } e.wire.deviceSeq

def uploadBatch (identity : DeviceIdentity) (db : RelayDB) (batch : Batch) : Upload :=
  batch.unique.foldl (uploadOne identity) ⟨db, [], batch.rejected⟩

def RelayDB.above (db : RelayDB) (accountID : Bytes) (cursor : ℤ) : List EnvelopeRow :=
  db.envelopes.filter (fun r => r.accountID = accountID ∧ r.cursor > cursor)

def RelayDB.accountMaxCursor (db : RelayDB) (accountID : Bytes) : ℤ :=
  ((db.envelopes.filter (fun r => r.accountID = accountID)).map (·.cursor)).foldl max 0

def RelayDB.acknowledge (db : RelayDB) (identity : DeviceIdentity) (ackCursor : ℤ) : RelayDB :=
  { db with devices := db.devices.map (fun d =>
      if d.id = identity.id ∧ d.accountID = identity.accountID then
        { d with ackCursor := if d.ackCursor < ackCursor then ackCursor else d.ackCursor }
      else d) }

/-- The page loop over the selected rows: `none` for a corrupt row, otherwise the
rows sent and whether rows were left over. -/
def cutPage (limit : ℕ) : List EnvelopeRow → (count bytes : ℕ) → Option (List EnvelopeRow × Bool)
  | [], _, _ => some ([], false)
  | row :: rest, count, bytes =>
    if row.ciphertext.length < paddingBucket+16 ∨ row.ciphertext.length > maxCiphertext ∨
        (row.ciphertext.length-16)%paddingBucket ≠ 0 then none
    else if count ≥ limit ∨ (count > 0 ∧ bytes+row.ciphertext.length > maxDownloadBytes) then
      some ([], true)
    else
      match cutPage limit rest (count+1) (bytes+row.ciphertext.length) with
      | none => none
      | some (page, hasMore) => some (row :: page, hasMore)

def EnvelopeRow.outgoing (row : EnvelopeRow) : WireEnvelope where
  version := row.version
  deviceID := row.deviceID
  deviceSeq := row.deviceSeq
  objectID := hexEncode row.objectID
  keyEpoch := row.keyEpoch
  previousHash := wirePreviousHash row.previousHash
  nonce := base64Encode row.nonce
  ciphertext := base64Encode row.ciphertext
  signature := base64Encode row.signature
  cursor := row.cursor

def RelayDB.currentKeyEpoch (db : RelayDB) (accountID : Bytes) : ℤ :=
  ((db.keyrings.filter (fun k => k.accountID = accountID)).map (·.epoch)).foldl max 0

def nextCursor (cursor : ℤ) (page : List EnvelopeRow) : ℤ :=
  match page.getLast? with
  | none => cursor
  | some row => row.cursor

def syncEnvelopes (c : Crypto) (identity : DeviceIdentity) (input : SyncRequest) (db : RelayDB) :
    Reply × RelayDB :=
  if input.cursor < 0 ∨ input.ackCursor < 0 ∨ input.envelopes.length > maxUploadBatch then
    (writeError 400 "invalid_sync_batch", db)
  else
    let limit := if input.limit = 0 then defaultSyncLimit else input.limit
    if limit < 1 ∨ limit > maximumSyncLimit then (writeError 400 "invalid_limit", db)
    else
      match validateBatch c identity input.envelopes with
      | .error e => (writeError 400 e, db)
      | .ok decoded =>
        -- From here on one transaction: an error rolls the uploads back.
        let upload := uploadBatch identity db (splitBatch (sortBatch decoded))
        let maxCursor := upload.db.accountMaxCursor identity.accountID
        if input.cursor > maxCursor ∨ input.ackCursor > maxCursor then
          (writeError 400 "invalid_cursor", db)
        else
          let db' := upload.db.acknowledge identity input.ackCursor
          match cutPage limit.toNat
              ((db'.above identity.accountID input.cursor).take (limit.toNat+1)) 0 0 with
          | none => (writeError 500 "database_error", db)
          | some (page, hasMore) =>
            (⟨200, .sync {
              acceptedSequences := upload.accepted
              rejectedSequences := upload.rejected
              envelopes := page.map EnvelopeRow.outgoing
              nextCursor := nextCursor input.cursor page
              hasMore := hasMore
              currentKeyEpoch := db'.currentKeyEpoch identity.accountID }⟩, db')

/-! What one round of the upload loop does, and what follows for the handler. -/

variable (c : Crypto) {identity : DeviceIdentity}

theorem uploadOne_cases (identity : DeviceIdentity) (u : Upload) (e : DecodedEnvelope) :
    (∃ r ∈ u.db.chain identity.accountID identity.id, r.deviceSeq = e.wire.deviceSeq ∧
      r.recordHash = e.recordHash ∧ uploadOne identity u e = u.accept e.wire.deviceSeq) ∨
    (∃ code, uploadOne identity u e = u.reject e.wire.deviceSeq code) ∨
    (e.wire.deviceSeq = (lastRecord (u.db.chain identity.accountID identity.id)).1+1 ∧
      e.previousHash = (lastRecord (u.db.chain identity.accountID identity.id)).2 ∧
      uploadOne identity u e =
        Upload.accept { u with db := u.db.insertEnvelope identity e } e.wire.deviceSeq) := by
  unfold uploadOne
  simp only
  split
  · rename_i existing hfind
    have hseq : existing.deviceSeq = e.wire.deviceSeq := by simpa using find?_some hfind
    split_ifs with hhash
    · exact .inl ⟨existing, mem_of_find?_eq_some hfind, hseq, hhash, rfl⟩
    · exact .inr (.inl ⟨_, rfl⟩)
  · split_ifs with hgap hconf hprev
    · exact .inr (.inl ⟨_, rfl⟩)
    · exact .inr (.inl ⟨_, rfl⟩)
    · exact .inr (.inl ⟨_, rfl⟩)
    · exact .inr (.inr ⟨not_not.mp hgap, not_not.mp hprev, rfl⟩)

theorem uploadBatch_induction (identity : DeviceIdentity) (P : RelayDB → Prop) {batch : Batch}
    {db : RelayDB} (h : P db) (hins : ∀ db, ∀ e ∈ batch.unique, P db →
      e.wire.deviceSeq = (lastRecord (db.chain identity.accountID identity.id)).1+1 →
      e.previousHash = (lastRecord (db.chain identity.accountID identity.id)).2 →
      P (db.insertEnvelope identity e)) : P (uploadBatch identity db batch).db := by
  unfold uploadBatch
  generalize hu : (⟨db, [], batch.rejected⟩ : Upload) = u
  have hdb : P u.db := hu ▸ h
  clear hu h
  -- The loop invariant is the property of the database so far.
  generalize batch.unique = l at hins
  induction l generalizing u with
  | nil => exact hdb
  | cons e rest ih =>
    rw [foldl_cons]
    apply ih
    · rcases uploadOne_cases identity u e with ⟨_, _, _, _, he⟩ | ⟨_, he⟩ | ⟨hseq, hprev, he⟩
      · rw [he]
        exact hdb
      · rw [he]
        exact hdb
      · rw [he]
        exact hins u.db e mem_cons_self hdb hseq hprev
    · intro db' e' he'
      exact hins db' e' (mem_cons_of_mem e he')

/-- The reply and the database of a request that was served, with the batch it
validated and the page it sent. -/
structure Served (c : Crypto) (identity : DeviceIdentity) (input : SyncRequest) (db : RelayDB)
    (response : SyncResponse) (db' : RelayDB) (decoded : List DecodedEnvelope)
    (page : List EnvelopeRow) : Prop where
  validated : validateBatch c identity input.envelopes = .ok decoded
  database : db' = (uploadBatch identity db (splitBatch (sortBatch decoded))).db.acknowledge
    identity input.ackCursor
  accepted : response.acceptedSequences =
    (uploadBatch identity db (splitBatch (sortBatch decoded))).accepted
  rejected : response.rejectedSequences =
    (uploadBatch identity db (splitBatch (sortBatch decoded))).rejected
  page_initial : page <+: db'.above identity.accountID input.cursor
  envelopes : response.envelopes = page.map EnvelopeRow.outgoing
  next : response.nextCursor = nextCursor input.cursor page
  cursor_nonneg : 0 ≤ input.cursor
  cursor_le : input.cursor ≤ db'.accountMaxCursor identity.accountID

theorem cutPage_initial {limit : ℕ} (rows page : List EnvelopeRow) (count bytes : ℕ)
    (hasMore : Bool) (h : cutPage limit rows count bytes = some (page, hasMore)) : page <+: rows := by
  induction rows generalizing count bytes page hasMore with
  | nil =>
    simp only [cutPage, some.injEq, Prod.mk.injEq] at h
    simp [h.1]
  | cons row rest ih =>
    simp only [cutPage] at h
    split_ifs at h with hlen hcut
    · simp only [some.injEq, Prod.mk.injEq] at h
      simp [← h.1]
    · split at h
      · simp at h
      · rename_i more _ hrest
        simp only [some.injEq, Prod.mk.injEq] at h
        rw [← h.1]
        exact cons_prefix_cons.mpr ⟨rfl, ih _ _ _ _ hrest⟩

theorem syncEnvelopes_cases (identity : DeviceIdentity) (input : SyncRequest) (db : RelayDB) :
    (∃ status code, syncEnvelopes c identity input db = (writeError status code, db)) ∨
    (∃ response db' decoded page, syncEnvelopes c identity input db = (⟨200, .sync response⟩, db') ∧
      Served c identity input db response db' decoded page) := by
  unfold syncEnvelopes
  simp only
  generalize (if input.limit = 0 then defaultSyncLimit else input.limit) = limit
  split_ifs with hbad hlimit
  · exact .inl ⟨_, _, rfl⟩
  · exact .inl ⟨_, _, rfl⟩
  split
  · exact .inl ⟨_, _, rfl⟩
  rename_i decoded hdec
  split_ifs with hcursor
  · exact .inl ⟨_, _, rfl⟩
  split
  · exact .inl ⟨_, _, rfl⟩
  rename_i page hasMore hpage
  push Not at hbad hcursor
  refine .inr ⟨_, _, decoded, page, rfl, {
    validated := hdec
    database := rfl
    accepted := rfl
    rejected := rfl
    page_initial := (cutPage_initial _ _ _ _ _ hpage).trans ( take_prefix _ _)
    envelopes := rfl
    next := rfl
    cursor_nonneg := hbad.1
    cursor_le := hcursor.1 }⟩

theorem mem_groupBatch (first e : DecodedEnvelope) (conflict : Bool) {l : List DecodedEnvelope}
    (h : e ∈ (groupBatch first conflict l).unique) : e = first ∨ e ∈ l := by
  have hclose (b : Batch) (f : DecodedEnvelope) (x : Bool) (he : e ∈ (b.close f x).unique) :
      e = f ∨ e ∈ b.unique := by
    cases x
    · exact mem_cons.mp he
    · exact .inr he
  induction l generalizing first conflict with
  | nil =>
    rcases hclose _ _ _ h with he | he
    · exact .inl he
    · simp at he
  | cons a rest ih =>
    simp only [groupBatch] at h
    split_ifs at h with hseq
    · rcases ih _ _ h with he | he
      · exact .inl he
      · exact .inr (mem_cons_of_mem a he)
    · rcases hclose _ _ _ h with he | he
      · exact .inl he
      · rcases ih _ _ he with he | he
        · exact .inr (he ▸ mem_cons_self)
        · exact .inr (mem_cons_of_mem a he)

theorem mem_validateBatch {wires : List WireEnvelope} (decoded : List DecodedEnvelope)
    (h : validateBatch c identity wires = .ok decoded) (e : DecodedEnvelope) (he : e ∈ decoded) :
    ∃ wire ∈ wires, validateEnvelope c identity wire = .ok e := by
  induction wires generalizing decoded with
  | nil =>
    cases h
    simp at he
  | cons wire rest ih =>
    simp only [validateBatch] at h
    split at h
    · simp at h
    rename_i d hd
    split at h
    · simp at h
    rename_i more hmore
    cases h
    rcases mem_cons.mp he with rfl | he
    · exact ⟨wire, mem_cons_self, hd⟩
    · obtain ⟨w, hw, hv⟩ := ih more hmore he
      exact ⟨w, mem_cons_of_mem wire hw, hv⟩

theorem mem_batch {wires : List WireEnvelope} {decoded : List DecodedEnvelope}
    (h : validateBatch c identity wires = .ok decoded) {e : DecodedEnvelope}
    (he : e ∈ (splitBatch (sortBatch decoded)).unique) :
    ∃ wire ∈ wires, validateEnvelope c identity wire = .ok e := by
  apply mem_validateBatch c decoded h
  have hsorted : e ∈ sortBatch decoded := by
    cases hs : sortBatch decoded with
    | nil =>
      rw [hs] at he
      simp [splitBatch] at he
    | cons first rest =>
      rw [hs] at he
      exact mem_cons.mpr (mem_groupBatch first e false he)
  exact (mem_insertionSort _).mp hsorted

/-- What the insertion of a validated envelope and the acknowledgement preserve,
the handler preserves. -/
theorem syncEnvelopes_induction (c : Crypto) (identity : DeviceIdentity) (input : SyncRequest)
    (P : RelayDB → Prop) {db : RelayDB} (h : P db)
    (hins : ∀ db e, (∃ wire ∈ input.envelopes, validateEnvelope c identity wire = .ok e) → P db →
      e.wire.deviceSeq = (lastRecord (db.chain identity.accountID identity.id)).1+1 →
      e.previousHash = (lastRecord (db.chain identity.accountID identity.id)).2 →
      P (db.insertEnvelope identity e))
    (hack : ∀ db cursor, P db → P (db.acknowledge identity cursor)) :
    P (syncEnvelopes c identity input db).2 := by
  rcases syncEnvelopes_cases c identity input db with
    ⟨_, _, he⟩ | ⟨response, db', decoded, page, he, hserved⟩
  · rw [he]
    exact h
  · rw [he, hserved.database]
    apply hack
    apply uploadBatch_induction identity P h
    intro db e hmem
    exact hins db e (mem_batch c hserved.validated hmem)

/-- What the relay has checked of an upload it accepts, with the header it has
rebuilt and verified. -/
structure Validated (c : Crypto) (identity : DeviceIdentity) (wire : WireEnvelope)
    (e : DecodedEnvelope) (header : Bytes) : Prop where
  sent : e.wire = wire
  version : wire.version = protocolVersion
  deviceSeq : 1 ≤ wire.deviceSeq ∧ wire.deviceSeq ≤ maxInt64
  keyEpoch : 1 ≤ wire.keyEpoch ∧ wire.keyEpoch ≤ maxInt64
  objectID : decodeID wire.objectID = some e.objectID
  previousHash : relayPreviousHash wire.previousHash = some e.previousHash
  nonce : decodeSized wire.nonce 24 24 = some e.nonce
  ciphertext : decodeSized wire.ciphertext (paddingBucket+16) maxCiphertext = some e.ciphertext
  padding : (e.ciphertext.length-16)%paddingBucket = 0
  signature : decodeSized wire.signature 64 64 = some e.signature
  rebuilt : relayHeader c identity.accountID identity.id wire e.previousHash e.nonce = some header
  verified : c.edVerify identity.ed25519Key (header ++ e.ciphertext) e.signature = true
  recordHash : e.recordHash = c.sha256 (header ++ e.ciphertext ++ e.signature)

theorem validateEnvelope_ok {wire : WireEnvelope} {e : DecodedEnvelope}
    (h : validateEnvelope c identity wire = .ok e) :
    ∃ header, Validated c identity wire e header := by
  unfold validateEnvelope at h
  split_ifs at h with hmeta
  split at h
  · simp at h
  rename_i objectID hobject
  split at h
  · simp at h
  rename_i previousHash hprevious
  split at h
  · simp at h
  rename_i nonce hnonce
  split at h
  · simp at h
  rename_i ciphertext hciphertext
  split_ifs at h with hpad
  split at h
  · simp at h
  rename_i signature hsignature
  split at h
  · simp at h
  rename_i header hheader
  split_ifs at h with hverify
  cases h
  push Not at hmeta
  obtain ⟨_, _, hversion, hseqlo, hseqhi, hepochlo, hepochhi⟩ := hmeta
  exact ⟨header, {
    sent := rfl
    version := hversion
    deviceSeq := ⟨hseqlo, hseqhi⟩
    keyEpoch := ⟨hepochlo, hepochhi⟩
    objectID := hobject
    previousHash := hprevious
    nonce := hnonce
    ciphertext := hciphertext
    padding := not_not.mp hpad
    signature := hsignature
    rebuilt := hheader
    verified := by simpa using hverify
    recordHash := rfl }⟩

theorem decodeSized_length {value decoded : Bytes} {lo hi : ℕ}
    (h : decodeSized value lo hi = some decoded) : lo ≤ decoded.length ∧ decoded.length ≤ hi := by
  unfold decodeSized at h
  split at h
  · simp at h
  split_ifs at h with hbad
  cases h
  omega

theorem decodeID_hexEncode {b : Bytes} (h : b.length = 16) : decodeID (hexEncode b) = some b := by
  simp only [decodeID, hexDecode_hexEncode, h, if_true]

theorem decodeSized_base64Encode (b : Bytes) (lo hi : ℕ) (hlo : lo ≤ b.length)
    (hhi : b.length ≤ hi) : decodeSized (base64Encode b) lo hi = some b := by
  have hbad : ¬(b.length < lo ∨ b.length > hi) := by omega
  simp only [decodeSized, base64Decode_base64Encode, hbad, if_false]

theorem relayPreviousHash_wirePreviousHash {hash : Bytes} (h : hash.length = 0 ∨ hash.length = 32) :
    relayPreviousHash (wirePreviousHash hash) = some hash := by
  unfold relayPreviousHash wirePreviousHash
  by_cases hz : hash = []
  · simp [hz]
  · have hne : base64Encode hash ≠ [] := fun he => hz ((base64Encode_eq_nil hash).mp he)
    have hlen : hash.length = 32 := h.resolve_left (fun h0 => hz (length_eq_zero_iff.mp h0))
    simp [hz, hne, decodeSized_base64Encode hash 32 32 hlen.ge hlen.le]

/-- What the relay makes of an envelope that the client has sealed in the name of
the authenticated device: it rebuilds the same header and checks its signature. -/
theorem validateEnvelope_wireFields (c : Crypto) (identity : DeviceIdentity) {e : Envelope}
    (hv : validateHeader e.header = .ok ())
    (hb : validateEnvelopeBody e.ciphertext e.signature = .ok ())
    (hacc : identity.accountID = hexEncode e.header.accountID)
    (hdev : identity.id = hexEncode e.header.deviceID) :
    validateEnvelope c identity (e.wireFields [] 0) =
      if ¬c.edVerify identity.ed25519Key (c.canonicalHeader e.header ++ e.ciphertext) e.signature then
        .error "invalid_envelope_signature"
      else .ok {
        wire := e.wireFields [] 0
        objectID := e.header.objectID
        previousHash := e.header.previousHash
        nonce := e.header.nonce
        ciphertext := e.ciphertext
        signature := e.signature
        recordHash := c.sha256 (c.canonicalHeader e.header ++ e.ciphertext ++ e.signature) } := by
  obtain ⟨hver, ⟨hacc16, hobj16, hdev16⟩, hepoch, hseq, hprev, hnonce⟩ :=
    (validateHeader_ok_iff e.header).mp hv
  obtain ⟨hsig, hlo, hhi, hmod⟩ := (validateEnvelopeBody_ok_iff).mp hb
  have hmeta : ¬((e.wireFields [] 0).deviceID ≠ [] ∨ (e.wireFields [] 0).cursor ≠ 0 ∨
      (e.wireFields [] 0).version ≠ protocolVersion ∨ (e.wireFields [] 0).deviceSeq < 1 ∨
      (e.wireFields [] 0).deviceSeq > maxInt64 ∨ (e.wireFields [] 0).keyEpoch < 1 ∨
      (e.wireFields [] 0).keyEpoch > maxInt64) := by
    simp only [Envelope.wireFields, ne_eq, not_true_eq_false, false_or]
    omega
  have hobj : decodeID (e.wireFields [] 0).objectID = some e.header.objectID :=
    decodeID_hexEncode hobj16
  have hheader : relayHeader c identity.accountID identity.id (e.wireFields [] 0)
      e.header.previousHash e.header.nonce = some (c.canonicalHeader e.header) := by
    have hp : ¬(e.header.previousHash.length ≠ 0 ∧ e.header.previousHash.length ≠ 32) := by omega
    unfold relayHeader
    rw [hacc, hdev, decodeID_hexEncode hacc16, decodeID_hexEncode hdev16, hobj]
    simp only [hp, hnonce, if_false, ne_eq, not_true_eq_false, Envelope.wireFields]
  -- Every check before the signature passes on the encoded fields.
  unfold validateEnvelope
  rw [if_neg hmeta, hobj]
  simp only [show (e.wireFields [] 0).previousHash = wirePreviousHash e.header.previousHash from rfl,
    show (e.wireFields [] 0).nonce = base64Encode e.header.nonce from rfl,
    show (e.wireFields [] 0).ciphertext = base64Encode e.ciphertext from rfl,
    show (e.wireFields [] 0).signature = base64Encode e.signature from rfl,
    relayPreviousHash_wirePreviousHash hprev,
    decodeSized_base64Encode _ 24 24 hnonce.ge hnonce.le,
    decodeSized_base64Encode _ (paddingBucket+16) maxCiphertext hlo hhi,
    decodeSized_base64Encode _ 64 64 hsig.ge hsig.le, hmod, hheader, ne_eq, not_true_eq_false,
    if_false]

end YunPin
