import YunPin.RelayTables
import YunPin.StoreSyncState

/-! The background sync worker: the pure parts of `SyncOnce` between its calls to
the store and to the relay. -/
namespace YunPin
open ByteText List

structure Session where
  accountID : Bytes
  deviceID : Bytes
  deviceToken : Bytes
  keyEpoch : ℕ
  epochKeys : SortedMap ℕ Bytes
  signingPrivate : Bytes
  verificationKeys : SortedMap Bytes Bytes
deriving DecidableEq

def Session.epochKey (session : Session) (epoch : ℕ) : Bytes :=
  (session.epochKeys.find? epoch).getD []

def Session.verificationKey (session : Session) (deviceID : Bytes) : Bytes :=
  (session.verificationKeys.find? deviceID).getD []

def Session.validate (c : Crypto) (session : Session) : Except String Unit :=
  if session.accountID.length ≠ 16 ∨ session.deviceID.length ≠ 16 ∨ session.deviceToken = [] ∨
      session.keyEpoch < 1 ∨ session.keyEpoch > maxInt64 ∨ session.signingPrivate.length ≠ 64 then
    .error "invalid sync session"
  else if (session.epochKey session.keyEpoch).length ≠ 32 then
    .error "current epoch key is unavailable"
  else if (session.verificationKey (hexEncode session.deviceID)).length ≠ 32 ∨
      c.edPublic session.signingPrivate ≠ session.verificationKey (hexEncode session.deviceID) then
    .error "current device verification key is unavailable"
  else if ¬session.verificationKeys.entries.all (fun e =>
      (decodeLowerHex 16 e.1).isSome ∧ e.2.length = 32) then
    .error "invalid trusted device verification key"
  else .ok ()

def Session.options (session : Session) (state : SyncState) (random : RandomSource) :
    EnvelopeOptions where
  accountID := session.accountID
  deviceID := session.deviceID
  keyEpoch := session.keyEpoch
  deviceSeq := state.nextDeviceSequence
  previousHash := state.previousHash
  epochKey := session.epochKey session.keyEpoch
  signingPrivate := session.signingPrivate
  random := random

/-- The part of `prepare` between `PendingEvents` and `SavePreparedUpload`. -/
def sealUpload (x : Externals) (session : Session) (state : SyncState) (event : PendingEvent)
    (random : RandomSource) : Except String PreparedUpload :=
  match event.sealEnvelope x (session.options state random) with
  | .error e => .error e
  | .ok envelope =>
    match envelope.toWire with
    | .error e => .error e
    | .ok wire =>
      match envelopeHash x.crypto envelope with
      | .error e => .error e
      | .ok hash => .ok ⟨event.id, event.version, state.nextDeviceSequence, wire, hash⟩

def syncRequest (state : SyncState) : Except String SyncRequest :=
  match state.prepared with
  | none => .ok ⟨state.cursor, state.cursor, 256, []⟩
  | some upload =>
    if upload.wire.deviceSeq ≠ upload.deviceSequence ∨ upload.wire.deviceID ≠ [] ∨
        upload.wire.cursor ≠ 0 then
      .error "prepared upload metadata does not match checkpoint"
    else .ok ⟨state.cursor, state.cursor, 256, [upload.wire]⟩

def Session.authorization (session : Session) : Bytes := lit "Bearer " ++ session.deviceToken

def clientRequest (session : Session) (request : SyncRequest) : Except String Unit :=
  if session.deviceToken = [] ∨ request.cursor < 0 ∨ request.ackCursor < 0 ∨
      request.ackCursor > request.cursor ∨ request.limit < 0 ∨ request.limit > 256 ∨
      request.envelopes.length > 256 then
    .error "invalid sync request"
  else if session.deviceToken.any (fun b => b = 0x0D ∨ b = 0x0A) then .error "invalid device token"
  else .ok ()

def clientResponse (cursor : ℤ) (reply : Reply) : Except String SyncResponse :=
  if reply.status ≠ 200 then
    let code := match reply.body with
      | .error code => code
      | _ => "unexpected_status"
    .error ("sync relay returned HTTP " ++ toString reply.status ++ " (" ++ code ++ ")")
  else
    match reply.body with
    | .sync response =>
      if response.nextCursor < cursor ∨ response.envelopes.length > 256 then
        .error "sync relay returned an invalid cursor or page"
      else .ok response
    | _ => .error "sync relay returned invalid JSON"

/-- The loop over the rejections: at most one, for the staged upload, with a known
code. -/
def seenRejected (sequence : ℕ) : List SyncRejection → Bool → Except String Bool
  | [], seen => .ok seen
  | r :: rest, seen =>
    if r.deviceSequence ≠ sequence ∨ seen ∨ (r.code ≠ "sequence_conflict" ∧
        r.code ≠ "sequence_gap" ∧ r.code ≠ "previous_hash_mismatch") then
      .error "sync relay returned an unexpected upload rejection"
    else seenRejected sequence rest true

def seenAccepted (sequence : ℕ) : List ℕ → Bool → Except String Bool
  | [], seen => .ok seen
  | s :: rest, seen =>
    if s ≠ sequence ∨ seen then .error "sync relay returned an unexpected upload acknowledgement"
    else seenAccepted sequence rest true

/-- The verdict on the upload: an error unless it was accepted, and accepted only. -/
def checkUpload (prepared : Option PreparedUpload) (response : SyncResponse) : Except String Unit :=
  match prepared with
  | none =>
    if response.acceptedSequences ≠ [] ∨ response.rejectedSequences ≠ [] then
      .error "sync relay reported results for an empty upload"
    else .ok ()
  | some upload =>
    match seenRejected upload.deviceSequence response.rejectedSequences false with
    | .error e => .error e
    | .ok rejected =>
      match seenAccepted upload.deviceSequence response.acceptedSequences false with
      | .error e => .error e
      | .ok accepted =>
        if rejected ∧ accepted then .error "sync relay both accepted and rejected one upload"
        else if rejected then
          .error ("prepared upload rejected: " ++
            ((response.rejectedSequences.head?.map (·.code)).getD ""))
        else if ¬accepted then .error "sync relay did not acknowledge the prepared upload"
        else .ok ()

def decodeDownload (x : Externals) (session : Session) (wire : WireEnvelope) :
    Except String PhrasePayload :=
  match envelopeFromDownload session.accountID wire with
  | .error e => .error e
  | .ok envelope =>
    if (session.verificationKey wire.deviceID).length ≠ 32 then
      .error ("no trusted verification key for device " ++ asciiText wire.deviceID)
    else if (session.epochKey wire.keyEpoch).length ≠ 32 then
      .error ("no local key for epoch " ++ toString wire.keyEpoch)
    else protocolOpen x.crypto x.cbor (session.epochKey wire.keyEpoch) envelope
      (session.verificationKey wire.deviceID)

/-- The loop over a page, from the last cursor seen; it returns the cursor it ends
with. -/
def decodePage (x : Externals) (session : Session) (next : ℤ) :
    ℤ → List WireEnvelope → Except String (ℤ × List PhrasePayload)
  | last, [] => .ok (last, [])
  | last, wire :: rest =>
    if wire.cursor > maxInt64 ∨ wire.cursor ≤ last ∨ wire.cursor > next then
      .error "sync relay returned out-of-order download cursors"
    else
      match decodeDownload x session wire with
      | .error e => .error e
      | .ok payload =>
        match decodePage x session next wire.cursor rest with
        | .error e => .error e
        | .ok (last, payloads) => .ok (last, payload :: payloads)

def decodeDownloads (x : Externals) (session : Session) (response : SyncResponse) (cursor : ℤ) :
    Except String (List PhrasePayload) :=
  match decodePage x session response.nextCursor cursor response.envelopes with
  | .error e => .error e
  | .ok (last, payloads) =>
    if response.envelopes.length = 0 ∧ response.nextCursor ≠ cursor then
      .error "sync relay advanced cursor without a downloaded envelope"
    else if response.envelopes.length > 0 ∧ last ≠ response.nextCursor then
      .error "sync relay next cursor does not match the downloaded page"
    else .ok payloads

theorem Session.validate_ok {c : Crypto} (session : Session) (h : session.validate c = .ok ()) :
    (session.epochKey session.keyEpoch).length = 32 ∧
      session.verificationKey (hexEncode session.deviceID) = c.edPublic session.signingPrivate ∧
      (session.verificationKey (hexEncode session.deviceID)).length = 32 := by
  unfold Session.validate at h
  split_ifs at h with _ hepoch hself
  push Not at hepoch hself
  exact ⟨hepoch, hself.2.symm, hself.1⟩

variable {x : Externals} {session : Session} {response : SyncResponse} {cursor : ℤ}
  {payloads : List PhrasePayload}

theorem sealUpload_ok {state : SyncState} {event : PendingEvent} {random : RandomSource}
    {upload : PreparedUpload} (h : sealUpload x session state event random = .ok upload) :
    ∃ envelope, event.sealEnvelope x (session.options state random) = .ok envelope ∧
      envelope.toWire = .ok upload.wire ∧ envelopeHash x.crypto envelope = .ok upload.envelopeHash ∧
      upload.eventID = event.id ∧ upload.eventVersion = event.version ∧
      upload.deviceSequence = state.nextDeviceSequence := by
  unfold sealUpload at h
  split at h
  · simp at h
  rename_i envelope henv
  split at h
  · simp at h
  rename_i wire hwire
  split at h
  · simp at h
  rename_i hash hhash
  cases h
  exact ⟨envelope, henv, hwire, hhash, rfl, rfl, rfl⟩

theorem syncRequest_ok {state : SyncState} {request : SyncRequest}
    (h : syncRequest state = .ok request) :
    request.cursor = state.cursor ∧ request.envelopes = state.prepared.toList.map (·.wire) := by
  unfold syncRequest at h
  split at h
  · rename_i hp
    cases h
    exact ⟨rfl, by simp [hp]⟩
  · rename_i upload hp
    split_ifs at h
    cases h
    exact ⟨rfl, by simp [hp]⟩

theorem clientResponse_ok {reply : Reply} (h : clientResponse cursor reply = .ok response) :
    reply.status = 200 ∧ reply.body = .sync response := by
  unfold clientResponse at h
  split_ifs at h with hs
  split at h
  · rename_i r hbody
    split_ifs at h
    cases h
    exact ⟨not_not.mp hs, hbody⟩
  · simp at h

theorem seenAccepted_mem {sequence : ℕ} {l : List ℕ} (seen : Bool)
    (h : seenAccepted sequence l seen = .ok true) : seen = true ∨ sequence ∈ l := by
  induction l generalizing seen with
  | nil => exact .inl (Except.ok.inj h)
  | cons s rest ih =>
    simp only [seenAccepted] at h
    split_ifs at h with hbad
    push Not at hbad
    exact .inr (by simp [hbad.1])

theorem checkUpload_accepted {upload : PreparedUpload}
    (h : checkUpload (some upload) response = .ok ()) :
    upload.deviceSequence ∈ response.acceptedSequences := by
  unfold checkUpload at h
  simp only at h
  split at h
  · simp at h
  split at h
  · simp at h
  rename_i accepted hacc
  split_ifs at h with _ _ hok
  have ht : accepted = true := by simpa using hok
  rcases seenAccepted_mem _ (ht ▸ hacc) with h | h
  · simp at h
  · exact h

/-- The payloads of a page are those of its envelopes, one by one. -/
theorem decodePage_map (next last last' : ℤ) {wires : List WireEnvelope}
    (payloads : List PhrasePayload)
    (h : decodePage x session next last wires = .ok (last', payloads)) :
    wires.map (decodeDownload x session) = payloads.map .ok := by
  induction wires generalizing last last' payloads with
  | nil =>
    obtain ⟨_, rfl⟩ := Prod.mk.inj (Except.ok.inj h)
    rfl
  | cons w rest ih =>
    simp only [decodePage] at h
    split_ifs at h
    split at h
    · simp at h
    rename_i payload hp
    split at h
    · simp at h
    rename_i l more hrest
    obtain ⟨_, rfl⟩ := Prod.mk.inj (Except.ok.inj h)
    rw [map_cons, map_cons, hp, ih _ _ _ hrest]

theorem decodeDownloads_map (h : decodeDownloads x session response cursor = .ok payloads) :
    response.envelopes.map (decodeDownload x session) = payloads.map .ok := by
  unfold decodeDownloads at h
  split at h
  · simp at h
  rename_i last ps hpage
  split_ifs at h
  cases h
  exact decodePage_map _ cursor last _ hpage

variable {wire : WireEnvelope} {p : PhrasePayload}

theorem decodeDownloads_mem (h : decodeDownloads x session response cursor = .ok payloads)
    (hw : wire ∈ response.envelopes) : ∃ p ∈ payloads, decodeDownload x session wire = .ok p := by
  have hmem := mem_map_of_mem (f := decodeDownload x session) hw
  rw [decodeDownloads_map h] at hmem
  obtain ⟨p, hp, hd⟩ := mem_map.mp hmem
  exact ⟨p, hp, hd.symm⟩

theorem mem_decodeDownloads (h : decodeDownloads x session response cursor = .ok payloads)
    (hp : p ∈ payloads) : ∃ wire ∈ response.envelopes, decodeDownload x session wire = .ok p := by
  have hmem : .ok p ∈ response.envelopes.map (decodeDownload x session) := by
    rw [decodeDownloads_map h]
    exact mem_map_of_mem hp
  exact mem_map.mp hmem

theorem decodeDownload_validText (hx : x.Laws) (h : decodeDownload x session wire = .ok p) :
    p.validText = true := by
  unfold decodeDownload at h
  split at h
  · simp at h
  split_ifs at h
  obtain ⟨bytes, hb⟩ := protocolOpen_unmarshal h
  exact hx.cbor.unmarshal_valid bytes p hb

end YunPin
