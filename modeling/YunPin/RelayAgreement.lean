import YunPin.RelayPairing
import YunPin.RelayPaging

/-! The relay and the client read envelopes with separate decoders. What the client
sends in its own name the relay accepts under the same hash, and what the relay has
accepted, however it was spelled, the client reads back as what was verified. -/
namespace YunPin
open ByteText List Option

def IsID (value : Bytes) : Prop := ∃ raw : Bytes, raw.length = 16 ∧ value = hexEncode raw

theorem isID_randomID {moment : Moment} {offset : ℕ} : IsID (randomID moment offset) :=
  ⟨moment.random.read offset 16, RandomSource.read_length _, rfl⟩

/-- Every device that has or will have a row has an identifier of the relay. -/
structure DeviceIDs (s : Relay) : Prop where
  devices : ∀ d ∈ s.db.devices, IsID d.id
  pairings : ∀ p ∈ s.db.pairings, p.state = .approved → IsID p.newDeviceID
  flights : ∀ f ∈ s.flights, IsID f.identity.id

theorem DeviceIDs.empty : DeviceIDs .empty :=
  ⟨by simp [Relay.empty, RelayDB.empty], by simp [Relay.empty, RelayDB.empty],
    by simp [Relay.empty]⟩

/-- A device that a request without authentication adds has a new identifier or the
one of an approved pairing. -/
theorem OpenOp.exec_ids {c : Crypto} (op : OpenOp) {moment : Moment} {db : RelayDB} {d : DeviceRow}
    (h : d ∈ (op.exec c moment db).2.devices) :
    d ∈ db.devices ∨ IsID d.id ∨ ∃ p ∈ db.pairings, p.state = .approved ∧ d.id = p.newDeviceID := by
  rcases op.exec_cases c moment db with he | ⟨_, row, _, _, _, ⟨offset, hid⟩, he⟩ |
    ⟨_, _, p, token, _, hp, _, hst, _, he⟩ | ⟨_, _, _, _, _, he⟩
  · exact .inl (he ▸ h)
  · rw [he] at h
    rcases mem_append.mp h with h | h
    · exact .inl h
    · rw [mem_singleton.mp h, hid]
      exact .inr (.inl (isID_randomID))
  · rw [he] at h
    rcases mem_append.mp h with h | h
    · exact .inl h
    · rw [mem_singleton.mp h]
      exact .inr (.inr ⟨p, hp, hst, rfl⟩)
  · rw [he] at h
    exact .inl h

theorem DeviceIDs.step (c : Crypto) (s : Relay) (a : RelayAction) (s' : Relay) (hs : DeviceIDs s)
    (h : s.step c a = some s') : DeviceIDs s' := by
  rcases Relay.step_cases h with ⟨header, op, call, _, hdb, hfl⟩ |
    ⟨i, moment, f, _, hf, hdb, hfl⟩ | ⟨op, moment, _, hdb, hfl⟩
  · refine ⟨hdb ▸ hs.devices, hdb ▸ hs.pairings, ?_⟩
    rcases hfl with hfl | ⟨identity, hauth, hfl⟩
    · exact hfl ▸ hs.flights
    · -- An authenticated request carries the identifier of a device row.
      obtain ⟨_, _, row, hrow, _, _, rfl⟩ := authenticate_ok hauth
      rw [hfl]
      intro g hg
      rcases mem_append.mp hg with hg | hg
      · exact hs.flights g hg
      · rw [mem_singleton.mp hg]
        exact hs.devices row hrow
  · refine ⟨?_, ?_, ?_⟩
    · obtain ⟨g, hg, hfixed⟩ := f.op.exec_devices c f.identity moment s.db
      rw [hdb, hg]
      intro d hd
      obtain ⟨r, hr, rfl⟩ := mem_map.mp hd
      -- An authenticated request rewrites rows but never an id.
      have hid := congrArg DeviceRow.id (hfixed r).1
      exact (show (g r).id = r.id from hid) ▸ hs.devices r hr
    · rw [hdb]
      intro p hp hst
      rcases f.op.exec_pairings c f.identity moment s.db with hsame |
        ⟨row, _, _, _, _, _, _, hrow, he⟩ | ⟨_, _, where_, _, _, _, he⟩
      · exact hs.pairings p (hsame ▸ hp) hst
      · rw [he] at hp
        rcases mem_append.mp hp with hp | hp
        · exact hs.pairings p hp hst
        · rw [mem_singleton.mp hp, hrow] at hst
          simp at hst
      · rw [he] at hp
        rcases mem_updatePairings _ _ _ hp with hp | ⟨q, _, _, rfl⟩
        · exact hs.pairings p hp hst
        · exact isID_randomID
    · intro g hg
      exact hs.flights g (mem_of_mem_eraseIdx (hfl ▸ hg))
  · refine ⟨?_, ?_, hfl ▸ hs.flights⟩
    · rw [hdb]
      intro d hd
      rcases op.exec_ids hd with hd | hid | ⟨p, hp, hst, hid⟩
      · exact hs.devices d hd
      · exact hid
      · exact hid ▸ hs.pairings p hp hst
    · rw [hdb]
      intro p hp hst
      exact hs.pairings p (serve_approved c hp hst) hst

/-- The header of the envelope carries the account and the device of the identity. -/
def Envelope.Names (e : Envelope) (identity : DeviceIdentity) : Prop :=
  identity.accountID = hexEncode e.header.accountID ∧ identity.id = hexEncode e.header.deviceID

theorem validateEnvelope_toWire (c : Crypto) (identity : DeviceIdentity) (e : Envelope)
    (wire : WireEnvelope) (hwire : e.toWire = .ok wire) (hnames : e.Names identity)
    (hsig : c.edVerify identity.ed25519Key (c.canonicalHeader e.header ++ e.ciphertext)
      e.signature = true) :
    ∃ decoded, validateEnvelope c identity wire = .ok decoded ∧
      envelopeHash c e = .ok decoded.recordHash := by
  obtain ⟨hv, hb, _⟩ := (toWire_ok_iff e wire).mp hwire
  rw [toWire_eq_wireFields hwire,
    validateEnvelope_wireFields c identity hv hb hnames.1 hnames.2, if_neg (by simp [hsig])]
  refine ⟨_, rfl, ?_⟩
  simp only [envelopeHash, hv, hb]

def DecodedEnvelope.envelope (e : DecodedEnvelope) (account device : Bytes) : Envelope where
  header := {
    version := e.wire.version
    accountID := account
    objectID := e.objectID
    keyEpoch := e.wire.keyEpoch
    deviceID := device
    deviceSeq := e.wire.deviceSeq
    previousHash := e.previousHash
    nonce := e.nonce }
  ciphertext := e.ciphertext
  signature := e.signature

variable {decoded : Bytes}

theorem decodeID_length {value : Bytes} (h : decodeID value = some decoded) :
    decoded.length = 16 := by
  unfold decodeID at h
  split at h
  · simp at h
  split_ifs at h with hlen
  cases h
  exact hlen

theorem decodeID_isID {account : Bytes} (h : decodeID (hexEncode account) = some decoded) :
    account.length = 16 ∧ decoded = account := by
  unfold decodeID at h
  rw [hexDecode_hexEncode] at h
  simp only at h
  split_ifs at h with hlen
  exact ⟨hlen, (some.inj h).symm⟩

theorem relayPreviousHash_length {value : Bytes} (h : relayPreviousHash value = some decoded) :
    decoded.length = 0 ∨ decoded.length = 32 := by
  unfold relayPreviousHash at h
  split_ifs at h with hempty
  · have hlen := decodeSized_length h
    omega
  · cases h
    exact .inl rfl

variable {c : Crypto} {identity : DeviceIdentity} {wire : WireEnvelope} {e : DecodedEnvelope}
  {header account device : Bytes}

/-- The header bytes the relay has verified are those of the rebuilt envelope, which
passes the client's checks. -/
theorem Validated.envelope (h : Validated c identity wire e header)
    (hacc : identity.accountID = hexEncode account) (hdev : identity.id = hexEncode device) :
    c.canonicalHeader (e.envelope account device).header = header ∧
      validateHeader (e.envelope account device).header = .ok () ∧
      validateEnvelopeBody e.ciphertext e.signature = .ok () := by
  have hrebuilt := h.rebuilt
  unfold relayHeader at hrebuilt
  rw [hacc, hdev, h.objectID] at hrebuilt
  split at hrebuilt
  · simp at hrebuilt
  rename_i account' haccount
  obtain ⟨hacc16, rfl⟩ := decodeID_isID haccount
  simp only at hrebuilt
  split at hrebuilt
  · simp at hrebuilt
  rename_i device' hdevice
  obtain ⟨hdev16, rfl⟩ := decodeID_isID hdevice
  split_ifs at hrebuilt with hprev hnonce
  have hnonce24 := decodeSized_length h.nonce
  have hsig64 := decodeSized_length h.signature
  have hsize := decodeSized_length h.ciphertext
  refine ⟨?_, ?_, ?_⟩
  · rw [← some.inj hrebuilt, ← h.sent]
    rfl
  · rw [validateHeader_ok_iff]
    have hseq := h.deviceSeq
    have hepoch := h.keyEpoch
    have hversion := h.version
    rw [← h.sent] at hseq hepoch hversion
    refine ⟨hversion, ⟨hacc16, decodeID_length h.objectID, hdev16⟩, hepoch, hseq,
      relayPreviousHash_length h.previousHash, ?_⟩
    exact le_antisymm hnonce24.2 hnonce24.1
  · rw [validateEnvelopeBody_ok_iff]
    exact ⟨le_antisymm hsig64.2 hsig64.1, hsize.1, hsize.2, h.padding⟩

theorem Validated.download (h : Validated c identity wire e header)
    (hacc : identity.accountID = hexEncode account) (hdev : identity.id = hexEncode device)
    (cursor : ℤ) : envelopeFromDownload account (e.row identity cursor).outgoing =
      .ok (e.envelope account device) := by
  obtain ⟨_, hv, hb⟩ := h.envelope hacc hdev
  have hout : (e.row identity cursor).outgoing =
      (e.envelope account device).wireFields (hexEncode device) cursor := by
    rw [← hdev]
    rfl
  rw [hout]
  exact envelopeFromDownload_wireFields hv hb

theorem served_row {input : SyncRequest} {db : RelayDB} (h : db.CursorsOrdered) {row : EnvelopeRow}
    (hrow : row ∈ db.envelopes) {response : SyncResponse}
    (hbody : (syncEnvelopes c identity input db).1.body = .sync response)
    (hwire : wire ∈ response.envelopes) (hcursor : wire.cursor = row.cursor) :
    wire = row.outgoing := by
  have hord := syncEnvelopes_ordered c identity input h
  have hsub := (syncEnvelopes_appends c identity input db).envelopes.subset hrow
  rcases syncEnvelopes_cases c identity input db with ⟨_, _, he⟩ | ⟨resp, db', _, page, he, hs⟩
  · rw [he] at hbody
    simp [writeError] at hbody
  rw [he] at hbody hord hsub
  obtain rfl : resp = response := by simpa using hbody
  rw [hs.envelopes] at hwire
  obtain ⟨other, hother, rfl⟩ := mem_map.mp hwire
  have hmem : other ∈ db'.envelopes := (mem_filter.mp (hs.page_initial.subset hother)).1
  -- Two rows with one cursor are the same row.
  have hnodup : (db'.envelopes.map (·.cursor)).Nodup :=
    (pairwise_map.mpr hord.sorted).imp (fun hlt => ne_of_lt hlt)
  rw [inj_on_of_nodup_map hnodup hmem hsub hcursor]

structure RelayClientAgreement (c : Crypto) (s : Relay) : Prop where
  /-- What the client sends in the name of the authenticated device is accepted,
  under the client's own hash. -/
  accepted : ∀ identity e wire, Envelope.toWire e = .ok wire → e.Names identity →
    c.edVerify identity.ed25519Key (c.canonicalHeader e.header ++ e.ciphertext) e.signature = true →
    ∃ decoded, validateEnvelope c identity wire = .ok decoded ∧
      envelopeHash c e = .ok decoded.recordHash
  /-- What a request has stored of its envelopes the client reads, in any later
  download, as the header, ciphertext and signature that were verified. -/
  returned : ∀ i moment f input s', s.flights[i]? = some f → f.op = .sync input →
    s.step c (.run i moment) = some s' →
    ∀ upload ∈ input.envelopes, ∀ e, validateEnvelope c f.identity upload = .ok e →
    ∀ row ∈ s'.db.envelopes, row = e.row f.identity row.cursor →
    ∀ actions t, Runs.run (Relay.step c) s' actions = some t →
    ∀ identity request response, (syncEnvelopes c identity request t.db).1.body = .sync response →
    ∀ wire ∈ response.envelopes, wire.cursor = row.cursor →
    ∀ account, f.identity.accountID = hexEncode account →
    ∃ header envelope,
      relayHeader c f.identity.accountID f.identity.id upload e.previousHash e.nonce = some header ∧
      c.edVerify f.identity.ed25519Key (header ++ e.ciphertext) e.signature = true ∧
      envelopeFromDownload account wire = .ok envelope ∧
      c.canonicalHeader envelope.header = header ∧ envelope.ciphertext = e.ciphertext ∧
      envelope.signature = e.signature ∧
      ∀ sent, Envelope.toWire sent = .ok upload → sent.Names f.identity → envelope = sent

theorem envelope_of_toWire {sent : Envelope} {upload : WireEnvelope}
    (hwire : sent.toWire = .ok upload) (hnames : sent.Names identity)
    (h : validateEnvelope c identity upload = .ok e) (hacc : identity.accountID = hexEncode account)
    (hdev : identity.id = hexEncode device) : e.envelope account device = sent := by
  obtain ⟨hv, hb, _⟩ := (toWire_ok_iff sent upload).mp hwire
  rw [toWire_eq_wireFields hwire,
    validateEnvelope_wireFields c identity hv hb hnames.1 hnames.2] at h
  split_ifs at h
  cases h
  obtain rfl := hexEncode_injective (hacc.symm.trans hnames.1)
  obtain rfl := hexEncode_injective (hdev.symm.trans hnames.2)
  rfl

theorem relay_client_agreement (c : Crypto) (before : List RelayAction) (s : Relay)
    (hs : Runs.run (Relay.step c) .empty before = some s) : RelayClientAgreement c s := by
  refine ⟨fun identity e wire => validateEnvelope_toWire c identity e wire, ?_⟩
  have hids : DeviceIDs s := Runs.run_invariant DeviceIDs (DeviceIDs.step c) .empty hs
  have hlinked : s.db.Linked := RelayDB.Linked.empty.run hs
  intro i moment f input s' hf hop hstep upload _ e he row hrow hstored actions t ht identity request
    response hbody wire hwire hcursor account haccount
  obtain ⟨device, _, hdevice⟩ := hids.flights f (mem_of_getElem? hf)
  obtain ⟨header, hvalid⟩ := validateEnvelope_ok c he
  have htlinked : t.db.Linked := RelayDB.Linked.run (hlinked.step c s _ s' hstep) ht
  have hkept : row ∈ t.db.envelopes := (Relay.run_appends c s' ht).envelopes.subset hrow
  have hout := served_row htlinked.ordered hkept hbody hwire hcursor
  refine ⟨header, e.envelope account device, hvalid.rebuilt, hvalid.verified, ?_,
    (hvalid.envelope haccount hdevice).1, rfl, rfl, ?_⟩
  · rw [hout, hstored]
    exact hvalid.download haccount hdevice row.cursor
  · intro sent hsent hnames
    exact envelope_of_toWire hsent hnames he haccount hdevice

/-- The upload of the sample account, spelled in upper case, is stored and read
back. -/
theorem relay_client_agreement_upper : ∃ s : Relay,
    Runs.run (Relay.step sampleCrypto) .empty (sampleSetup ++
      [.arrive firstHeader (.sync { sampleUpload with
        envelopes := sampleUpload.envelopes.map (fun w => { w with
          objectID := List.replicate 32 65 }) }) none]) = some s ∧
    s.flights.length = 1 ∧ RelayClientAgreement sampleCrypto s := by
  apply Runs.exists_some (fun s => s.flights.length = 1) (by decide)
  intro s hs h
  exact ⟨h, relay_client_agreement sampleCrypto _ s hs⟩

/-- Third-party code whose signatures tell messages apart by their first bytes. -/
def strictCrypto : Crypto := { sampleCrypto with
  edSign := fun _ m => fit 64 m
  edVerify := fun _ m signature => decide (signature = fit 64 m) }

def foreignEnvelope : Envelope :=
  let header : Header := {
    version := 1
    accountID := (sampleMoment 0).random.read 0 16
    objectID := List.replicate 16 9
    keyEpoch := 1
    deviceID := List.replicate 16 200
    deviceSeq := 1
    previousHash := []
    nonce := List.replicate 24 0 }
  ⟨header, List.replicate 528 0,
    strictCrypto.edSign [] (strictCrypto.canonicalHeader header ++ List.replicate 528 0)⟩

/-- Its signature is valid under the authenticated key, but the relay rebuilds the
header with the authenticated device and refuses it. -/
theorem foreign_envelope_refused : ∃ wire, foreignEnvelope.toWire = .ok wire ∧
    strictCrypto.edVerify firstIdentity.ed25519Key
      (strictCrypto.canonicalHeader foreignEnvelope.header ++ foreignEnvelope.ciphertext)
      foreignEnvelope.signature = true ∧
    ∀ decoded, validateEnvelope strictCrypto firstIdentity wire ≠ .ok decoded := by
  have hv : validateHeader foreignEnvelope.header = .ok () := by decide
  have hb : validateEnvelopeBody foreignEnvelope.ciphertext foreignEnvelope.signature = .ok () := by
    decide +kernel
  refine ⟨_, (toWire_ok_iff _ _).mpr ⟨hv, hb, rfl⟩, by decide, ?_⟩
  have h : (validateEnvelope strictCrypto firstIdentity (foreignEnvelope.wireFields [] 0)).toOption =
      none := by
    decide +kernel
  intro decoded hok
  have hnone : (Except.ok decoded : Except String DecodedEnvelope).toOption = none := hok ▸ h
  simp [Except.toOption] at hnone

end YunPin
