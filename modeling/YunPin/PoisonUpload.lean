import YunPin.SampleSystem

/-! Uploads that no replica can merge. The producer checks a record in `ProtocolState`
and `SealEnvelope`, the consumer in `validatePayloadObject`. On stores that only sync
devices have written to, with text that the repair of invalid UTF-8 leaves alone, the
two agree up to the size of the payload; on other stores they do not. -/
namespace YunPin
open ByteText List

/-- Options with valid keys, sequence and epoch, for the device of the handle. -/
structure EnvelopeOptions.ValidFor (options : EnvelopeOptions) (store : Store) : Prop where
  accountID : options.accountID.length = 16
  deviceID : options.deviceID.length = 16
  device : hexEncode options.deviceID = store.deviceID
  keyEpoch : 1 ≤ options.keyEpoch ∧ options.keyEpoch ≤ maxInt64
  deviceSeq : 1 ≤ options.deviceSeq ∧ options.deviceSeq ≤ maxInt64
  previousHash : options.previousHash.length = 0 ∨ options.previousHash.length = 32
  epochKey : options.epochKey.length = 32
  signingPrivate : options.signingPrivate.length = 64

theorem protocolSeal_ok_iff {P : Type} (c : Crypto) (cbor : Cbor P) {epochKey : Bytes}
    (header : Header) (payload : P) {signingPrivate : Bytes} (source : RandomSource)
    (hh : validateHeader { header with version := protocolVersion, nonce := source.read 0 24 } =
      .ok ()) (hk : epochKey.length = 32) (hp : signingPrivate.length = 64) :
    (∃ envelope, protocolSeal c cbor epochKey header payload signingPrivate source = .ok envelope) ↔
      (cbor.marshal payload).length ≤ maxEnvelopePayload := by
  constructor
  · rintro ⟨envelope, he⟩
    obtain ⟨plain, hplain, _⟩ := protocolSeal_facts he
    exact (paddedPayload_facts hplain).1
  · intro hsize
    obtain ⟨plain, hplain⟩ : ∃ plain, paddedPayload cbor payload source 24 = .ok plain := by
      unfold paddedPayload
      simp only [not_lt.mpr hsize, if_false]
      exact ⟨_, rfl⟩
    unfold protocolSeal
    simp only [hh, hp, hplain, deriveObjectKey, hk, ne_eq, not_true_eq_false, if_false]
    exact ⟨_, rfl⟩

theorem sealEnvelope_good (x : Externals) (store : Store) (event : PendingEvent)
    (hg : event.phrase.Good x store event.objectID) (hs : event.syncable = true)
    (hd : event.deviceID = store.deviceID) (hv : validSyncDeviceID store.deviceID = true)
    (options : EnvelopeOptions) (ho : options.ValidFor store) :
    event.sealEnvelope x options = protocolSeal x.crypto x.cbor options.epochKey
      (options.header event.objectID) event.phrase.payload options.signingPrivate
      options.random := by
  have hsame : (hexDecode event.phrase.payload.state.objectID).getD [] = event.objectID.val := by
    change (hexDecode event.phrase.crdt.objectID).getD [] = _
    rw [hg.state.objectID, hexDecode_hexEncode]
    rfl
  unfold PendingEvent.sealEnvelope
  simp only [hs, hd, hv, ho.deviceID, ho.device, event.protocolPayload_good hg, hsame, ne_eq,
    not_true_eq_false, or_self, if_false]

/-- Text and reading have the same canonical form. Records of one object have, as long
as no two forms collide under the truncated HMAC. -/
def SameCanonical (u : Unicode) (old : Phrase) (payload : PhrasePayload) : Prop :=
  canonicalPhrase u old.text = canonicalPhrase u payload.text ∧
    canonicalPinyin u old.pinyin = canonicalPinyin u payload.pinyin

theorem objectID_of_canonical {x : Externals} {store : Store} {id : ObjectID}
    {text pinyin text' pinyin' : Bytes} (h : store.objectID x text pinyin = .ok id)
    (ht : isBlank text' ≠ true) (hp : isBlank pinyin' ≠ true)
    (hct : canonicalPhrase x.unicode text' = canonicalPhrase x.unicode text)
    (hcp : canonicalPinyin x.unicode pinyin' = canonicalPinyin x.unicode pinyin) :
    store.objectID x text' pinyin' = .ok id := by
  unfold Store.objectID at h ⊢
  split_ifs at h with hblank
  rw [if_neg (by simp [ht, hp])]
  unfold opaqueObjectID at h ⊢
  rw [hct, hcp]
  exact h

variable {x : Externals}

theorem objectID_not_blank {store : Store} {id : ObjectID} {text pinyin : Bytes}
    (h : store.objectID x text pinyin = .ok id) : isBlank text ≠ true ∧ isBlank pinyin ≠ true := by
  unfold Store.objectID at h
  split_ifs at h with hblank
  push Not at hblank
  exact hblank

theorem merge_record_some {store : Store} {m : Merge}
    (hid : store.objectID x m.payload.text m.payload.pinyin = .ok m.id)
    (hp : m.payload.state.Good m.id) (hex : ∀ old, m.existing = some old → old.Good x store m.id ∧
      SameCanonical x.unicode old m.payload) : ∃ record, m.record x store = .ok record := by
  obtain ⟨merged, hmerged, hobj, hgood⟩ : ∃ merged, m.merged = .ok merged ∧
      store.objectID x merged.text merged.pinyin = .ok m.id ∧ merged.state.Good m.id := by
    unfold Merge.merged
    cases hold : m.existing with
    | none => exact ⟨m.payload, rfl, hid, hp⟩
    | some old =>
      obtain ⟨hg, hct, hcp⟩ := hex old hold
      obtain ⟨merged, hmerge⟩ := mergePhrasePayload_some (a := old.payload) hg.state hp
      obtain ⟨hstate, ht, hpy, _, _⟩ := mergePhrasePayload_ok hmerge
      refine ⟨merged, hmerge, ?_, mergePhrase_good hg.state hp hstate⟩
      rw [ht, hpy]
      -- Text and reading are picked one by one, each from either side.
      obtain ⟨hnt, hnp⟩ := objectID_not_blank hid
      obtain ⟨hot, hop⟩ := objectID_not_blank hg.identity
      apply objectID_of_canonical hid
      · exact chooseStableString_ind (isBlank · ≠ true) hot hnt
      · exact chooseStableString_ind (isBlank · ≠ true) hop hnp
      · exact chooseStableString_ind (canonicalPhrase x.unicode · = _) hct rfl
      · exact chooseStableString_ind (canonicalPinyin x.unicode · = _) hcp rfl
  unfold Merge.record
  rw [hmerged]
  simp only [(validatePayloadObject_ok_iff x store merged m.id).mpr ⟨hobj, hgood⟩]
  exact ⟨_, rfl⟩

theorem StoreFit.merge_accepts {store : Store} {db : LocalDB} (h : StoreFit x store db)
    (now : Reading) (payload : PhrasePayload) (id : ObjectID)
    (hv : validatePayloadObject x payload store.idKey = .ok id)
    (hsame : ∀ old, db.phrases.find? id = some old → SameCanonical x.unicode old payload) :
    (YunPin.mergeRemotePayload x store now payload db).1 = .ok () := by
  obtain ⟨hobj, hgood⟩ := (validatePayloadObject_ok_iff x store payload id).mp hv
  let m : Merge := ⟨payload, id, db.phrases.find? id, db.phrases.find? id⟩
  have hload : mergeLoad x store payload db = .ok m := by simp only [mergeLoad, hv, m]
  obtain ⟨record, hrec⟩ := @merge_record_some x store m hobj hgood
    (fun old hold => ⟨h.records id old hold, hsame old hold⟩)
  rw [h.migrated.mergeRemotePayload_eq now hload hrec]

section
variable {κ : Type} [DecidableEq κ]

/-- Local operations go through handles of `OpenForDevice`, keep their object under the
repair of invalid UTF-8 and bring no replicated state; what is merged is valid text. -/
def CleanStep (x : Externals) (s : Fleet κ) : FleetAction κ → Prop
  | .mutate k handle m _ => ∀ store ∈ (s.replicas k).handles[handle]?,
      store.syncEnabled = true ∧ m.KeepsObject x store ∧ m.bringsState = false
  | .merge _ _ payload _ => payload.validText = true
  | _ => True

instance (x : Externals) (s : Fleet κ) (a : FleetAction κ) : Decidable (CleanStep x s a) := by
  unfold CleanStep
  apply @FleetAction.casesOn _ _ a <;> intros <;> infer_instance

theorem Fleet.fit_step {dataKey idKey : Bytes} {s s' : Fleet κ} {a : FleetAction κ}
    (hi : ∀ k, (s.replicas k).Fit x idKey) (hc : CleanStep x s a)
    (h : s.step x dataKey idKey a = some s') (k : κ) : (s'.replicas k).Fit x idKey := by
  have hset (k' : κ) (r : Replica) (hr : r.Fit x idKey) :
      ((s.setReplica k' r).replicas k).Fit x idKey :=
    s.setReplica_ind (fun _ r => r.Fit x idKey) k' r hr hi k
  cases Fleet.step_cases h with
  | opened _ k' db' handles ho => exact hset k' _ ((hi k').opened ho)
  | mutate k' handle m now store hs r hm =>
    obtain ⟨hsync, hkeeps, hplain⟩ := hc store hs
    obtain ⟨hkey, hv⟩ := (hi k').handles store (mem_of_getElem? hs)
    refine hset k' _ ((hi k').of_store hkey _ ?_)
    exact ((hi k').store store hkey).mutation (hv hsync) hkeeps (fun _ _ _ => hplain) hm
  | send => exact hi k
  | merge k' handle payload now store hs =>
    obtain ⟨hkey, _⟩ := (hi k').handles store (mem_of_getElem? hs)
    refine hset k' _ ((hi k').of_store hkey _ ?_)
    exact ((hi k').store store hkey).mergeRemotePayload now hc

theorem Fleet.fit_run {dataKey idKey : Bytes} {t : Fleet κ} {actions : List (FleetAction κ)}
    (h : Runs.run (Runs.restrict (CleanStep x) (Fleet.step x dataKey idKey)) (Fleet.new κ) actions =
      some t) (k : κ) : (t.replicas k).Fit x idKey := by
  apply Runs.run_invariant (fun u : Fleet κ => ∀ k, (u.replicas k).Fit x idKey) ?_
    (Fleet.new_fit x idKey) h k
  intro u a u' hi hu
  obtain ⟨hc, hu⟩ := Runs.restrict_some hu
  exact Fleet.fit_step hi hc hu

/-- An event that is no poison: it can be sealed if and only if it is not too large,
and what it seals opens to a payload of its object that every replica merges. -/
structure NoPoison (κ : Type) [DecidableEq κ] (x : Externals) (dataKey idKey : Bytes)
    (event : PendingEvent) (options : EnvelopeOptions) : Prop where
  sealed : (∃ envelope, event.sealEnvelope x options = .ok envelope) ↔
    (x.cbor.marshal event.phrase.payload).length ≤ maxEnvelopePayload
  opened : ∀ envelope, event.sealEnvelope x options = .ok envelope → ∃ payload,
    protocolOpen x.crypto x.cbor options.epochKey envelope
      (x.crypto.edPublic options.signingPrivate) = .ok payload ∧
    validatePayloadObject x payload idKey = .ok event.objectID ∧
    ∀ (actions : List (FleetAction κ)) (u : Fleet κ), Runs.run (Runs.restrict (CleanStep x)
      (Fleet.step x dataKey idKey)) (Fleet.new κ) actions = some u →
      ∀ k, ∀ store ∈ (u.replicas k).handles, ∀ now,
        (∀ old, (u.replicas k).db.phrases.find? event.objectID = some old →
          SameCanonical x.unicode old payload) →
        (mergeRemotePayload x store now payload (u.replicas k).db).1 = .ok ()

/-- In every clean run no event of a store opened with `OpenForDevice` is poison. -/
theorem no_poison_upload (x : Externals) (hx : x.Laws) (dataKey idKey : Bytes)
    (actions : List (FleetAction κ)) (t : Fleet κ)
    (h : Runs.run (Runs.restrict (CleanStep x) (Fleet.step x dataKey idKey)) (Fleet.new κ) actions =
      some t) (k : κ) (store : Store) (hs : store ∈ (t.replicas k).handles)
    (hsync : store.syncEnabled = true) (limit : ℕ) (events : List PendingEvent)
    (hev : pendingEvents store (t.replicas k).db limit = .ok events) (event : PendingEvent)
    (he : event ∈ events) (options : EnvelopeOptions) (ho : options.ValidFor store) :
    NoPoison κ x dataKey idKey event options := by
  have hfit := Fleet.fit_run h k
  obtain ⟨hkey, hvalid⟩ := hfit.handles store hs
  obtain ⟨row, hrow, rfl⟩ := pendingEvents_mem hev he
  have hgood := (hfit.store store hkey).outbox row hrow
  have hseal := sealEnvelope_good x store ⟨row.eventID, row.version, row.objectID, row.phrase,
    store.deviceID, store.syncEnabled⟩ hgood hsync rfl (hvalid hsync) options ho
  refine ⟨?_, ?_⟩
  · -- The header is in order, so the size of the payload decides.
    rw [hseal]
    refine protocolSeal_ok_iff x.crypto x.cbor _ _ _ ?_ ho.epochKey ho.signingPrivate
    rw [validateHeader_ok_iff]
    exact ⟨rfl, ⟨ho.accountID, row.objectID.property, ho.deviceID⟩, ho.keyEpoch, ho.deviceSeq,
      ho.previousHash, by simp⟩
  · intro envelope henv
    rw [hseal] at henv
    have hpayload : validatePayloadObject x row.phrase.payload idKey = .ok row.objectID := by
      rw [← hkey]
      exact (validatePayloadObject_ok_iff x store _ _).mpr ⟨hgood.identity, hgood.state⟩
    refine ⟨row.phrase.payload, ?_, hpayload, ?_⟩
    · refine protocolOpen_protocolSeal hx.crypto henv ?_
      apply hx.cbor.unmarshal_marshal _ hgood.payload_validText
      obtain ⟨c, hc, _⟩ := hgood.state.counts
      simp [Phrase.payload, hc]
    · intro actions' u hu k' store' hs' now hsame
      -- The receiving replica may come from another run; fitness is all that is used of it.
      have hfit' := Fleet.fit_run hu k'
      have hkey' := (hfit'.handles store' hs').1
      exact (hfit'.store store' hkey').merge_accepts now _ _ (by rw [hkey']; exact hpayload) hsame

end

def sampleOptions : EnvelopeOptions :=
  (sampleSession false).options ⟨[], 0, 1, [], none⟩ sampleRandom

theorem sampleOptions_valid {store : Store} (h : store.deviceID = hexEncode (sampleDevice false)) :
    sampleOptions.ValidFor store where
  accountID := by decide
  deviceID := by decide
  device := h.symm
  keyEpoch := by decide
  deviceSeq := by decide
  previousHash := by decide
  epochKey := by decide
  signingPrivate := by decide

set_option synthInstance.maxSize 1024 in
/-- The clocks of the record are those of the node "local-only": its event is sealed
and opened, and then refused by every replica. -/
theorem local_only_upload_refused : ∃ t store events event envelope payload,
    Runs.run sampleFleetStep (Fleet.new Unit) localFirst = some t ∧
    store ∈ (t.replicas ()).handles ∧ store.syncEnabled = true ∧
    pendingEvents store (t.replicas ()).db 1 = .ok events ∧ event ∈ events ∧
    sampleOptions.ValidFor store ∧ event.sealEnvelope sampleExternals sampleOptions = .ok envelope ∧
    protocolOpen sampleCrypto sampleCbor sampleOptions.epochKey envelope
      (sampleCrypto.edPublic sampleOptions.signingPrivate) = .ok payload ∧
    validatePayloadObject sampleExternals payload sampleKey =
      .error "phrase payload contains an invalid HLC node" := by
  simp only [exists_and_left]
  apply Runs.exists_some (fun t => ∃ store ∈ (t.replicas ()).handles,
    ∃ events ∈ (pendingEvents store (t.replicas ()).db 1).toOption, ∃ event ∈ events,
      ∃ envelope ∈ (event.sealEnvelope sampleExternals sampleOptions).toOption,
        ∃ payload ∈ (protocolOpen sampleCrypto sampleCbor sampleOptions.epochKey envelope
          (sampleCrypto.edPublic sampleOptions.signingPrivate)).toOption,
        store.syncEnabled = true ∧ store.deviceID = hexEncode (sampleDevice false) ∧
          validatePayloadObject sampleExternals payload sampleKey =
            .error "phrase payload contains an invalid HLC node") (by decide +kernel)
  rintro t - ⟨store, hs, events, hev, event, he, envelope, henv, payload, hpay, hsync, hdev, hbad⟩
  exact ⟨store, hs, hsync, events, toOption_eq_some hev, event, he, sampleOptions_valid hdev,
    envelope, toOption_eq_some henv, payload, toOption_eq_some hpay, hbad⟩

/-- The same phrase, saved through `OpenForDevice`. -/
theorem no_poison_upload_sample : ∃ t store events event,
    Runs.run (Runs.restrict (CleanStep sampleExternals) sampleFleetStep) (Fleet.new Unit)
      [sampleOpen () false, .mutate () 0 (.save (samplePhrase "a")) sampleReading] = some t ∧
    store ∈ (t.replicas ()).handles ∧ store.syncEnabled = true ∧
    pendingEvents store (t.replicas ()).db 1 = .ok events ∧ event ∈ events ∧
    (sampleCbor.marshal event.phrase.payload).length ≤ maxEnvelopePayload ∧
    NoPoison Unit sampleExternals sampleKey sampleKey event sampleOptions := by
  simp only [exists_and_left]
  apply Runs.exists_some (fun t => ∃ store ∈ (t.replicas ()).handles,
    ∃ events ∈ (pendingEvents store (t.replicas ()).db 1).toOption, ∃ event ∈ events,
      store.syncEnabled = true ∧ store.deviceID = hexEncode (sampleDevice false) ∧
        (sampleCbor.marshal event.phrase.payload).length ≤ maxEnvelopePayload) (by decide +kernel)
  rintro t ht ⟨store, hs, events, hev, event, he, hsync, hdev, hsize⟩
  have hev := toOption_eq_some hev
  exact ⟨store, hs, hsync, events, hev, event, he, hsize,
    no_poison_upload sampleExternals sampleExternals_laws sampleKey sampleKey _ t ht () store hs
      hsync 1 events hev event he sampleOptions (sampleOptions_valid hdev)⟩

end YunPin
