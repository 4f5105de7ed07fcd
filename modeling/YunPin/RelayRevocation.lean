import YunPin.RelayFlight
import YunPin.SampleExternals

/-! Revocation of a device against requests of that device that are still in
flight, and against the pairings it has approved. -/
namespace YunPin
open ByteText List

def RelayDB.Revoked (db : RelayDB) (d : Bytes) : Prop :=
  ∃ row ∈ db.devices, row.id = d ∧ row.revokedAt ≠ none

instance (db : RelayDB) (d : Bytes) : Decidable (db.Revoked d) :=
  inferInstanceAs (Decidable (∃ row ∈ db.devices, row.id = d ∧ row.revokedAt ≠ none))

/-- The device that a step revokes, if it does: a revocation in flight, of another
device of the same account that is not revoked yet. -/
def Relay.revoking (s : Relay) (a : RelayAction) : Option Bytes :=
  match a with
  | .run i _ =>
    match s.flights[i]? with
    | some ⟨identity, .revokeDevice d, _⟩ =>
      if d ≠ identity.id ∧ s.db.devices.any (fun r =>
        r.id = d ∧ r.accountID = identity.accountID ∧ r.revokedAt = none) then some d else none
    | _ => none
  | _ => none

variable (c : Crypto) (s : Relay) {s' : Relay} (a : RelayAction) (identity : DeviceIdentity)
  (op : AuthOp) (moment : Moment) (db : RelayDB) (d : Bytes)

theorem exec_revoked (h : (op.exec c identity moment db).2.Revoked d) :
    db.Revoked d ∨ (op = .revokeDevice d ∧ d ≠ identity.id ∧ ∃ r ∈ db.devices,
      r.id = d ∧ r.accountID = identity.accountID ∧ r.revokedAt = none) := by
  obtain ⟨g, hg, hr⟩ := op.exec_devices c identity moment db
  obtain ⟨row', hmem, hid, hrev⟩ := h
  rw [hg] at hmem
  obtain ⟨r, hr', rfl⟩ := mem_map.mp hmem
  obtain ⟨hfixed, _, hnew⟩ := hr r
  have hrid : r.id = d := (congrArg DeviceRow.id hfixed).symm.trans hid
  by_cases hold : r.revokedAt = none
  · rcases hnew hrev with hc | ⟨hop, hne, hacc⟩
    · exact absurd hold hc
    · exact .inr ⟨hrid ▸ hop, hrid ▸ hne, r, hr', hrid, hacc, hold⟩
  · exact .inl ⟨r, hr', hrid, hold⟩

theorem revoked_exec (h : db.Revoked d) : (op.exec c identity moment db).2.Revoked d := by
  obtain ⟨g, hg, hr⟩ := op.exec_devices c identity moment db
  obtain ⟨row, hmem, hid, hrev⟩ := h
  obtain ⟨hfixed, hkeep, _⟩ := hr row
  refine ⟨g row, hg ▸ mem_map_of_mem hmem, ?_, by rwa [hkeep hrev]⟩
  exact (congrArg DeviceRow.id hfixed).trans hid

theorem serve_revoked_iff (op : OpenOp) (moment : Moment) (db : RelayDB) (d : Bytes) :
    (op.exec c moment db).2.Revoked d ↔ db.Revoked d := by
  obtain ⟨added, he, _, hadded⟩ := serve_devices c op moment db
  unfold RelayDB.Revoked
  rw [he]
  constructor
  · rintro ⟨row, hmem, hid, hrev⟩
    rcases mem_append.mp hmem with hmem | hmem
    · exact ⟨row, hmem, hid, hrev⟩
    · exact absurd (hadded row hmem).1 hrev
  · rintro ⟨row, hmem, hrow⟩
    exact ⟨row, mem_append_left _ hmem, hrow⟩

theorem revoked_step (h : s.step c a = some s') {d : Bytes} (hd : s'.db.Revoked d) :
    s.db.Revoked d ∨ s.revoking a = some d := by
  rcases Relay.step_cases h with ⟨_, _, _, _, hdb, _⟩ | ⟨i, moment, f, rfl, hf, hdb, _⟩ |
    ⟨op, moment, _, hdb, _⟩
  · exact .inl (hdb ▸ hd)
  · rw [hdb] at hd
    rcases exec_revoked c f.identity f.op moment s.db d hd with hold | ⟨hop, hne, r, hr, hrow⟩
    · exact .inl hold
    · refine .inr ?_
      obtain ⟨identity, op, call⟩ := f
      subst hop
      have hany : s.db.devices.any (fun r =>
          r.id = d ∧ r.accountID = identity.accountID ∧ r.revokedAt = none) = true :=
        any_eq_true.mpr ⟨r, hr, decide_eq_true hrow⟩
      simp only [Relay.revoking, hf, hany, hne, ne_eq, not_false_eq_true, and_self, if_true]
  · exact .inl ((serve_revoked_iff c op moment s.db d).mp (hdb ▸ hd))

theorem revoked_stays (h : s.step c a = some s') {d : Bytes} (hd : s.db.Revoked d) :
    s'.db.Revoked d := by
  rcases Relay.step_cases h with ⟨_, _, _, _, hdb, _⟩ | ⟨i, moment, f, _, _, hdb, _⟩ |
    ⟨op, moment, _, hdb, _⟩
  · rwa [hdb]
  · rw [hdb]
    exact revoked_exec c f.identity f.op moment s.db d hd
  · rw [hdb]
    exact (serve_revoked_iff c op moment s.db d).mpr hd

theorem authenticate_not_revoked (hu : db.UniqueDevices) {header : Bytes}
    {identity : DeviceIdentity} (h : authenticate c db header = .ok identity) :
    ¬db.Revoked identity.id := by
  obtain ⟨_, _, row, hrow, _, hlive, rfl⟩ := authenticate_ok h
  rintro ⟨row', hrow', hid, hrev⟩
  -- Two rows with one id are the same row.
  have heq : row' = row := inj_on_of_nodup_map hu.ids hrow' hrow hid
  exact hrev (heq ▸ hlive)

/-- A rule of in-flight requests: none that is `bad` for a revoked device. It
survives every step that keeps it at the moment of a revocation. -/
theorem flights_step (bad : AuthOp → Bool) {s : Relay} {a : RelayAction} (h : s.step c a = some s')
    (hu : s.db.UniqueDevices)
    (hinv : ∀ d, s.db.Revoked d → ∀ f ∈ s.flights, f.identity.id = d → bad f.op = false)
    (hnow : ∀ d ∈ s.revoking a, ∀ f ∈ s.flights, f.identity.id = d → bad f.op = false) :
    ∀ d, s'.db.Revoked d → ∀ f ∈ s'.flights, f.identity.id = d → bad f.op = false := by
  intro d hd f hf hid
  have hold : ∀ f ∈ s.flights, f.identity.id = d → bad f.op = false := by
    rcases revoked_step c s a h hd with hd | hd
    · exact hinv d hd
    · exact hnow d hd
  rcases Relay.step_cases h with ⟨_, op, call, _, hdb, hfl⟩ | ⟨i, _, _, _, _, _, hfl⟩ |
    ⟨_, _, _, _, hfl⟩
  · rcases hfl with hfl | ⟨identity, hauth, hfl⟩
    · exact hold f (hfl ▸ hf) hid
    · rw [hfl] at hf
      rcases mem_append.mp hf with hf | hf
      · exact hold f hf hid
      · -- A new request has authenticated, so its device is not revoked.
        rw [mem_singleton.mp hf] at hid
        rw [hdb, ← hid] at hd
        exact absurd hd (authenticate_not_revoked c s.db hu hauth)
  · exact hold f (mem_of_mem_eraseIdx (hfl ▸ hf)) hid
  · exact hold f (hfl ▸ hf) hid

def PairingState.granted : PairingState → Bool
  | .created => false
  | .joined => false
  | .approved => true
  | .claimed => true

def RelayDB.approvals (db : RelayDB) (d : Bytes) : List (Bytes × Bool) :=
  (db.pairings.filter (fun p => p.creatorDeviceID = d)).map (fun p => (p.id, p.state.granted))

/-- Nothing was written in the name of `d`: no envelope, no pairing created or
approved, no keyring. -/
structure Untouched (d : Bytes) (db db' : RelayDB) : Prop where
  envelopes : db'.envelopes.filter (fun r => r.deviceID = d) =
    db.envelopes.filter (fun r => r.deviceID = d)
  approvals : db'.approvals d = db.approvals d
  keyrings : db'.keyrings.filter (fun k => k.writerDeviceID = d) =
    db.keyrings.filter (fun k => k.writerDeviceID = d)

theorem Untouched.refl (db : RelayDB) : Untouched d db db := ⟨rfl, rfl, rfl⟩

theorem Untouched.trans {d : Bytes} {db db' db'' : RelayDB} (h : Untouched d db db')
    (h' : Untouched d db' db'') : Untouched d db db'' :=
  ⟨h'.envelopes.trans h.envelopes, h'.approvals.trans h.approvals, h'.keyrings.trans h.keyrings⟩

theorem approvals_updatePairings (db : RelayDB) (d : Bytes) (where_ : PairingRow → Bool)
    (set : PairingRow → PairingRow) (hcreator : ∀ p, (set p).creatorDeviceID = p.creatorDeviceID)
    (hset : ∀ p, where_ p = true → p.creatorDeviceID = d →
      (set p).id = p.id ∧ (set p).state.granted = p.state.granted) :
    (db.updatePairings where_ set).approvals d = db.approvals d := by
  unfold RelayDB.approvals RelayDB.updatePairings
  have hfilter : (fun p : PairingRow => decide (p.creatorDeviceID = d)) ∘
      (fun p => if where_ p then set p else p) = fun p => decide (p.creatorDeviceID = d) := by
    funext p
    simp only [Function.comp]
    split_ifs
    · rw [hcreator]
    · rfl
  rw [filter_map, hfilter, map_map]
  apply map_congr_left
  intro p hp
  have hd : p.creatorDeviceID = d := of_decide_eq_true (mem_filter.mp hp).2
  simp only [Function.comp]
  split_ifs with hw
  · rw [(hset p hw hd).1, (hset p hw hd).2]
  · rfl

def AuthOp.writes : AuthOp → Bool
  | .createPairing => true
  | .approvePairing _ _ => true
  | .sync input => decide (input.envelopes ≠ [])
  | .putKeyring _ _ => true
  | _ => false

theorem filter_append_other {α : Type*} (p : α → Bool) {l : List α} {x : α} (h : p x = false) :
    (l ++ [x]).filter p = l.filter p := by
  rw [filter_append, filter_cons_of_neg (by simp [h]), filter_nil, append_nil]

/-- A request in another device's name, or one that does not write, leaves
nothing in the name of `d`. -/
theorem untouched_exec (h : identity.id = d → op.writes = false) :
    Untouched d db (op.exec c identity moment db).2 := by
  have hl := op.exec_leaves c identity moment db
  generalize op.exec c identity moment db = out at hl
  cases hl with
  | same => exact .refl d db
  | created row secret reply hfresh hacc hcreator =>
    have hne : identity.id ≠ d := fun he => by simpa [AuthOp.writes] using h he
    refine ⟨rfl, congrArg (List.map _) (filter_append_other _ ?_), rfl⟩
    exact decide_eq_false (hcreator ▸ hne)
  | approved pairingID box where_ keyring reply hw =>
    have hne : identity.id ≠ d := fun he => by simpa [AuthOp.writes] using h he
    refine ⟨rfl, ?_, rfl⟩
    apply approvals_updatePairings
    · intro p
      rfl
    · intro p hp hd
      exact absurd ((hw p hp).1.symm.trans hd) hne
  | synced input =>
    apply syncEnvelopes_induction c identity input (fun db' => Untouched d db db') (.refl d db)
    · rintro db' e ⟨wire, hwire, _⟩ hun _ _
      -- A request without envelopes stores none.
      have hne : identity.id ≠ d := by
        intro he
        have hnil : input.envelopes = [] := by simpa [AuthOp.writes] using h he
        rw [hnil] at hwire
        simp at hwire
      exact hun.trans ⟨filter_append_other _ (decide_eq_false hne), rfl, rfl⟩
    · intro db' cursor hun
      exact hun.trans ⟨rfl, rfl, rfl⟩
  | revoked => exact ⟨rfl, rfl, rfl⟩
  | stored =>
    have hne : identity.id ≠ d := fun he => by simpa [AuthOp.writes] using h he
    exact ⟨rfl, rfl, filter_append_other _ (decide_eq_false hne)⟩

theorem untouched_serve (op : OpenOp) {moment : Moment} {db : RelayDB} (d : Bytes) :
    Untouched d db (op.exec c moment db).2 := by
  rcases op.exec_cases c moment db with he | ⟨_, _, _, _, _, _, he⟩ |
    ⟨pairingID, _, _, _, _, _, _, _, _, he⟩ | ⟨where_, _, _, _, hw, he⟩
  · rw [he]
    exact .refl d db
  · rw [he]
    exact ⟨rfl, rfl, rfl⟩
  · rw [he]
    refine ⟨rfl, ?_, rfl⟩
    apply approvals_updatePairings
    · intro p
      rfl
    · intro p hp _
      exact ⟨rfl, by rw [(of_decide_eq_true hp).2]; rfl⟩
  · rw [he]
    refine ⟨rfl, ?_, rfl⟩
    apply approvals_updatePairings
    · intro p
      rfl
    · intro p hp _
      exact ⟨rfl, by rw [hw p hp]; rfl⟩

theorem untouched_step (h : s.step c a = some s') {d : Bytes}
    (hd : ∀ f ∈ s.flights, f.identity.id = d → f.op.writes = false) : Untouched d s.db s'.db := by
  rcases Relay.step_cases h with ⟨_, _, _, _, hdb, _⟩ | ⟨i, moment, f, _, hf, hdb, _⟩ |
    ⟨op, moment, _, hdb, _⟩
  · exact hdb ▸ .refl d s.db
  · rw [hdb]
    exact untouched_exec c f.identity f.op moment s.db d (hd f (mem_of_getElem? hf))
  · rw [hdb]
    exact untouched_serve c op d

/-- When a step revokes a device, no writing request of that device is in flight. -/
def QuietRevocation (s : Relay) (a : RelayAction) : Prop :=
  ∀ d ∈ s.revoking a, ∀ f ∈ s.flights, f.identity.id = d → f.op.writes = false

instance (s : Relay) (a : RelayAction) : Decidable (QuietRevocation s a) :=
  inferInstanceAs (Decidable (∀ d ∈ s.revoking a, ∀ f ∈ s.flights,
    f.identity.id = d → f.op.writes = false))

structure QuietFlights (s : Relay) : Prop where
  unique : s.db.UniqueDevices
  quiet : ∀ d, s.db.Revoked d → ∀ f ∈ s.flights, f.identity.id = d → f.op.writes = false

theorem QuietFlights.empty : QuietFlights .empty :=
  ⟨⟨nodup_nil, nodup_nil⟩, fun _ _ _ hf => absurd hf not_mem_nil⟩

theorem QuietFlights.step (s' : Relay) (hs : QuietFlights s)
    (h : Runs.restrict QuietRevocation (Relay.step c) s a = some s') : QuietFlights s' := by
  obtain ⟨hok, h⟩ := Runs.restrict_some h
  exact ⟨uniqueDevices_step h hs.unique, flights_step c AuthOp.writes h hs.unique hs.quiet hok⟩

/-- Once a device is revoked nothing more is written in its name, in every run in
which none of its writing requests is in flight at the moment of the revocation. -/
theorem revocation_final (c : Crypto) (before after : List RelayAction) (s s' : Relay) (d : Bytes)
    (hs : Runs.run (Runs.restrict QuietRevocation (Relay.step c)) .empty before = some s)
    (hd : s.db.Revoked d)
    (hs' : Runs.run (Runs.restrict QuietRevocation (Relay.step c)) s after = some s') :
    Untouched d s.db s'.db := by
  have hq : QuietFlights s := Runs.run_invariant QuietFlights (QuietFlights.step c) .empty hs
  refine Runs.run_relation (fun t => QuietFlights t ∧ t.db.Revoked d)
    (fun t u => Untouched d t.db u.db) (fun t => .refl d t.db) (fun t u v => .trans) ?_ ⟨hq, hd⟩ hs'
  rintro t a t' ⟨hqt, hdt⟩ hstep
  have hstep' := (Runs.restrict_some hstep).2
  refine ⟨⟨hqt.step c t a t' hstep, ?_⟩, untouched_step c t a hstep' (hqt.quiet d hdt)⟩
  exact revoked_stays c t a hstep' hdt

/-! A small account for the runs below: a first device, and a second one that
joined through recovery. -/

def sampleMoment (seed : ℕ) : Moment := ⟨0, fun i => UInt8.ofNat (seed+i)⟩

def sampleAccount : AccountInput where
  recoveryAuthentication := base64Encode (List.replicate 32 7)
  registration := {
    deviceNameCiphertext := base64Encode (List.replicate 16 1)
    ed25519PublicKey := base64Encode (List.replicate 32 2)
    x25519PublicKey := base64Encode (List.replicate 32 3) }

def firstDevice : Bytes := randomID (sampleMoment 0) 16
def firstHeader : Bytes := lit "Bearer " ++ randomSecret (sampleMoment 0) 32 32
def secondHeader : Bytes := lit "Bearer " ++ randomSecret (sampleMoment 100) 16 32

def sampleSetup : List RelayAction :=
  [.serve (.createAccount sampleAccount) (sampleMoment 0),
    .serve (.recoverAccount (randomID (sampleMoment 0) 0) sampleAccount) (sampleMoment 100)]

def sampleUpload : SyncRequest where
  cursor := 0
  ackCursor := 0
  limit := 0
  envelopes := [{
    version := 1
    deviceID := []
    deviceSeq := 1
    objectID := hexEncode (List.replicate 16 9)
    keyEpoch := 1
    previousHash := []
    nonce := base64Encode (List.replicate 24 0)
    ciphertext := base64Encode (List.replicate 528 0)
    signature := base64Encode (List.replicate 64 0)
    cursor := 0 }]

/-- An upload of the first device passes authentication, the second device revokes
the first, and then the upload runs: its envelope is stored. -/
theorem upload_after_revocation : ∃ s s' : Relay,
    Runs.run (Relay.step sampleCrypto) .empty (sampleSetup ++
      [.arrive firstHeader (.sync sampleUpload) none,
        .arrive secondHeader (.revokeDevice firstDevice) none, .run 1 (sampleMoment 0)]) = some s ∧
    Runs.run (Relay.step sampleCrypto) s [.run 0 (sampleMoment 0)] = some s' ∧
    s.db.Revoked firstDevice ∧ s.db.envelopes = [] ∧
    ∃ r ∈ s'.db.envelopes, r.deviceID = firstDevice := by
  exact Runs.exists_some_some _ (by decide +kernel) (fun s s' _ _ h => h)

/-- With no request in flight the revocation of the first device is final. -/
theorem revocation_final_sample : ∃ s s' : Relay,
    Runs.run (Runs.restrict QuietRevocation (Relay.step sampleCrypto)) .empty (sampleSetup ++
      [.arrive secondHeader (.revokeDevice firstDevice) none, .run 0 (sampleMoment 0)]) = some s ∧
    Runs.run (Runs.restrict QuietRevocation (Relay.step sampleCrypto)) s
      [.arrive firstHeader (.sync sampleUpload) none] = some s' ∧
    s.db.Revoked firstDevice ∧ Untouched firstDevice s.db s'.db := by
  apply Runs.exists_some_some (fun s _ => s.db.Revoked firstDevice) (by decide +kernel)
  intro s s' hs hs' h
  exact ⟨h, revocation_final sampleCrypto _ _ s s' firstDevice hs h hs'⟩

def Relay.flightsOf (s : Relay) (d : Bytes) : List Flight :=
  s.flights.filter (fun f => f.identity.id = d)

/-- What a revoked device can still do: finish the requests that were let in before. -/
structure LockedOut (c : Crypto) (d : Bytes) (s t : Relay) : Prop where
  revoked : t.db.Revoked d
  refused : ∀ header identity, authenticate c t.db header = .ok identity → identity.id ≠ d
  flights : (t.flightsOf d).Sublist (s.flightsOf d)

theorem flightsOf_step (h : s.step c a = some s') (hu : s.db.UniqueDevices) (hd : s.db.Revoked d) :
    (s'.flightsOf d).Sublist (s.flightsOf d) := by
  rcases Relay.step_cases h with ⟨_, _, _, _, _, hfl⟩ | ⟨_, _, _, _, _, _, hfl⟩ | ⟨_, _, _, _, hfl⟩
  · rcases hfl with hfl | ⟨identity, hauth, hfl⟩
    · rw [Relay.flightsOf, hfl, Relay.flightsOf]
    · have hne : identity.id ≠ d := by
        rintro rfl
        exact authenticate_not_revoked c s.db hu hauth hd
      simp [Relay.flightsOf, hfl, hne]
  · rw [Relay.flightsOf, hfl]
    exact (eraseIdx_sublist _ _).filter _
  · rw [Relay.flightsOf, hfl, Relay.flightsOf]

theorem revoked_locked_out (c : Crypto) (before after : List RelayAction) (s t : Relay) (d : Bytes)
    (hs : Runs.run (Relay.step c) .empty before = some s) (hd : s.db.Revoked d)
    (ht : Runs.run (Relay.step c) s after = some t) : LockedOut c d s t := by
  have hu : s.db.UniqueDevices := Runs.run_invariant (fun u => u.db.UniqueDevices)
    (fun u a u' hu h => uniqueDevices_step h hu) ⟨nodup_nil, nodup_nil⟩ hs
  have hinv : t.db.UniqueDevices ∧ t.db.Revoked d ∧ (t.flightsOf d).Sublist (s.flightsOf d) := by
    refine Runs.run_invariant (fun u => u.db.UniqueDevices ∧ u.db.Revoked d ∧
      (u.flightsOf d).Sublist (s.flightsOf d)) ?_ ⟨hu, hd, Sublist.refl _⟩ ht
    rintro u a u' ⟨hu, hd, hsub⟩ h
    exact ⟨uniqueDevices_step h hu, revoked_stays c u a h hd,
      (flightsOf_step c u a d h hu hd).trans hsub⟩
  refine ⟨hinv.2.1, fun header identity hauth => ?_, hinv.2.2⟩
  rintro rfl
  exact authenticate_not_revoked c t.db hinv.1 hauth hinv.2.1

/-- The upload that was in flight is the last thing of the first device. -/
theorem revoked_locked_out_sample : ∃ s t : Relay,
    Runs.run (Relay.step sampleCrypto) .empty (sampleSetup ++
      [.arrive firstHeader (.sync sampleUpload) none,
        .arrive secondHeader (.revokeDevice firstDevice) none, .run 1 (sampleMoment 0)]) = some s ∧
    Runs.run (Relay.step sampleCrypto) s [.arrive firstHeader (.sync sampleUpload) none,
      .run 0 (sampleMoment 0)] = some t ∧
    (s.db.Revoked firstDevice ∧ t.flights.length = 0) ∧ LockedOut sampleCrypto firstDevice s t := by
  apply Runs.exists_some_some (fun s t => s.db.Revoked firstDevice ∧ t.flights.length = 0)
    (by decide +kernel)
  intro s t hs ht h
  exact ⟨h, revoked_locked_out sampleCrypto _ _ s t firstDevice hs h.1 ht⟩

def AuthOp.approves : AuthOp → Bool
  | .approvePairing _ _ => true
  | _ => false

/-- When a step revokes a device, none of its pairings is waiting to be claimed
and none of its approvals is in flight. -/
def SettledRevocation (s : Relay) (a : RelayAction) : Prop :=
  ∀ d ∈ s.revoking a, (∀ p ∈ s.db.pairings, p.creatorDeviceID = d → p.state ≠ .approved) ∧
    ∀ f ∈ s.flights, f.identity.id = d → f.op.approves = false

instance (s : Relay) (a : RelayAction) : Decidable (SettledRevocation s a) := by
  unfold SettledRevocation
  infer_instance

/-- No pairing of a revoked device can be claimed or approved any more. -/
structure SettledPairings (s : Relay) : Prop where
  unique : s.db.UniqueDevices
  flights : ∀ d, s.db.Revoked d → ∀ f ∈ s.flights, f.identity.id = d → f.op.approves = false
  pairings : ∀ p ∈ s.db.pairings, s.db.Revoked p.creatorDeviceID → p.state ≠ .approved

theorem exec_approved {p : PairingRow} (hp : p ∈ (op.exec c identity moment db).2.pairings)
    (hst : p.state = .approved) :
    p ∈ db.pairings ∨ (op.approves = true ∧ p.creatorDeviceID = identity.id) := by
  rcases op.exec_pairings c identity moment db with hsame | ⟨row, _, _, _, _, _, _, hrow, he⟩ |
    ⟨_, _, where_, _, rfl, hw, he⟩
  · exact .inl (hsame ▸ hp)
  · rw [he] at hp
    rcases mem_append.mp hp with hp | hp
    · exact .inl hp
    · rw [mem_singleton.mp hp, hrow] at hst
      simp at hst
  · rw [he] at hp
    rcases mem_updatePairings _ _ _ hp with hp | ⟨q, _, hq, rfl⟩
    · exact .inl hp
    · exact .inr ⟨rfl, (hw q hq).1⟩

theorem serve_approved {op : OpenOp} {moment : Moment} {db : RelayDB} {p : PairingRow}
    (hp : p ∈ (op.exec c moment db).2.pairings) (hst : p.state = .approved) : p ∈ db.pairings := by
  rcases op.exec_cases c moment db with he | ⟨_, _, _, _, _, _, he⟩ |
    ⟨_, _, _, _, _, _, _, _, _, he⟩ | ⟨_, _, _, _, _, he⟩
  · exact he ▸ hp
  · rw [he] at hp
    exact hp
  · rw [he] at hp
    rcases mem_updatePairings _ _ _ hp with hp | ⟨q, _, _, rfl⟩
    · exact hp
    · simp at hst
  · rw [he] at hp
    rcases mem_updatePairings _ _ _ hp with hp | ⟨q, _, _, rfl⟩
    · exact hp
    · simp at hst

theorem SettledPairings.empty : SettledPairings .empty :=
  ⟨⟨nodup_nil, nodup_nil⟩, fun _ _ _ hf => absurd hf not_mem_nil,
    fun _ hp => absurd hp not_mem_nil⟩

theorem SettledPairings.step (s' : Relay) (hs : SettledPairings s)
    (h : Runs.restrict SettledRevocation (Relay.step c) s a = some s') : SettledPairings s' := by
  obtain ⟨hok, h⟩ := Runs.restrict_some h
  refine ⟨uniqueDevices_step h hs.unique, flights_step c AuthOp.approves h hs.unique
    hs.flights (fun d hd => (hok d hd).2), ?_⟩
  intro p hp hrev hst
  -- Before the step the creator was revoked, or this step revokes it.
  have hold : (∀ q ∈ s.db.pairings, q.creatorDeviceID = p.creatorDeviceID → q.state ≠ .approved) ∧
      ∀ f ∈ s.flights, f.identity.id = p.creatorDeviceID → f.op.approves = false := by
    rcases revoked_step c s a h hrev with hd | hd
    · exact ⟨fun q hq he => hs.pairings q hq (he ▸ hd), hs.flights _ hd⟩
    · exact hok _ hd
  rcases Relay.step_cases h with ⟨_, _, _, _, hdb, _⟩ | ⟨i, moment, f, _, hf, hdb, _⟩ |
    ⟨op, moment, _, hdb, _⟩
  · exact hold.1 p (hdb ▸ hp) rfl hst
  · rw [hdb] at hp
    rcases exec_approved c f.identity f.op moment s.db hp hst with hp | ⟨happ, hid⟩
    · exact hold.1 p hp rfl hst
    · have hno := hold.2 f (mem_of_getElem? hf) hid.symm
      simp [happ] at hno
  · rw [hdb] at hp
    exact hold.1 p (serve_approved c hp hst) rfl hst

/-- A claim inserts a device only for a pairing whose creator is not revoked, in
every run in which a device has no approved pairing and no approval in flight when
it is revoked. -/
theorem claim_creator_not_revoked (c : Crypto) (actions : List RelayAction) (s s' : Relay)
    (pairingID secret : Bytes) (moment : Moment)
    (hs : Runs.run (Runs.restrict SettledRevocation (Relay.step c)) .empty actions = some s)
    (hclaim : s.step c (.serve (.claimPairing pairingID secret) moment) = some s')
    (hins : s'.db.devices ≠ s.db.devices) :
    ∃ p ∈ s.db.pairings, p.id = pairingID ∧
      (∃ token, s'.db.devices = s.db.devices ++ [p.device c token moment.now]) ∧
      ¬s.db.Revoked p.creatorDeviceID := by
  have hinv : SettledPairings s := Runs.run_invariant SettledPairings (SettledPairings.step c)
    .empty hs
  cases hclaim
  rcases OpenOp.exec_cases c (.claimPairing pairingID secret) moment s.db with he |
    ⟨_, _, hne, _, _, _, _⟩ | ⟨_, _, p, token, hop, hp, hid, hst, _, he⟩ | ⟨_, _, _, _, _, he⟩
  · exact absurd (by simp only [he]) hins
  · exact absurd rfl (hne pairingID secret)
  · obtain ⟨rfl, rfl⟩ := OpenOp.claimPairing.inj hop
    refine ⟨p, hp, hid, ⟨token, by simp only [he]; rfl⟩, ?_⟩
    intro hrev
    exact hinv.pairings p hp hrev hst
  · exact absurd (by simp only [he]; rfl) hins

/-- The pairing of the runs below, and the steps that create, join and approve it. -/
def samplePairing : Bytes := randomID (sampleMoment 0) 0
def sampleSecret : Bytes := randomSecret (sampleMoment 0) 16 24

def sampleApproval : List RelayAction :=
  [.arrive firstHeader .createPairing none,
    .run 0 (sampleMoment 0),
    .serve (.joinPairing samplePairing ⟨sampleSecret, sampleAccount.registration⟩) (sampleMoment 0),
    .arrive firstHeader (.approvePairing samplePairing (base64Encode
      (lit "YPBX" ++ [1, 0, 0, 0, 16] ++ List.replicate 40 0))) none,
    .run 0 (sampleMoment 200)]

/-- The first device approves a pairing, is revoked, and the pairing is claimed
all the same. -/
theorem claim_after_revocation : ∃ s s' : Relay,
    Runs.run (Relay.step sampleCrypto) .empty (sampleSetup ++ sampleApproval ++
      [.arrive secondHeader (.revokeDevice firstDevice) none, .run 0 (sampleMoment 0)]) = some s ∧
    s.step sampleCrypto (.serve (.claimPairing samplePairing sampleSecret) (sampleMoment 50)) =
      some s' ∧
    s.db.Revoked firstDevice ∧ (∀ p ∈ s.db.pairings, p.creatorDeviceID = firstDevice) ∧
    s'.db.devices.length = s.db.devices.length+1 := by
  exact Runs.exists_some_some _ (by decide +kernel) (fun s s' _ _ h => h)

/-- The same pairing claimed while its creator is in good standing. -/
theorem claim_creator_not_revoked_sample : ∃ s s' : Relay,
    Runs.run (Runs.restrict SettledRevocation (Relay.step sampleCrypto)) .empty
      (sampleSetup ++ sampleApproval) = some s ∧
    s.step sampleCrypto (.serve (.claimPairing samplePairing sampleSecret) (sampleMoment 50)) =
      some s' ∧
    ∃ p ∈ s.db.pairings, p.id = samplePairing ∧
      (∃ token, s'.db.devices = s.db.devices ++ [p.device sampleCrypto token 0]) ∧
      ¬s.db.Revoked p.creatorDeviceID := by
  apply Runs.exists_some_some (fun s s' => s'.db.devices ≠ s.db.devices) (by decide +kernel)
  intro s s' hs hs' h
  exact claim_creator_not_revoked sampleCrypto _ s s' samplePairing sampleSecret (sampleMoment 50) hs
    hs' h

end YunPin
