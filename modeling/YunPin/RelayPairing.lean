import YunPin.RelayRevocation

/-! Pairing a new device. Requests of any parties may run in any order; a pairing
only moves forward, at most one device comes out of it, and that device is the one
its creator was shown. The answers the relay has given are kept in a log, so that
what was shown and what was claimed can be compared later. -/
namespace YunPin
open ByteText List Option

/-- A handler that has run, with the time it has read and its reply. -/
inductive RelayEvent
  | authed (identity : DeviceIdentity) (op : AuthOp) (now : ℤ) (reply : Reply)
  | opened (op : OpenOp) (now : ℤ) (reply : Reply)
deriving DecidableEq

def Relay.answer (c : Crypto) (s : Relay) : RelayAction → Option RelayEvent
  | .arrive _ _ _ => none
  | .run i moment => s.flights[i]?.map (fun f =>
      .authed f.identity f.op moment.now (f.op.exec c f.identity moment s.db).1)
  | .serve op moment => some (.opened op moment.now (op.exec c moment s.db).1)

structure LoggedRelay where
  relay : Relay
  log : List RelayEvent

def LoggedRelay.empty : LoggedRelay := ⟨.empty, []⟩

def LoggedRelay.step (c : Crypto) (s : LoggedRelay) (a : RelayAction) : Option LoggedRelay :=
  (s.relay.step c a).map (fun r => ⟨r, s.log ++ (s.relay.answer c a).toList⟩)

variable {p q : PairingRow} {c : Crypto} (s s' : LoggedRelay) (a : RelayAction)

theorem LoggedRelay.step_some (h : s.step c a = some s') :
    s.relay.step c a = some s'.relay ∧ s'.log = s.log ++ (s.relay.answer c a).toList := by
  obtain ⟨r, hr, rfl⟩ := map_eq_some_iff.mp h
  exact ⟨hr, rfl⟩

theorem LoggedRelay.mem_log (h : s.step c a = some s') {e : RelayEvent} (he : e ∈ s'.log) :
    e ∈ s.log ∨ s.relay.answer c a = some e := by
  rw [(s.step_some s' a h).2] at he
  rcases mem_append.mp he with he | he
  · exact .inl he
  · exact .inr (by simpa using he)

def PairingState.rank : PairingState → ℕ
  | .created => 0
  | .joined => 1
  | .approved => 2
  | .claimed => 3

def PairingRow.opening (p : PairingRow) : PairingRow := { p with
  state := .created
  pendingNameCiphertext := []
  pendingEd25519PublicKey := []
  pendingX25519PublicKey := []
  newDeviceID := []
  encryptedKeyring := []
  claimedAt := none }

structure PairingRow.Follows (p q : PairingRow) : Prop where
  opening : q.opening = p.opening
  state : p.state.rank ≤ q.state.rank
  joined : 1 ≤ p.state.rank → q.pendingNameCiphertext = p.pendingNameCiphertext ∧
    q.pendingEd25519PublicKey = p.pendingEd25519PublicKey ∧
    q.pendingX25519PublicKey = p.pendingX25519PublicKey
  approved : 2 ≤ p.state.rank → q.newDeviceID = p.newDeviceID ∧
    q.encryptedKeyring = p.encryptedKeyring

theorem PairingRow.Follows.refl (p : PairingRow) : p.Follows p :=
  ⟨rfl, le_rfl, fun _ => ⟨rfl, rfl, rfl⟩, fun _ => ⟨rfl, rfl⟩⟩

theorem PairingRow.Follows.trans {r : PairingRow} (h : p.Follows q) (h' : q.Follows r) :
    p.Follows r where
  opening := h'.opening.trans h.opening
  state := h.state.trans h'.state
  joined hp := by
    obtain ⟨h1, h2, h3⟩ := h.joined hp
    obtain ⟨h1', h2', h3'⟩ := h'.joined (hp.trans h.state)
    exact ⟨h1'.trans h1, h2'.trans h2, h3'.trans h3⟩
  approved hp := by
    obtain ⟨h1, h2⟩ := h.approved hp
    obtain ⟨h1', h2'⟩ := h'.approved (hp.trans h.state)
    exact ⟨h1'.trans h1, h2'.trans h2⟩

theorem PairingRow.Follows.id (h : p.Follows q) : q.id = p.id := by
  have he := congrArg PairingRow.id h.opening
  exact he

theorem PairingRow.Follows.pending (h : p.Follows q) (hp : 1 ≤ p.state.rank) :
    q.pending = p.pending := by
  obtain ⟨h1, h2, h3⟩ := h.joined hp
  simp only [PairingRow.pending, h1, h2, h3]

def PairingRow.Advances (p q : PairingRow) : Prop := p.Follows q ∧ q.state.rank ≤ p.state.rank+1

theorem PairingRow.Advances.refl (p : PairingRow) : p.Advances p := ⟨.refl p, Nat.le_succ _⟩

theorem updatePairings_advances (db : RelayDB) (where_ : PairingRow → Bool)
    (set : PairingRow → PairingRow) (h : ∀ p, where_ p = true → p.Advances (set p)) :
    ∃ f : PairingRow → PairingRow, (db.updatePairings where_ set).pairings = db.pairings.map f ∧
      ∀ p : PairingRow, p.Advances (f p) := by
  refine ⟨fun p => if where_ p then set p else p, rfl, ?_⟩
  intro p
  simp only
  split_ifs with hw
  · exact h p hw
  · exact .refl p

theorem OpenOp.exec_advances (c : Crypto) (op : OpenOp) (moment : Moment) (db : RelayDB) :
    ∃ f : PairingRow → PairingRow, (op.exec c moment db).2.pairings = db.pairings.map f ∧
      ∀ p : PairingRow, p.Advances (f p) := by
  have hsame : ∃ f : PairingRow → PairingRow, db.pairings = db.pairings.map f ∧
      ∀ p : PairingRow, p.Advances (f p) := ⟨id, (map_id _).symm, .refl⟩
  rcases op.exec_cases c moment db with he | ⟨_, _, _, _, _, _, he⟩ |
    ⟨_, _, _, _, _, _, _, _, _, he⟩ | ⟨where_, _, _, _, hw, he⟩
  · rw [he]
    exact hsame
  · rw [he]
    exact hsame
  · rw [he]
    apply updatePairings_advances
    intro p hp
    -- The claim finds its pairing approved and writes the state alone.
    have hst : p.state = .approved := (of_decide_eq_true hp).2
    refine ⟨⟨rfl, by simp [hst, PairingState.rank], fun _ => ⟨rfl, rfl, rfl⟩, fun _ => ⟨rfl, rfl⟩⟩, ?_⟩
    simp [hst, PairingState.rank]
  · rw [he]
    apply updatePairings_advances
    intro p hp
    -- The join finds its pairing in the first state, where nothing is fixed yet.
    have hst : p.state.rank = 0 := by rw [hw p hp]; rfl
    exact ⟨⟨rfl, by omega, fun h => by omega, fun h => by omega⟩, by simp [PairingState.rank]⟩

/-- The pairing was opened by the answer: its id and secret went to the creator. -/
def PairingRow.OpenedBy (c : Crypto) (p : PairingRow) (e : RelayEvent) : Prop :=
  ∃ creator now secret x25519Key,
    e = .authed creator .createPairing now ⟨201, .pairing p.id secret x25519Key p.expiresAt⟩ ∧
    p.accountID = creator.accountID ∧ p.creatorDeviceID = creator.id ∧
    p.secretHash = digest c secret

/-- What a step does to the pairings: rows are advanced in place, and at most one
is added, under a fresh id, by the answer of this step. -/
theorem Relay.step_pairings {s s' : Relay} {a : RelayAction} (h : s.step c a = some s') :
    ∃ (f : PairingRow → PairingRow) (added : List PairingRow),
      s'.db.pairings = s.db.pairings.map f ++ added ∧ (∀ p : PairingRow, p.Advances (f p)) ∧
      added.length ≤ 1 ∧ ∀ q ∈ added, (∀ p ∈ s.db.pairings, p.id ≠ q.id) ∧
        ∃ e, s.answer c a = some e ∧ q.OpenedBy c e := by
  rcases Relay.step_cases h with ⟨_, _, _, _, hdb, _⟩ | ⟨i, moment, f, rfl, hf, hdb, _⟩ |
    ⟨op, moment, _, hdb, _⟩
  · exact ⟨id, [], by rw [hdb]; simp, .refl, by simp, by simp⟩
  · rcases f.op.exec_pairings c f.identity moment s.db with hsame |
      ⟨row, secret, hop, hfresh, hacc, hcreator, hsecret, _, he⟩ |
      ⟨_, _, where_, keyring, _, hw, he⟩
    · exact ⟨id, [], by rw [hdb, hsame]; simp, .refl, by simp, by simp⟩
    · refine ⟨id, [row], by rw [hdb, he]; simp, .refl, by simp, ?_⟩
      intro q hq
      rw [mem_singleton.mp hq]
      have hanswer : s.answer c (.run i moment) = some (.authed f.identity f.op moment.now
          (f.op.exec c f.identity moment s.db).1) := by
        simp only [Relay.answer, hf, map_some]
      exact ⟨hfresh, _, hanswer, f.identity, moment.now, secret, _, by rw [he, hop], hacc, hcreator,
        hsecret⟩
    · rw [hdb, he]
      obtain ⟨g, hg, hadv⟩ := updatePairings_advances s.db where_ (fun p => { p with
        state := .approved
        newDeviceID := randomID moment 0
        encryptedKeyring := keyring }) (fun p hp => by
          -- The approval finds its pairing joined; the pending columns stay.
          have hst : p.state.rank = 1 := by rw [(hw p hp).2]; rfl
          refine ⟨⟨rfl, ?_, fun _ => ⟨rfl, rfl, rfl⟩, fun h => by omega⟩, ?_⟩
          · change p.state.rank ≤ 2
            omega
          · change 2 ≤ p.state.rank+1
            omega)
      exact ⟨g, [], by rw [hg, append_nil], hadv, by simp, by simp⟩
  · obtain ⟨g, hg, hadv⟩ := op.exec_advances c moment s.db
    exact ⟨g, [], by rw [hdb, hg, append_nil], hadv, by simp, by simp⟩

variable {pairingID : Bytes}

theorem getPairing_detail {identity : DeviceIdentity} {id : Bytes} {moment : Moment} {db : RelayDB}
    {status : ℕ} {state : PairingState} {expiresAt : ℤ} {expired : Bool}
    {pending : Option DeviceRegistration} (h : getPairing identity pairingID moment db =
      ⟨status, .pairingDetail id state expiresAt expired pending⟩) :
    ∃ p ∈ db.pairings, p.id = pairingID ∧ p.accountID = identity.accountID ∧
      p.creatorDeviceID = identity.id ∧ p.state = state ∧ p.pending = pending := by
  unfold getPairing at h
  split at h
  · simp [writeError] at h
  · rename_i p hp
    have hw : p.id = pairingID ∧ p.accountID = identity.accountID ∧
        p.creatorDeviceID = identity.id := by simpa using find?_some hp
    simp only [Reply.mk.injEq, Body.pairingDetail.injEq] at h
    exact ⟨p, mem_of_find?_eq_some hp, hw.1, hw.2.1, hw.2.2, h.2.2.1, h.2.2.2.2.2⟩

/-- A claim is refused and changes nothing, or it inserts the device of an approved
pairing whose secret was presented in time. -/
theorem claimPairing_cases (c : Crypto) (pairingID secret : Bytes) (moment : Moment)
    (db : RelayDB) :
    ((claimPairing c pairingID secret moment db).1.status ≠ 201 ∧
      (claimPairing c pairingID secret moment db).2 = db) ∨
    (∃ p ∈ db.pairings, ∃ token, p.id = pairingID ∧ p.state = .approved ∧
      moment.now < p.expiresAt ∧ p.secretHash = digest c secret ∧
      claimPairing c pairingID secret moment db =
        (⟨201, .claimed p.accountID p.newDeviceID token (base64Encode p.encryptedKeyring)⟩,
          RelayDB.updatePairings { db with devices := db.devices ++ [p.device c token moment.now] }
            (fun q => q.id = pairingID ∧ q.state = .approved)
            (fun q => { q with state := .claimed, claimedAt := some moment.now }))) := by
  unfold claimPairing
  split
  · exact .inl ⟨by simp [writeError], rfl⟩
  rename_i p hp
  have hw : p.id = pairingID ∧ p.state = .approved := by simpa using find?_some hp
  split_ifs with hbad
  · exact .inl ⟨by simp [writeError], rfl⟩
  push Not at hbad
  simp only
  split
  · exact .inl ⟨by simp [writeError], rfl⟩
  · rename_i db' hins
    obtain ⟨_, rfl⟩ := insertDevice_some hins
    exact .inr ⟨p, mem_of_find?_eq_some hp, _, hw.1, hw.2, hbad.1, hbad.2, rfl⟩

def RelayEvent.claims (pairingID : Bytes) : RelayEvent → Bool
  | .opened (.claimPairing id _) _ reply => id = pairingID ∧ reply.status = 201
  | _ => false

theorem claims_cases {e : RelayEvent} (h : e.claims pairingID = true) :
    ∃ secret now reply, e = .opened (.claimPairing pairingID secret) now reply ∧
      reply.status = 201 := by
  unfold RelayEvent.claims at h
  split at h
  · rename_i id secret now reply
    obtain ⟨rfl, hstatus⟩ := of_decide_eq_true h
    exact ⟨secret, now, reply, rfl, hstatus⟩
  · simp at h

variable {reply : Reply}

theorem answer_claim {s : Relay} {a : RelayAction} {secret : Bytes} {now : ℤ}
    (h : s.answer c a = some (.opened (.claimPairing pairingID secret) now reply)) :
    ∃ moment, a = .serve (.claimPairing pairingID secret) moment ∧ now = moment.now ∧
      reply = (claimPairing c pairingID secret moment s.db).1 := by
  cases a with
  | arrive header op call | run i moment => simp [Relay.answer] at h
  | serve op moment =>
    simp only [Relay.answer, some.injEq, RelayEvent.opened.injEq] at h
    obtain ⟨rfl, rfl, rfl⟩ := h
    exact ⟨moment, rfl, rfl, rfl⟩

theorem answer_authed {s : Relay} {a : RelayAction} {identity : DeviceIdentity} {op : AuthOp}
    {now : ℤ} (h : s.answer c a = some (.authed identity op now reply)) :
    ∃ moment, reply = (op.exec c identity moment s.db).1 := by
  cases a with
  | arrive header op call | serve op moment => simp [Relay.answer] at h
  | run i moment =>
    obtain ⟨f, _, hf⟩ := map_eq_some_iff.mp h
    simp only [RelayEvent.authed.injEq] at hf
    obtain ⟨rfl, rfl, _, rfl⟩ := hf
    exact ⟨moment, rfl⟩

/-! What the tables say about an answer, and that no later step takes it back. -/

/-- The pairing is in the table as its creator was shown it, joined or further on. -/
def LoggedRelay.Shows (s : LoggedRelay) (viewer : DeviceIdentity) (pairingID : Bytes)
    (pending : Option DeviceRegistration) : Prop :=
  ∃ p ∈ s.relay.db.pairings, p.id = pairingID ∧ p.accountID = viewer.accountID ∧
    p.creatorDeviceID = viewer.id ∧ 1 ≤ p.state.rank ∧ p.pending = pending

/-- The pairing is claimed with this reply and its device is in the table. -/
def LoggedRelay.HasClaim (c : Crypto) (s : LoggedRelay) (pairingID secret : Bytes) (now : ℤ)
    (reply : Reply) : Prop :=
  ∃ p ∈ s.relay.db.pairings, ∃ token, p.id = pairingID ∧ p.state = .claimed ∧ now < p.expiresAt ∧
    p.secretHash = digest c secret ∧
    reply.body = .claimed p.accountID p.newDeviceID token (base64Encode p.encryptedKeyring) ∧
    ∃ row ∈ s.relay.db.devices, row.fixed = (p.device c token now).fixed

structure LoggedRelay.Grows (s s' : LoggedRelay) : Prop where
  rows : ∀ p ∈ s.relay.db.pairings, ∃ q ∈ s'.relay.db.pairings, p.Follows q
  devices : ∀ r ∈ s.relay.db.devices, ∃ r' ∈ s'.relay.db.devices, r'.fixed = r.fixed
  log : s.log ⊆ s'.log

theorem LoggedRelay.step_advances (h : s.step c a = some s') (hp : p ∈ s.relay.db.pairings) :
    ∃ q ∈ s'.relay.db.pairings, p.Advances q := by
  obtain ⟨f, added, hpairings, hadv, _, _⟩ := Relay.step_pairings (s.step_some s' a h).1
  refine ⟨f p, ?_, hadv p⟩
  rw [hpairings]
  exact mem_append_left _ (mem_map_of_mem hp)

theorem LoggedRelay.step_grows (h : s.step c a = some s') : s.Grows s' := by
  obtain ⟨hstep, hlog⟩ := s.step_some s' a h
  obtain ⟨g, added, hdevices, hfixed, _, _⟩ := Relay.step_devices hstep
  refine ⟨?_, ?_, ?_⟩
  · intro p hp
    obtain ⟨q, hq, hadv⟩ := s.step_advances s' a h hp
    exact ⟨q, hq, hadv.1⟩
  · intro r hr
    refine ⟨g r, ?_, hfixed r⟩
    rw [hdevices]
    exact mem_append_left _ (mem_map_of_mem hr)
  · rw [hlog]
    exact subset_append_left _ _

theorem LoggedRelay.Grows.shows {s s' : LoggedRelay} (h : s.Grows s') {viewer : DeviceIdentity}
    {pending : Option DeviceRegistration} (hs : s.Shows viewer pairingID pending) :
    s'.Shows viewer pairingID pending := by
  obtain ⟨p, hp, hid, hacc, hcreator, hrank, hpend⟩ := hs
  obtain ⟨q, hq, hfollows⟩ := h.rows p hp
  refine ⟨q, hq, hfollows.id.trans hid, ?_, ?_, hrank.trans hfollows.state,
    (hfollows.pending hrank).trans hpend⟩
  · exact (congrArg PairingRow.accountID hfollows.opening).trans hacc
  · exact (congrArg PairingRow.creatorDeviceID hfollows.opening).trans hcreator

theorem LoggedRelay.Grows.hasClaim {s s' : LoggedRelay} (h : s.Grows s') {secret : Bytes} {now : ℤ}
    (hs : s.HasClaim c pairingID secret now reply) : s'.HasClaim c pairingID secret now reply := by
  obtain ⟨p, hp, token, hid, hst, hexp, hsecret, hbody, row, hr, hfix⟩ := hs
  obtain ⟨q, hq, hfollows⟩ := h.rows p hp
  obtain ⟨row', hr', hfix'⟩ := h.devices row hr
  have hrank : p.state.rank = 3 := by rw [hst]; rfl
  have hclaimed : q.state = .claimed := by
    have hle : 3 ≤ q.state.rank := hrank ▸ hfollows.state
    cases hq : q.state <;> simp [hq, PairingState.rank] at hle ⊢
  -- Everything the device row was made of is fixed by now.
  obtain ⟨hname, hed, hx⟩ := hfollows.joined (by omega)
  obtain ⟨hnew, hring⟩ := hfollows.approved (by omega)
  have hopening := hfollows.opening
  simp only [PairingRow.opening, PairingRow.mk.injEq, true_and, and_true] at hopening
  obtain ⟨hid', hacc, _, hsecret', hexp'⟩ := hopening
  have hdevice : q.device c token now = p.device c token now := by
    simp only [PairingRow.device, hname, hed, hx, hnew, hacc]
  refine ⟨q, hq, token, hid'.trans hid, hclaimed, by rwa [hexp'], hsecret'.trans hsecret,
    by rw [hacc, hnew, hring]; exact hbody, row', hr', ?_⟩
  rw [hfix', hfix, hdevice]

structure PairingInv (c : Crypto) (s : LoggedRelay) : Prop where
  ids : (s.relay.db.pairings.map (·.id)).Nodup
  opened : ∀ p ∈ s.relay.db.pairings, ∃ e ∈ s.log, p.OpenedBy c e
  shown : ∀ viewer pairingID now id expiresAt expired pending,
    .authed viewer (.getPairing pairingID) now
      ⟨200, .pairingDetail id .joined expiresAt expired pending⟩ ∈ s.log →
    s.Shows viewer pairingID pending
  claimed : ∀ pairingID secret now reply,
    .opened (.claimPairing pairingID secret) now reply ∈ s.log → reply.status = 201 →
    s.HasClaim c pairingID secret now reply
  once : ∀ pairingID, s.log.countP (RelayEvent.claims pairingID) ≤ 1

theorem PairingInv.empty (c : Crypto) : PairingInv c .empty where
  ids := nodup_nil
  opened := by simp [LoggedRelay.empty, Relay.empty, RelayDB.empty]
  shown := by simp [LoggedRelay.empty]
  claimed := by simp [LoggedRelay.empty]
  once := by simp [LoggedRelay.empty]

section Step

variable {s s' a}

theorem PairingInv.unique (hs : PairingInv c s) (hp : p ∈ s.relay.db.pairings)
    (hq : q ∈ s.relay.db.pairings) (h : p.id = q.id) : p = q :=
  inj_on_of_nodup_map hs.ids hp hq h

theorem PairingInv.opened_step (hs : PairingInv c s) (h : s.step c a = some s')
    (hq : q ∈ s'.relay.db.pairings) : ∃ e ∈ s'.log, q.OpenedBy c e := by
  obtain ⟨hstep, hlog⟩ := s.step_some s' a h
  obtain ⟨f, added, hpairings, hadv, _, hadded⟩ := Relay.step_pairings hstep
  rw [hpairings] at hq
  rcases mem_append.mp hq with hq | hq
  · obtain ⟨p, hp, rfl⟩ := mem_map.mp hq
    obtain ⟨e, he, creator, now, secret, x, rfl, hacc, hcreator, hsecret⟩ := hs.opened p hp
    have hopening := (hadv p).1.opening
    simp only [PairingRow.opening, PairingRow.mk.injEq, true_and, and_true] at hopening
    obtain ⟨hid, hacc', hcreator', hsecret', hexp⟩ := hopening
    exact ⟨_, (s.step_grows s' a h).log he, creator, now, secret, x, by rw [hid, hexp],
      hacc'.trans hacc, hcreator'.trans hcreator, hsecret'.trans hsecret⟩
  · obtain ⟨_, e, he, hopen⟩ := hadded q hq
    refine ⟨e, ?_, hopen⟩
    rw [hlog, he]
    simp

theorem shows_of_answer {viewer : DeviceIdentity} {id : Bytes} {now expiresAt : ℤ}
    {expired : Bool} {pending : Option DeviceRegistration}
    (h : s.relay.answer c a = some (.authed viewer (.getPairing pairingID) now
      ⟨200, .pairingDetail id .joined expiresAt expired pending⟩)) :
    s.Shows viewer pairingID pending := by
  obtain ⟨moment, hreply⟩ := answer_authed h
  obtain ⟨p, hp, hid, hacc, hcreator, hst, hpend⟩ :=
    getPairing_detail hreply.symm
  exact ⟨p, hp, hid, hacc, hcreator, by simp [hst, PairingState.rank], hpend⟩

theorem hasClaim_of_answer (h : s.step c a = some s') {secret : Bytes} {now : ℤ}
    {reply : Reply}
    (he : s.relay.answer c a = some (.opened (.claimPairing pairingID secret) now reply))
    (hstatus : reply.status = 201) : s'.HasClaim c pairingID secret now reply := by
  obtain ⟨moment, rfl, rfl, rfl⟩ := answer_claim he
  have hdb : s'.relay.db = (claimPairing c pairingID secret moment s.relay.db).2 := by
    rw [← some.inj (s.step_some s' _ h).1]
    rfl
  rcases claimPairing_cases c pairingID secret moment s.relay.db with ⟨hno, _⟩ |
    ⟨p, hp, token, hid, hst, hexp, hsecret, hclaim⟩
  · exact absurd hstatus hno
  · rw [hclaim] at hdb
    refine ⟨{ p with state := .claimed, claimedAt := some moment.now }, ?_, token, hid, rfl, hexp,
      hsecret, by rw [hclaim], p.device c token moment.now, ?_, rfl⟩
    · rw [hdb]
      refine mem_map.mpr ⟨p, hp, ?_⟩
      rw [if_pos (decide_eq_true ⟨hid, hst⟩)]
    · rw [hdb]
      exact mem_append_right _ (mem_singleton.mpr rfl)

theorem PairingInv.no_second_claim (hs : PairingInv c s) {e : RelayEvent}
    (he : s.relay.answer c a = some e) (hclaims : e.claims pairingID = true) :
    s.log.countP (RelayEvent.claims pairingID) = 0 := by
  rw [countP_eq_zero]
  intro old hold holdclaims
  obtain ⟨secret, now, reply, rfl, hstatus⟩ := claims_cases holdclaims
  obtain ⟨p, hp, _, hid, hst, _⟩ := hs.claimed pairingID secret now reply hold hstatus
  obtain ⟨secret', now', reply', rfl, hstatus'⟩ := claims_cases hclaims
  obtain ⟨moment, _, _, rfl⟩ := answer_claim he
  rcases claimPairing_cases c pairingID secret' moment s.relay.db with ⟨hno, _⟩ |
    ⟨q, hq, _, hid', hst', _⟩
  · exact hno hstatus'
  · rw [hs.unique hq hp (hid'.trans hid.symm), hst] at hst'
    simp at hst'

theorem PairingInv.step (hs : PairingInv c s) (h : s.step c a = some s') : PairingInv c s' := by
  have hgrows := s.step_grows s' a h
  refine ⟨?_, fun q hq => hs.opened_step h hq, ?_, ?_, ?_⟩
  · obtain ⟨f, added, hpairings, hadv, hlen, hadded⟩ :=
      Relay.step_pairings (s.step_some s' a h).1
    rw [hpairings]
    exact nodup_column (·.id) f (fun p => (hadv p).1.id) hlen
      (fun q hq p hp => (hadded q hq).1 p hp) hs.ids
  · intro viewer pairingID now id expiresAt expired pending he
    apply hgrows.shows
    rcases s.mem_log s' a h he with he | he
    · exact hs.shown viewer pairingID now id expiresAt expired pending he
    · exact shows_of_answer he
  · intro pairingID secret now reply he hstatus
    rcases s.mem_log s' a h he with he | he
    · exact hgrows.hasClaim (hs.claimed pairingID secret now reply he hstatus)
    · exact hasClaim_of_answer h he hstatus
  · intro pairingID
    have hone := hs.once pairingID
    rw [(s.step_some s' a h).2, countP_append]
    cases hans : s.relay.answer c a with
    | none => simpa using hone
    | some e =>
      by_cases hclaims : e.claims pairingID = true
      · have hzero := hs.no_second_claim hans hclaims
        simp [hzero, hclaims]
      · simpa [hclaims] using hone

end Step

/-- What holds in every state of a relay that has answered the requests of its log. -/
structure PairingAgreement (c : Crypto) (s : LoggedRelay) : Prop where
  /-- One step moves a pairing to the next state at most; what was written at the
  creation, the join and the approval stays. -/
  forward : ∀ a s', s.step c a = some s' → ∀ p ∈ s.relay.db.pairings,
    ∃ q ∈ s'.relay.db.pairings, p.Advances q
  /-- And so it is along every further run. -/
  later : ∀ actions t, Runs.run (LoggedRelay.step c) s actions = some t →
    ∀ p ∈ s.relay.db.pairings, ∃ q ∈ t.relay.db.pairings, p.Follows q
  /-- The table has one row for a pairing. -/
  ids : (s.relay.db.pairings.map (·.id)).Nodup
  /-- A claim adds one device and answers 201, or adds none. -/
  claim : ∀ pairingID secret moment s',
    s.step c (.serve (.claimPairing pairingID secret) moment) = some s' →
    ((s'.log = s.log ++ [.opened (.claimPairing pairingID secret) moment.now
        (claimPairing c pairingID secret moment s.relay.db).1] ∧
      (claimPairing c pairingID secret moment s.relay.db).1.status = 201 ∧
      ∃ row, s'.relay.db.devices = s.relay.db.devices ++ [row]) ∨
      s'.relay.db.devices = s.relay.db.devices)
  /-- At most one of them does the former. -/
  once : ∀ pairingID, s.log.countP (RelayEvent.claims pairingID) ≤ 1
  /-- The device is the one the creator was shown, and the claimant knew the secret
  and was in time. -/
  agreed : ∀ viewer pairingID now id expiresAt expired keys secret claimedAt reply,
    .authed viewer (.getPairing pairingID) now
      ⟨200, .pairingDetail id .joined expiresAt expired (some keys)⟩ ∈ s.log →
    .opened (.claimPairing pairingID secret) claimedAt reply ∈ s.log → reply.status = 201 →
    ∃ row ∈ s.relay.db.devices, ∃ token keyring,
      reply.body = .claimed row.accountID row.id token keyring ∧
      base64Encode row.ed25519PublicKey = keys.ed25519PublicKey ∧
      base64Encode row.x25519PublicKey = keys.x25519PublicKey ∧
      ∃ creator created pairingSecret x25519Key deadline,
        .authed creator .createPairing created
          ⟨201, .pairing pairingID pairingSecret x25519Key deadline⟩ ∈ s.log ∧
        creator.accountID = viewer.accountID ∧ creator.id = viewer.id ∧
        row.accountID = creator.accountID ∧ digest c secret = digest c pairingSecret ∧
        claimedAt < deadline

/-- For any parties and any order of their requests. -/
theorem pairing_agreement (c : Crypto) (actions : List RelayAction) (s : LoggedRelay)
    (hs : Runs.run (LoggedRelay.step c) .empty actions = some s) : PairingAgreement c s := by
  have hinv : PairingInv c s :=
    Runs.run_invariant (PairingInv c) (fun _ _ _ hi h => hi.step h) (.empty c) hs
  refine ⟨?_, ?_, hinv.ids, ?_, hinv.once, ?_⟩
  · intro a s' h p hp
    exact s.step_advances s' a h hp
  · intro actions t ht
    refine Runs.run_relation (fun _ => True) (fun u v => ∀ p ∈ u.relay.db.pairings,
      ∃ q ∈ v.relay.db.pairings, p.Follows q) (fun u p hp => ⟨p, hp, .refl p⟩) ?_ ?_ trivial ht
    · intro u v w huv hvw p hp
      obtain ⟨q, hq, hpq⟩ := huv p hp
      obtain ⟨r, hr, hqr⟩ := hvw q hq
      exact ⟨r, hr, hpq.trans hqr⟩
    · intro u a v _ h
      exact ⟨trivial, (u.step_grows v a h).rows⟩
  · intro pairingID secret moment s' h
    obtain ⟨hstep, hlog⟩ := s.step_some s' _ h
    have hdb : s'.relay.db = (claimPairing c pairingID secret moment s.relay.db).2 := by
      rw [← some.inj hstep]
      rfl
    rcases claimPairing_cases c pairingID secret moment s.relay.db with ⟨_, hsame⟩ |
      ⟨p, _, token, _, _, _, _, hclaim⟩
    · exact Or.inr (by rw [hdb, hsame])
    · exact Or.inl ⟨hlog, by rw [hclaim], p.device c token moment.now, by rw [hdb, hclaim]; rfl⟩
  · intro viewer pairingID now id expiresAt expired keys secret claimedAt reply hshown hclaim hstatus
    obtain ⟨p, hp, hid, hacc, hcreator, _, hpend⟩ := hinv.shown _ _ _ _ _ _ _ hshown
    obtain ⟨q, hq, token, hid', _, hexp, hsecret, hbody, row, hr, hfix⟩ :=
      hinv.claimed _ _ _ _ hclaim hstatus
    -- The pairing that was shown and the one that was claimed are one row.
    obtain rfl : q = p := hinv.unique hq hp (hid'.trans hid.symm)
    obtain ⟨e, he, creator, created, pairingSecret, x, rfl, hacc', hcreator', hsecret'⟩ :=
      hinv.opened q hq
    have hkeys : base64Encode q.pendingEd25519PublicKey = keys.ed25519PublicKey ∧
        base64Encode q.pendingX25519PublicKey = keys.x25519PublicKey := by
      unfold PairingRow.pending at hpend
      split_ifs at hpend
      cases hpend
      exact ⟨rfl, rfl⟩
    simp only [DeviceRow.fixed, PairingRow.device, DeviceRow.mk.injEq] at hfix
    obtain ⟨hrow, hrowacc, _, _, hed, hx, _⟩ := hfix
    refine ⟨row, hr, token, _, by rw [hbody, hrow, hrowacc], by rw [hed, hkeys.1], by rw [hx, hkeys.2],
      creator, created, pairingSecret, x, q.expiresAt, hid ▸ he, hacc'.symm.trans hacc,
      hcreator'.symm.trans hcreator, hrowacc.trans hacc', hsecret.symm.trans hsecret', hexp⟩

/-- A pairing that its creator looks at, approves and that is then claimed. -/
theorem pairing_agreement_claimed : ∃ s : LoggedRelay,
    Runs.run (LoggedRelay.step sampleCrypto) .empty (sampleSetup ++ sampleApproval.take 3 ++
      [.arrive firstHeader (.getPairing samplePairing) none, .run 0 (sampleMoment 0)] ++
      sampleApproval.drop 3 ++
      [.serve (.claimPairing samplePairing sampleSecret) (sampleMoment 50),
        .serve (.claimPairing samplePairing sampleSecret) (sampleMoment 60)]) = some s ∧
    s.log.countP (RelayEvent.claims samplePairing) = 1 ∧ PairingAgreement sampleCrypto s := by
  apply Runs.exists_some (fun s => s.log.countP (RelayEvent.claims samplePairing) = 1)
    (by decide +kernel)
  intro s hs h
  exact ⟨h, pairing_agreement sampleCrypto _ s hs⟩

end YunPin
