import YunPin.CommitSafety
import YunPin.StoreInvariant

/-! The store of a device that runs one worker at a time, along every run. The
handle's mutex keeps local operations out of a merge, so a merge writes over the
record it has read; what the worker uploads are fit records of the outbox, and
whoever has the keys gets them back from the relay. -/
namespace YunPin
open ByteText List

/-- The reader is on the account of the writer and has its keys. -/
structure Session.Trusts (c : Crypto) (reader writer : Session) : Prop where
  account : reader.accountID = writer.accountID
  epoch : reader.epochKey writer.keyEpoch = writer.epochKey writer.keyEpoch
  verification : reader.verificationKey (hexEncode writer.deviceID) =
    c.edPublic writer.signingPrivate

theorem Session.trusts_self {c : Crypto} {session : Session} (h : session.validate c = .ok ()) :
    session.Trusts c session :=
  ⟨rfl, rfl, (session.validate_ok h).2.1⟩

theorem decodeDownload_sealed {x : Externals} (hx : x.Laws) {store : Store}
    {reader writer : Session} (ht : reader.Trusts x.crypto writer) {event : PendingEvent}
    (hg : event.phrase.Good x store event.objectID) {u : PreparedUpload}
    (hs : Seals x writer event u) {row : EnvelopeRow} (hh : Holds row u)
    (hd : row.deviceID = hexEncode writer.deviceID) :
    row.objectID = event.objectID.val ∧
      decodeDownload x reader row.outgoing = .ok event.phrase.payload := by
  obtain ⟨state, random, hseal⟩ := hs
  obtain ⟨e, he, hwire, _, _, _, _⟩ := sealUpload_ok hseal
  obtain ⟨payload, hpayload, hsealed⟩ := sealEnvelope_ok he
  obtain rfl : payload = event.phrase.payload :=
    Except.ok.inj (hpayload.symm.trans (event.protocolPayload_good hg))
  obtain ⟨plain, _, hkey, hv, hheader, _, _⟩ := protocolSeal_facts hsealed
  have hbody := protocolSeal_body hx.crypto hsealed
  have hacc : e.header.accountID = writer.accountID := by rw [hheader]; rfl
  have hdev : e.header.deviceID = writer.deviceID := by rw [hheader]; rfl
  have hobj : e.header.objectID = event.objectID.val := by rw [hheader]; rfl
  have hepoch : e.header.keyEpoch = writer.keyEpoch := by rw [hheader]; rfl
  have hout : row.outgoing = e.wireFields (hexEncode e.header.deviceID) row.cursor := by
    rw [hh.2.2, toWire_eq_wireFields hwire, hd, hdev]
    rfl
  refine ⟨?_, ?_⟩
  · have hid : hexEncode row.objectID = hexEncode e.header.objectID :=
      congrArg WireEnvelope.objectID hout
    rw [← hobj]
    exact hexEncode_injective hid
  -- The reader finds the writer's keys and opens what was sealed.
  · have hread : envelopeFromDownload reader.accountID row.outgoing = .ok e := by
      rw [hout, ht.account, ← hacc]
      exact envelopeFromDownload_wireFields hv hbody
    have hver : reader.verificationKey row.outgoing.deviceID =
        x.crypto.edPublic writer.signingPrivate := by
      rw [hout, hdev]
      exact ht.verification
    have hek : reader.epochKey row.outgoing.keyEpoch = writer.epochKey writer.keyEpoch := by
      rw [hout]
      change reader.epochKey e.header.keyEpoch = _
      rw [hepoch]
      exact ht.epoch
    have hlen : (x.crypto.edPublic writer.signingPrivate).length = 32 :=
      hx.crypto.edPublic_length _
    have hlen' : (writer.epochKey writer.keyEpoch).length = 32 := hkey
    unfold decodeDownload
    simp only [hread, hver, hek, hlen, hlen', ne_eq, not_true_eq_false, if_false]
    refine protocolOpen_protocolSeal hx.crypto hsealed ?_
    apply hx.cbor.unmarshal_marshal _ hg.payload_validText
    obtain ⟨c, hc, _⟩ := hg.state.counts
    simp [Phrase.payload, hc]

structure Merge.Ready (x : Externals) (store : Store) (db : LocalDB) (m : Merge) : Prop where
  identity : store.objectID x m.payload.text m.payload.pinyin = .ok m.id
  state : m.payload.state.Good m.id
  text : m.payload.validText = true
  read : m.existing = db.phrases.find? m.id

def MergeStage.Ready (x : Externals) (store : Store) (db : LocalDB) : MergeStage → Prop
  | .loaded m | .migrated m => m.Ready x store db
  | .observed m record => m.Ready x store db ∧ m.record x store = .ok record ∧ record.Within db

def Phase.Ready (x : Externals) (cfg : HostConfig) (db : LocalDB) : Phase → Prop
  | .loaded _ => cfg.session.validate x.crypto = .ok ()
  | .sealed event _ => cfg.session.validate x.crypto = .ok () ∧
      event.phrase.Good x cfg.store event.objectID
  | .merging _ _ payloads => ∀ p ∈ payloads, p.validText = true
  | .inMerge _ _ stage rest => stage.Ready x cfg.store db ∧ ∀ p ∈ rest, p.validText = true
  | _ => True

variable {x : Externals} {cfg : HostConfig} {h : Host Unit}

theorem Phase.Ready.unlocked {db : LocalDB} {phase : Phase} (h : phase.Ready x cfg db)
    (hl : phase.locked = false) (db' : LocalDB) : phase.Ready x cfg db' := by
  cases phase with
  | inMerge => simp [Phase.locked] at hl
  | _ => exact h

/-- What holds of a device in every state of a run. -/
structure HostInv (x : Externals) (cfg : HostConfig) (h : Host Unit) : Prop where
  store : StoreInv x cfg.store h.db
  phase : (h.phase ()).Ready x cfg h.db
  staged : ∀ upload event, Event.staged upload event ∈ h.history →
    cfg.session.validate x.crypto = .ok () ∧ event.phrase.Good x cfg.store event.objectID

theorem HostInv.initial {deviceID : Bytes} (hdb : h.db = .bound deviceID)
    (hidle : ∀ i, h.phase i = .idle) (hh : h.history = []) : HostInv x cfg h := by
  refine ⟨?_, ?_, by simp [hh]⟩
  · rw [hdb]
    exact .empty x cfg.store _
  · rw [hidle]
    trivial

theorem HostInv.host_step (hi : HostInv x cfg h) (i : Unit) {db' : LocalDB} {phase' : Phase}
    {events : List Event} (hstore : StoreInv x cfg.store db') (hphase : phase'.Ready x cfg db')
    (hevents : ∀ upload event, Event.staged upload event ∈ events →
      cfg.session.validate x.crypto = .ok () ∧ event.phrase.Good x cfg.store event.objectID) :
    HostInv x cfg ⟨db', Function.update h.phase i phase', h.history ++ events⟩ := by
  refine ⟨hstore, ?_, ?_⟩
  · simp only [Function.update_self]
    exact hphase
  · intro upload event he
    rcases mem_append.mp he with he | he
    · exact hi.staged upload event he
    · exact hevents upload event he

theorem HostInv.worker_step (hi : HostInv x cfg h) {a : WorkerAction} {phase : Phase}
    (hph : h.phase () = phase) {db' : LocalDB} {phase' : Phase} {events : List Event}
    (hm : WorkerMove x cfg h.db a phase db' phase' events) :
    StoreInv x cfg.store db' ∧ phase'.Ready x cfg db' ∧
      ∀ upload event, Event.staged upload event ∈ events →
        cfg.session.validate x.crypto = .ok () ∧
          event.phrase.Good x cfg.store event.objectID := by
  have hready := hi.phase
  rw [hph] at hready
  have hsync (row : Option SyncState) : StoreInv x cfg.store { h.db with syncState := row } :=
    ⟨⟨hi.store.fit.records, hi.store.fit.outbox⟩, hi.store.wall, hi.store.within, hi.store.below⟩
  cases hm with
  | stop | keep | restage | reload => exact ⟨hi.store, trivial, by simp⟩
  | load state hv => exact ⟨hi.store, hv, by simp⟩
  | seal_ state event rest random upload _ he =>
    obtain ⟨r, hr, rfl⟩ := pendingEvents_mem he mem_cons_self
    exact ⟨hi.store, ⟨hready, hi.store.fit.outbox r hr⟩, by simp⟩
  | stage event upload row =>
    refine ⟨hsync _, trivial, ?_⟩
    intro u e he
    obtain ⟨rfl, rfl⟩ := Event.staged.inj (mem_singleton.mp he)
    exact hready
  | mergeLoad state next payload rest m hload =>
    obtain ⟨hpay, hid, hgood, hread, hex⟩ := mergeLoad_ok hload
    refine ⟨hi.store, ⟨⟨hpay ▸ hid, hpay ▸ hgood, ?_, hex.trans hread⟩, ?_⟩, by simp⟩
    · rw [hpay]
      exact hready payload mem_cons_self
    · exact (forall_mem_cons.mp hready).2
  | migrateFail state next m rest now e _ hmig =>
    -- Records of a sound store have their state, so there is nothing to migrate.
    rw [hi.store.fit.migrated.migrate_eq cfg.store now hready.1.read] at hmig
    simp at hmig
  | migrate state next m m' rest now _ hmig =>
    rw [hi.store.fit.migrated.migrate_eq cfg.store now hready.1.read] at hmig
    obtain ⟨hm', rfl⟩ := Prod.mk.inj hmig
    cases hm'
    exact ⟨hi.store, hready, by simp⟩
  | observe state next m record rest hrec =>
    obtain ⟨hwithin, hle⟩ := observeHLC_facts (latestClock record) h.db
    have hrows := observeHLC_sameRows (latestClock record) h.db
    have hm := hready.1
    refine ⟨hi.store.tick hrows hle, ⟨⟨⟨hm.identity, hm.state, hm.text, ?_⟩, hrec, ?_⟩, hready.2⟩,
      by simp⟩
    · rw [hrows.phrases]
      exact hm.read
    · exact ⟨hwithin.of_le (le_latestClock record).1, hwithin.of_le (le_latestClock record).2⟩
  | write state next m record rest id hid =>
    -- The merged record is filed under the object of the payload.
    obtain ⟨⟨hm, hrec, hwithin⟩, hrest⟩ := hready
    obtain ⟨_, _, _, _, hown, _, _⟩ := merge_record_ok hm.state hrec
    obtain rfl : id = m.id := Except.ok.inj (hid.symm.trans hown)
    exact ⟨hi.store.merge_write hm.state hm.text hm.read hrec hwithin, hrest, by simp⟩
  | commit state next loaded upload row => exact ⟨hi.store.committed row upload, trivial, by simp⟩
  | advance => exact ⟨hsync _, trivial, by simp⟩

section
variable {κ : Type}

def Action.mutationOn [DecidableEq κ] {ι : Type} (k : κ) : Action κ ι → Option Mutation
  | .mutate k' _ m _ => if k' = k then some m else none
  | _ => none

/-- The runs in question: the clock of the device stays below the largest wall time,
and no selection brings a replicated state. -/
def InScope [DecidableEq κ] (k : κ) (s : System κ Unit) (a : Action κ Unit) : Prop :=
  (s.hosts k).db.hlcWall < maxInt64 ∧ ∀ m ∈ a.mutationOn k, m.bringsState = false

def KeepsObjectOn [DecidableEq κ] (x : Externals) (cfg : κ → HostConfig) (k : κ)
    (s : System κ Unit) (a : Action κ Unit) : Prop :=
  InScope k s a ∧ ∀ m ∈ a.mutationOn k, m.KeepsObject x (cfg k).store

instance [DecidableEq κ] (k : κ) (s : System κ Unit) (a : Action κ Unit) :
    Decidable (InScope k s a) := inferInstanceAs (Decidable (_ ∧ _))

instance [DecidableEq κ] (x : Externals) (cfg : κ → HostConfig) (k : κ) (s : System κ Unit)
    (a : Action κ Unit) : Decidable (KeepsObjectOn x cfg k s a) :=
  inferInstanceAs (Decidable (_ ∧ _))

theorem HostInv.step [DecidableEq κ] [Fintype κ] (hx : x.Laws) (cfg : κ → HostConfig) {k : κ}
    (hd : validSyncDeviceID (cfg k).store.deviceID = true) {s s' : System κ Unit}
    {a : Action κ Unit} (hi : HostInv x (cfg k) (s.hosts k)) (hp : KeepsObjectOn x cfg k s a)
    (h : s.step x cfg a = some s') : HostInv x (cfg k) (s'.hosts k) := by
  apply System.host_preserved h (HostInv x (cfg k)) hi
  · intro i db' phase' events hm
    cases hm with
    | mutate m now hl =>
      have hmem : m ∈ (Action.mutate k i m now).mutationOn k := by simp [Action.mutationOn]
      have hstore := hi.store.mutation hd hp.1.1 (hp.2 m hmem) (hp.1.2 m hmem)
        (m.exec_move x (cfg k).store now (s.hosts k).db)
      apply hi.host_step i hstore (hi.phase.unlocked hl _)
      intro upload event he
      rcases writeEvents_eq x (cfg k).store (m.exec x (cfg k).store now (s.hosts k).db).1 with
        hw | ⟨_, _, _, hw⟩ <;> simp [hw] at he
    | tick now hl =>
      obtain ⟨_, _, hle⟩ := nextHLC_facts (cfg k).store now hi.store.wall hp.1.1
      exact hi.host_step i (hi.store.tick (nextHLC_sameRows _ _ _) hle)
        (hi.phase.unlocked hl _) (by simp)
    | worker wa _ _ _ hw =>
      obtain ⟨hstore, hphase, hevents⟩ := hi.worker_step rfl hw
      exact hi.host_step i hstore hphase hevents
    | giveUp => exact hi.host_step i hi.store trivial (by simp)
    | receive n state call reply _ _ =>
      apply hi.host_step i hi.store ?_ (by simp)
      rcases onReply_cases x (cfg k).session state reply with he | ⟨response, payloads, _, _,
        hdec, he⟩
      · rw [he]
        trivial
      · rw [he]
        intro p hp
        obtain ⟨wire, _, hwire⟩ := mem_decodeDownloads hdec hp
        exact decodeDownload_validText hx hwire
  · intro i state _
    exact hi.host_step i hi.store trivial (by simp)

end

end YunPin
