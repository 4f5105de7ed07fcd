import YunPin.HostInvariant

/-! No local update is lost. What a local operation has enqueued stays below the
outbox row of its object, or below an upload that the relay has stored. The row is
rewritten in place while an older version of it is in flight, and a commit drops it;
both keep the update, as long as every operation finds its record again. -/
namespace YunPin
open ByteText List Option

variable {o : ObjectID} {db : LocalDB} {row : SyncState} {p : Phrase} {v : StateView}
  {store : Store}

/-- The outbox has the object in this state or in a later one. -/
def LocalDB.Queues (db : LocalDB) (o : ObjectID) (v : StateView) : Prop :=
  ∃ r ∈ db.outbox, r.objectID = o ∧ v ≤ r.phrase.crdt.view

theorem LocalDB.Queues.of_mem {r : OutboxRow} (h : r ∈ db.outbox) :
    db.Queues r.objectID r.phrase.crdt.view :=
  ⟨r, h, rfl, le_rfl⟩

section
variable {κ : Type}

/-- A state of the object that is not older is in the outbox, or on the relay. -/
def System.Carries (x : Externals) (cfg : κ → HostConfig) (k : κ) (s : System κ Unit)
    (o : ObjectID) (v : StateView) : Prop :=
  (s.hosts k).db.Queues o v ∨ ∃ p, s.HasStored x cfg k o p ∧ v ≤ p.crdt.view

def KeptInv (x : Externals) (cfg : κ → HostConfig) (k : κ) (s : System κ Unit) : Prop :=
  ∀ o record, Event.wrote o record true ∈ (s.hosts k).history →
    record.Good x (cfg k).store o ∧ s.Carries x cfg k o record.crdt.view

variable {x : Externals} {cfg : κ → HostConfig} {k : κ} {s s' : System κ Unit}

theorem System.HasStored.mono (h : s.HasStored x cfg k o p)
    (hc : s.chainOf cfg k ⊆ s'.chainOf cfg k) (hh : (s.hosts k).history ⊆ (s'.hosts k).history) :
    s'.HasStored x cfg k o p := by
  obtain ⟨stored, hstored, u, event, hholds, hstaged, hrest⟩ := h
  exact ⟨stored, hc hstored, u, event, hholds, hh hstaged, hrest⟩

theorem System.Carries.mono (h : s.Carries x cfg k o v) (hc : s.chainOf cfg k ⊆ s'.chainOf cfg k)
    (hh : (s.hosts k).history ⊆ (s'.hosts k).history)
    (hrows : ∀ r ∈ (s.hosts k).db.outbox, (s'.hosts k).db.Queues r.objectID r.phrase.crdt.view ∨
      s.HasStored x cfg k r.objectID r.phrase) : s'.Carries x cfg k o v := by
  rcases h with ⟨r, hr, rfl, hv⟩ | ⟨p, hp, hv⟩
  · rcases hrows r hr with ⟨r', hr', hid, hle⟩ | hstored
    · exact .inl ⟨r', hr', hid, hv.trans hle⟩
    · exact .inr ⟨r.phrase, hstored.mono hc hh, hv⟩
  · exact .inr ⟨p, hp.mono hc hh, hv⟩

theorem enqueue_carries (h : StoreInv x store db) {id : ObjectID}
    (hgrows : ∀ old, db.phrases.find? id = some old → old.crdt.view ≤ p.crdt.view) (r : OutboxRow)
    (hr : r ∈ db.outbox) : (db.enqueue id p).Queues r.objectID r.phrase.crdt.view := by
  obtain ⟨r', hr', _, hid, hcase⟩ := enqueue_keeps id p hr
  refine ⟨r', hr', hid, ?_⟩
  rcases hcase with ⟨hp, hrid⟩ | rfl
  · obtain ⟨old, hold, hle⟩ := h.below r hr
    rw [hp]
    exact hle.trans (hgrows old (hrid ▸ hold))
  · exact le_rfl

theorem mutation_carries (h : StoreInv x store db) (hd : validSyncDeviceID store.deviceID = true)
    (hmax : db.hlcWall < maxInt64) {now : Reading} {m : Mutation} (hm : m.KeepsObject x store)
    (hplain : m.bringsState = false) {r : Option Write × LocalDB}
    (hr : MutationMove x store now m db r) :
    (∀ row ∈ db.outbox, r.2.Queues row.objectID row.phrase.crdt.view) ∧
    ∀ o record, Event.wrote o record true ∈ writeEvents x store r.1 →
      record.Good x store o ∧ r.2.Queues o record.crdt.view := by
  cases hr with
  | nothing | tick => exact ⟨fun _ => .of_mem, by simp [writeEvents]⟩
  | write id w id' hid hw hid' =>
    obtain ⟨rfl, hfacts, _, hgrows⟩ := h.written hd hmax hm hplain hid hw hid'
    have hev := writeEvents_some hid'
    cases he : w.enqueue with
    | false =>
      refine ⟨fun _ => .of_mem, ?_⟩
      intro o record ho
      simp [hev, he] at ho
    | true =>
      have hout := (write_outbox (nextHLC_sameRows store now db) id' (jsonPhrase w.record)).1
      refine ⟨?_, ?_⟩
      · intro row hrow
        rw [LocalDB.Queues, hout]
        exact enqueue_carries h hgrows row hrow
      · intro o record ho
        simp only [hev, he, mem_singleton, Event.wrote.injEq, and_true] at ho
        obtain ⟨rfl, rfl⟩ := ho
        obtain ⟨row, hrow, hrid, hphrase⟩ := exists_mem_enqueue db o (jsonPhrase w.record)
        rw [LocalDB.Queues, hout]
        exact ⟨hfacts.stored, row, hrow, hrid, by rw [hphrase]⟩

variable {db' : LocalDB} {phase' : Phase} {events : List Event}

theorem worker_carries (hu : UploadInv x cfg k row s) (ho : OutboxInv x (cfg k) (s.hosts k))
    {i : Unit} {a : WorkerAction} (hc : CommitsLoaded s (.worker k i a))
    (hw : WorkerMove x (cfg k) (s.hosts k).db a ((s.hosts k).phase i) db' phase' events)
    (r : OutboxRow) (hr : r ∈ (s.hosts k).db.outbox) :
    db'.Queues r.objectID r.phrase.crdt.view ∨ s.HasStored x cfg k r.objectID r.phrase := by
  rcases worker_keeps_row hu ho hc hw hr with hin | hstored
  · exact .inl (.of_mem hin)
  · exact .inr hstored

theorem WorkerMove.wrote_none {cfg : HostConfig} {a : WorkerAction} {phase : Phase}
    (h : WorkerMove x cfg db a phase db' phase' events) (o : ObjectID) (record : Phrase)
    (enqueued : Bool) : Event.wrote o record enqueued ∉ events := by
  cases h <;> simp

theorem KeptInv.host_step [DecidableEq κ] (hi : KeptInv x cfg k s) (i : Unit)
    (hrows : ∀ r ∈ (s.hosts k).db.outbox, db'.Queues r.objectID r.phrase.crdt.view ∨
      s.HasStored x cfg k r.objectID r.phrase)
    (hevents : ∀ o record, Event.wrote o record true ∈ events →
      record.Good x (cfg k).store o ∧ db'.Queues o record.crdt.view) :
    KeptInv x cfg k (s.setHost k i db' phase' events) := by
  intro o record he
  rw [System.setHost_self] at he
  rcases mem_append.mp he with he | he
  · obtain ⟨hgood, hcarries⟩ := hi o record he
    refine ⟨hgood, hcarries.mono (List.Subset.refl _) ?_ ?_⟩
    · rw [System.setHost_self]
      exact subset_append_left _ _
    · rw [System.setHost_self]
      exact hrows
  · obtain ⟨hgood, hrow⟩ := hevents o record he
    refine ⟨hgood, .inl ?_⟩
    rw [System.setHost_self]
    exact hrow

theorem KeptInv.congr (hi : KeptInv x cfg k s) (hc : s.chainOf cfg k ⊆ s'.chainOf cfg k)
    (hdb : (s'.hosts k).db.outbox = (s.hosts k).db.outbox)
    (hh : (s'.hosts k).history = (s.hosts k).history) : KeptInv x cfg k s' := by
  intro o record he
  rw [hh] at he
  obtain ⟨hgood, hcarries⟩ := hi o record he
  refine ⟨hgood, hcarries.mono hc (by rw [hh]; exact List.Subset.refl _) ?_⟩
  intro r hr
  exact .inl (.of_mem (hdb ▸ hr))

theorem KeptInv.step [DecidableEq κ] [Fintype κ] (cfg : κ → HostConfig)
    (hd : validSyncDeviceID (cfg k).store.deviceID = true) {a : Action κ Unit}
    (ht : Traffic x cfg s) (hu : UploadInv x cfg k row s) (ho : OutboxInv x (cfg k) (s.hosts k))
    (hh : HostInv x (cfg k) (s.hosts k)) (hc : CommitsLoaded s a) (hp : KeepsObjectOn x cfg k s a)
    (hi : KeptInv x cfg k s) (h : s.step x cfg a = some s') : KeptInv x cfg k s' := by
  have hquiet (r : OutboxRow) (hr : r ∈ (s.hosts k).db.outbox) :
      (s.hosts k).db.Queues r.objectID r.phrase.crdt.view ∨
        s.HasStored x cfg k r.objectID r.phrase := .inl (.of_mem hr)
  rcases System.step_cases cfg h with ⟨ra, r, hm, hr, rfl⟩ |
    ⟨k', i, db', phase', events, hm, rfl⟩ | ⟨k', i, state, request, hph, _, rfl⟩
  · exact hi.congr (filter_subset _ (ht.envelopes_subset hm hr)) rfl rfl
  · by_cases hk : k = k'
    · subst hk
      cases hm with
      | mutate m now hl =>
        have hmem : m ∈ (Action.mutate k i m now).mutationOn k := by simp [Action.mutationOn]
        obtain ⟨hrows, hevents⟩ := mutation_carries hh.store hd hp.1.1 (hp.2 m hmem)
          (hp.1.2 m hmem) (m.exec_move x (cfg k).store now (s.hosts k).db)
        exact hi.host_step i (fun r hr => .inl (hrows r hr)) hevents
      | tick now hl | giveUp | receive => exact hi.host_step i hquiet (by simp)
      | worker wa _ _ _ hw =>
        apply hi.host_step i (worker_carries hu ho hc hw)
        intro o record he
        exact absurd he (hw.wrote_none o record true)
    · have hsame := System.setHost_ne s i db' phase' events hk
      exact hi.congr (List.Subset.refl _) (by rw [hsame]) (by rw [hsame])
  · -- Sending changes the phase of a loop; rows and history stay.
    have hmid : KeptInv x cfg k
        (s.setHost k' i (s.hosts k').db (.waiting state s.calls.length) []) := by
      by_cases hk : k = k'
      · subst hk
        exact hi.host_step i hquiet (by simp)
      · have hsame := System.setHost_ne s i (s.hosts k').db (.waiting state s.calls.length) [] hk
        exact hi.congr (List.Subset.refl _) (by rw [hsame]) (by rw [hsame])
    exact hmid

/-- The states of an object that the device has in its outbox or on the relay. -/
def System.replicas (x : Externals) (cfg : κ → HostConfig) (k : κ) (s : System κ Unit)
    (o : ObjectID) : List PhraseState :=
  ((s.hosts k).db.outbox.filter (fun r => r.objectID = o)).map (·.phrase.crdt) ++
    ((s.chainOf cfg k).filter (fun row => row.objectID = o.val)).filterMap (fun row =>
      (decodeDownload x (cfg k).session row.outgoing).toOption.map (·.state))

theorem mem_chainOf {ι : Type} {s : System κ ι} {row : EnvelopeRow} (h : row ∈ s.chainOf cfg k) :
    row.deviceID = hexEncode (cfg k).session.deviceID := by
  simp only [System.chainOf, RelayDB.chain, mem_filter, decide_eq_true_eq] at h
  exact h.2.2

theorem System.HasStored.decode (hx : x.Laws) (hh : HostInv x (cfg k) (s.hosts k))
    (h : s.HasStored x cfg k o p) :
    ∃ row ∈ s.chainOf cfg k, row.objectID = o.val ∧
      decodeDownload x (cfg k).session row.outgoing = .ok p.payload := by
  obtain ⟨row, hrow, u, event, hholds, hstaged, hseals, rfl, rfl⟩ := h
  obtain ⟨hv, hgood⟩ := hh.staged u event hstaged
  exact ⟨row, hrow, decodeDownload_sealed hx
    (Session.trusts_self hv) hgood hseals hholds (mem_chainOf hrow)⟩

theorem chain_row_decodes (hx : x.Laws) (hu : UploadInv x cfg k row s)
    (ho : OutboxInv x (cfg k) (s.hosts k)) (hh : HostInv x (cfg k) (s.hosts k))
    {stored : EnvelopeRow} (hs : stored ∈ s.chainOf cfg k) :
    ∃ event : PendingEvent, event.phrase.Good x (cfg k).store event.objectID ∧
      stored.objectID = event.objectID.val ∧
      decodeDownload x (cfg k).session stored.outgoing = .ok event.phrase.payload := by
  obtain ⟨i, hi⟩ := mem_iff_getElem?.mp hs
  obtain ⟨u, hu', hholds⟩ := hu.holds i stored hi
  obtain ⟨e, he, heq⟩ := mem_filterMap.mp (mem_of_getElem? hu')
  cases e with
  | staged v event =>
    obtain rfl : v = u := some.inj heq
    obtain ⟨hv, hgood⟩ := hh.staged v event he
    exact ⟨event, hgood, decodeDownload_sealed hx
      (Session.trusts_self hv) hgood (ho.staged v event he).1 hholds
      (mem_chainOf hs)⟩
  | _ => simp [Event.upload?] at heq

theorem replicas_good (hx : x.Laws) (hu : UploadInv x cfg k row s)
    (ho : OutboxInv x (cfg k) (s.hosts k)) (hh : HostInv x (cfg k) (s.hosts k)) (o : ObjectID)
    (state : PhraseState) (hs : state ∈ s.replicas x cfg k o) : state.Good o := by
  rcases mem_append.mp hs with hs | hs
  · obtain ⟨r, hr, rfl⟩ := mem_map.mp hs
    obtain ⟨hr, hid⟩ := mem_filter.mp hr
    rw [decide_eq_true_eq] at hid
    exact hid ▸ (hh.store.fit.outbox r hr).state
  · obtain ⟨stored, hstored, hdec⟩ := mem_filterMap.mp hs
    obtain ⟨hstored, hid⟩ := mem_filter.mp hstored
    rw [decide_eq_true_eq] at hid
    obtain ⟨event, hgood, hobj, hd⟩ := chain_row_decodes hx hu ho hh hstored
    rw [hd] at hdec
    cases hdec
    obtain rfl : event.objectID = o := Subtype.ext (hobj.symm.trans hid)
    exact hgood.state

theorem System.Carries.replica (hx : x.Laws) (hh : HostInv x (cfg k) (s.hosts k))
    (h : s.Carries x cfg k o v) :
    ∃ state ∈ s.replicas x cfg k o, v ≤ state.view := by
  rcases h with ⟨r, hr, rfl, hv⟩ | ⟨p, hp, hv⟩
  · refine ⟨r.phrase.crdt, mem_append_left _ ?_, hv⟩
    exact mem_map_of_mem (mem_filter.mpr ⟨hr, by simp⟩)
  · obtain ⟨row, hrow, hid, hdec⟩ := hp.decode hx hh
    refine ⟨p.crdt, mem_append_right _ (mem_filterMap.mpr ⟨row, ?_, ?_⟩), hv⟩
    · exact mem_filter.mpr ⟨hrow, by simp [hid]⟩
    · rw [hdec]
      rfl

/-- No update of device `k` is lost: what was enqueued is dominated by the merge of
what the outbox and the relay have of the object, and a row that the next step
deletes has its state in a stored envelope. -/
structure NoLostUpdate [DecidableEq κ] [Fintype κ] (x : Externals) (cfg : κ → HostConfig) (k : κ)
    (t : System κ Unit) : Prop where
  kept : ∀ o record, Event.wrote o record true ∈ (t.hosts k).history →
    ∃ merged, mergeStates (t.replicas x cfg k o) = .ok merged ∧ Dominated record.crdt merged
  deleted : ∀ a t', t.step x cfg a = some t' → ∀ r ∈ (t.hosts k).db.outbox,
    (∀ r' ∈ (t'.hosts k).db.outbox, r'.eventID ≠ r.eventID) →
      ∃ row ∈ t.chainOf cfg k, row.objectID = r.objectID.val ∧
        ∃ p, decodeDownload x (cfg k).session row.outgoing = .ok p ∧ p.state = r.phrase.crdt

/-- In every run of a device with one worker whose local operations keep their
objects under the repair of invalid UTF-8, no local update is lost. -/
theorem no_lost_update [DecidableEq κ] [Fintype κ] (x : Externals) (hx : x.Laws)
    (cfg : κ → HostConfig) (s t : System κ Unit) (h0 : s.Initial x cfg) (k : κ)
    (dataKey idKey deviceID : Bytes)
    (hopen : openForDevice dataKey idKey deviceID .empty = (.ok (cfg k).store, (s.hosts k).db))
    (actions : List (Action κ Unit))
    (h : Runs.run (Runs.restrict (KeepsObjectOn x cfg k) (System.step x cfg)) s actions = some t) :
    NoLostUpdate x cfg k t := by
  obtain ⟨hd, _, hdb⟩ := openForDevice_empty_ok hopen
  have hinv : Traffic x cfg t ∧ SlotOwned t ∧ OutboxInv x (cfg k) (t.hosts k) ∧
      HostInv x (cfg k) (t.hosts k) ∧ KeptInv x cfg k t ∧ ∃ row, UploadInv x cfg k row t := by
    apply Runs.run_invariant (fun u => Traffic x cfg u ∧ SlotOwned u ∧
      OutboxInv x (cfg k) (u.hosts k) ∧ HostInv x (cfg k) (u.hosts k) ∧ KeptInv x cfg k u ∧
      ∃ row, UploadInv x cfg k row u) ?_ ?_ h
    · rintro u a u' ⟨ht, hs, ho, hh, hi, row, hu⟩ hstep
      obtain ⟨hp, hstep⟩ := Runs.restrict_some hstep
      have hc := hs.commitsLoaded a
      exact ⟨ht.step cfg hstep, hs.step cfg hstep, ho.step cfg hstep,
        hh.step hx cfg hd hp hstep, hi.step cfg hd ht hu ho hh hc hp hstep,
        hu.step cfg h0.distinct ht hc hstep⟩
    · refine ⟨h0.traffic, h0.slotOwned, ?_, .initial hdb (h0.idle k) (h0.history k), ?_, _,
        h0.uploadInv k⟩
      · exact .initial (hdb ▸ LocalDB.bound_outboxKeys _) (h0.idle k) (h0.history k)
      · simp [KeptInv, h0.history]
  obtain ⟨_, hs, ho, hh, hi, row, hu⟩ := hinv
  refine ⟨?_, ?_⟩
  · intro o record he
    obtain ⟨hgood, hcarries⟩ := hi o record he
    -- Some row or envelope carries the write, and the merge of all of them is above it.
    obtain ⟨state, hstate, hle⟩ := hcarries.replica hx hh
    have hall := fun s hs => (replicas_good hx hu ho hh o s hs).objectID
    obtain ⟨merged, hm, hmo, hub, _⟩ := mergeStates_ok (objectID_hex_ne_nil o)
      (ne_nil_of_mem hstate) hall
    refine ⟨merged, hm, (dominated_iff _ _).mpr ⟨hgood.state.objectID_ne_nil, ?_, ?_⟩⟩
    · rw [hgood.state.objectID, hmo]
    · exact hle.trans (hub state hstate)
  · intro a t' hstep r hr hgone
    have hstored := dropped_row_on_relay cfg hu ho (hs.commitsLoaded a) hstep hr hgone
    obtain ⟨stored, hmem, hid, hdec⟩ := hstored.decode hx hh
    exact ⟨stored, hmem, hid, r.phrase.payload, hdec, rfl⟩

end

def Event.enqueued? : Event → Option (ObjectID × Phrase)
  | .wrote id record true => some (id, record)
  | _ => none

theorem mem_enqueued_history {history : List Event} {id : ObjectID} {record : Phrase}
    (h : (id, record) ∈ history.filterMap Event.enqueued?) :
    Event.wrote id record true ∈ history := by
  obtain ⟨e, he, heq⟩ := mem_filterMap.mp h
  cases e with
  | wrote id' record' enqueued =>
    cases enqueued with
    | true =>
      cases heq
      exact he
    | false => simp [Event.enqueued?] at heq
  | _ => simp [Event.enqueued?] at heq

/-- A phrase that ends in U+FFFD, one that ends in an invalid byte, and the deletion
of the second. Its record reads U+FFFD by then, so the deletion is written over the
record and the outbox row of the first. -/
def repairedDelete : List (Action Bool Unit) :=
  [.mutate false () (.save { samplePhrase "" with text := [0x61, 0xEF, 0xBF, 0xBD] }) sampleReading,
    .mutate false () (.save invalidPhrase) sampleReading,
    .mutate false () (.delete [0x61, 0xFF] (lit "ni")) sampleReading]

/-- The first phrase was enqueued, and neither the outbox nor the relay has it. -/
theorem update_lost_by_repair : ∃ t o record,
    Runs.run (Runs.restrict (InScope false) (System.step sampleExternals sampleConfig))
      (sampleSystem Unit) repairedDelete = some t ∧
    Event.wrote o record true ∈ (t.hosts false).history ∧
    ¬∃ merged, mergeStates (t.replicas sampleExternals sampleConfig false o) = .ok merged ∧
      Dominated record.crdt merged := by
  simp only [exists_and_left]
  apply Runs.exists_some (fun t => ∃ e ∈ (t.hosts false).history.filterMap Event.enqueued?,
    ∀ merged ∈ (mergeStates (t.replicas sampleExternals sampleConfig false e.1)).toOption,
      merged.objectID ≠ e.2.crdt.objectID) (by decide +kernel)
  rintro t - ⟨⟨o, record⟩, he, hother⟩
  refine ⟨o, record, mem_enqueued_history he, ?_⟩
  rintro ⟨merged, hm, hdom⟩
  refine hother merged ?_ ((dominated_iff _ _).mp hdom).2.1.symm
  rw [hm]
  rfl

/-- The phrase is saved again while its first version is on the way to the relay. -/
def coalescedSave : List (Action Bool Unit) :=
  [.mutate false () (.save (samplePhrase "a")) sampleReading] ++ uploadSteps false () ++
    [.mutate false () (.save { samplePhrase "a" with pinned := false }) sampleReading] ++
    serveCall 0 ++ [.receive false () 0] ++ mergeSteps false () ++
    [.worker false () .commit, .worker false () .advance]

theorem no_lost_update_coalesced : ∃ t,
    Runs.run (Runs.restrict (KeepsObjectOn sampleExternals sampleConfig false)
      (System.step sampleExternals sampleConfig)) (sampleSystem Unit) coalescedSave = some t ∧
    ((t.hosts false).history.filterMap Event.enqueued?).length = 2 ∧
    (t.hosts false).db.outbox.length = 1 ∧ (t.chainOf sampleConfig false).length = 1 ∧
    NoLostUpdate sampleExternals sampleConfig false t := by
  apply Runs.exists_some (fun t => ((t.hosts false).history.filterMap Event.enqueued?).length = 2 ∧
    (t.hosts false).db.outbox.length = 1 ∧ (t.chainOf sampleConfig false).length = 1)
    (by decide +kernel)
  rintro t ht ⟨hevents, hout, hchain⟩
  exact ⟨hevents, hout, hchain, no_lost_update sampleExternals sampleExternals_laws sampleConfig _ t
    (sampleSystem_initial Unit) false _ _ _ (sampleConfig_open false) coalescedSave ht⟩

end YunPin
