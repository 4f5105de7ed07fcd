import YunPin.OutboxVersions
import YunPin.UploadAgreement

/-! What a commit may delete. `CommitPreparedUpload` acts on whatever is staged when
it runs; the relay has accepted what the worker had loaded. As long as the two are
the same, no outbox row goes away before its content is on the relay. Two agents
that share a database can make them differ. -/
namespace YunPin
open ByteText List Option

section
variable {κ ι : Type}

def System.HasStored (x : Externals) (cfg : κ → HostConfig) (k : κ) (s : System κ ι)
    (id : ObjectID) (phrase : Phrase) : Prop :=
  ∃ stored ∈ s.chainOf cfg k, ∃ u event, Holds stored u ∧ Event.staged u event ∈ (s.hosts k).history ∧
    Seals x (cfg k).session event u ∧ event.objectID = id ∧ event.phrase = phrase

variable {x : Externals} {cfg : κ → HostConfig} {row : SyncState} {s : System κ ι}

variable {r : OutboxRow}

theorem committed_row_on_relay {k : κ} (hi : UploadInv x cfg k row s)
    (ho : OutboxInv x (cfg k) (s.hosts k)) {i : ι} {state : SyncState} {next : ℤ}
    {upload : PreparedUpload} (hph : (s.hosts k).phase i = .merging state next [])
    (hl : state.prepared = some upload) (hr : r ∈ (s.hosts k).db.outbox)
    (hid : r.eventID = upload.eventID) (hver : r.version = upload.eventVersion) :
    s.HasStored x cfg k r.objectID r.phrase := by
  have hfollows := hi.phases i
  rw [hph] at hfollows
  obtain ⟨hmem, hle⟩ := hfollows upload hl
  obtain ⟨stored, hstored, hholds⟩ := hi.stored hmem hle
  -- The upload was staged from an event the outbox still knows.
  obtain ⟨e, he, heq⟩ := mem_filterMap.mp hmem
  cases e with
  | staged u event =>
    obtain rfl : u = upload := some.inj heq
    obtain ⟨⟨st, random, hseal⟩, hknown⟩ := ho.staged u event he
    obtain ⟨_, _, _, _, heid, hever, _⟩ := sealUpload_ok hseal
    obtain ⟨hobj, _, hphrase⟩ := hknown.2 r hr (hid.trans heid)
    exact ⟨stored, hstored, u, event, hholds, he, ⟨st, random, hseal⟩, hobj.symm,
      (hphrase (hver.trans hever)).symm⟩
  | _ => simp [Event.upload?] at heq

theorem worker_keeps_row {k : κ} (hi : UploadInv x cfg k row s)
    (ho : OutboxInv x (cfg k) (s.hosts k)) {i : ι} {a : WorkerAction}
    (hc : CommitsLoaded s (.worker k i a)) {db' : LocalDB} {phase' : Phase} {events : List Event}
    (hw : WorkerMove x (cfg k) (s.hosts k).db a ((s.hosts k).phase i) db' phase' events)
    (hr : r ∈ (s.hosts k).db.outbox) :
    r ∈ db'.outbox ∨ s.HasStored x cfg k r.objectID r.phrase := by
  rcases hw.outbox_cases with ⟨heq, _⟩ | ⟨state, next, loaded, row', upload, rfl, hph, hl, hrow, hp,
    rfl⟩
  · exact .inl (heq ▸ hr)
  by_cases hdrop : r.eventID = upload.eventID ∧ r.version = upload.eventVersion
  · -- What is staged now is what the worker has loaded, so the relay has accepted it.
    obtain rfl : row' = row := some.inj (hrow.symm.trans hi.state)
    have hload : state.prepared = row'.prepared := by
      simpa only [CommitsLoaded, hph, hi.state, bind_some] using hc
    exact .inr (committed_row_on_relay hi ho hph (hload.trans hp) hr hdrop.1 hdrop.2)
  · exact .inl ((mem_committed _ _ _ r).mpr ⟨hr, hdrop⟩)

theorem dropped_row_on_relay [DecidableEq κ] [Fintype κ] [DecidableEq ι] (cfg : κ → HostConfig)
    {k : κ} {s' : System κ ι} {a : Action κ ι} (hi : UploadInv x cfg k row s)
    (ho : OutboxInv x (cfg k) (s.hosts k)) (hc : CommitsLoaded s a) (h : s.step x cfg a = some s')
    (hr : r ∈ (s.hosts k).db.outbox)
    (hgone : ∀ r' ∈ (s'.hosts k).db.outbox, r'.eventID ≠ r.eventID) :
    s.HasStored x cfg k r.objectID r.phrase := by
  have hkept (outbox : List OutboxRow) (hin : r ∈ outbox)
      (hgone : ∀ r' ∈ outbox, r'.eventID ≠ r.eventID) : s.HasStored x cfg k r.objectID r.phrase :=
    absurd rfl (hgone r hin)
  revert hgone
  apply System.host_preserved h (fun host => (∀ r' ∈ host.db.outbox, r'.eventID ≠ r.eventID) →
    s.HasStored x cfg k r.objectID r.phrase) (hkept _ hr)
  · intro i db' phase' events hm
    cases hm with
    | mutate m now _ =>
      -- A local operation may rewrite the row but keeps its id.
      rcases (m.exec_move x (cfg k).store now (s.hosts k).db).outbox_cases with
        ⟨heq, _⟩ | ⟨id, phrase, heq, _⟩
      · exact hkept _ (heq ▸ hr)
      · obtain ⟨r', hr', hid, _⟩ := enqueue_keeps id phrase hr
        exact fun hgone => absurd hid (hgone r' (heq ▸ hr'))
    | tick now _ | giveUp | receive => exact hkept _ hr
    | worker wa _ _ _ hw =>
      rcases worker_keeps_row hi ho hc hw hr with hin | hstored
      · exact hkept _ hin
      · exact fun _ => hstored
  · exact fun _ _ _ => hkept _ hr

instance (s : System κ ι) (a : Action κ ι) : Decidable (CommitsLoaded s a) := by
  have hphase (k : κ) (phase : Phase) : Decidable (match phase with
      | .merging state _ [] => state.prepared = (s.hosts k).db.syncState.bind (·.prepared)
      | _ => True) := by
    split <;> infer_instance
  unfold CommitsLoaded
  apply @Action.casesOn _ _ _ a
  case worker =>
    intro k i wa
    apply @WorkerAction.casesOn _ wa
    case commit => exact hphase k _
    all_goals intros; infer_instance
  all_goals intros; infer_instance

/-- No upload is acknowledged that was not sent: every committed upload is stored,
the checkpoint is at most one ahead of the relay, and a row that the next step
deletes has its content on the relay. -/
structure AcknowledgesStored [DecidableEq κ] [Fintype κ] [DecidableEq ι] (x : Externals)
    (cfg : κ → HostConfig) (k : κ) (t : System κ ι) : Prop where
  committed : ∀ u, Event.committed u ∈ (t.hosts k).history → ∃ r ∈ t.chainOf cfg k, Holds r u
  position : ∃ row, (t.hosts k).db.syncState = some row ∧
    row.nextDeviceSequence ≤ (lastRecord (t.chainOf cfg k)).1+1
  deleted : ∀ a t', Runs.restrict CommitsLoaded (System.step x cfg) t a = some t' →
    ∀ r ∈ (t.hosts k).db.outbox, (∀ r' ∈ (t'.hosts k).db.outbox, r'.eventID ≠ r.eventID) →
      t.HasStored x cfg k r.objectID r.phrase

/-- Any number of agents on one database acknowledge only what the relay has stored,
in every run in which each commit finds the upload staged that its own round has
loaded. -/
theorem concurrent_commits_stored [DecidableEq κ] [Fintype κ] [DecidableEq ι] (x : Externals)
    (cfg : κ → HostConfig) (s t : System κ ι) (h0 : s.Initial x cfg)
    (k : κ) (hkeys : (s.hosts k).db.OutboxKeys) (actions : List (Action κ ι))
    (h : Runs.run (Runs.restrict CommitsLoaded (System.step x cfg)) s actions = some t) :
    AcknowledgesStored x cfg k t := by
  have hinv : Traffic x cfg t ∧ OutboxInv x (cfg k) (t.hosts k) ∧
      ∃ row, UploadInv x cfg k row t := by
    apply Runs.run_invariant (fun u => Traffic x cfg u ∧ OutboxInv x (cfg k) (u.hosts k) ∧
      ∃ row, UploadInv x cfg k row u) ?_ ?_ h
    · rintro u a u' ⟨ht, ho, row, hi⟩ hu
      obtain ⟨hc, hu⟩ := Runs.restrict_some hu
      exact ⟨ht.step cfg hu, ho.step cfg hu, hi.step cfg h0.distinct ht hc hu⟩
    · exact ⟨h0.traffic, .initial hkeys (h0.idle k) (h0.history k), _, h0.uploadInv k⟩
  obtain ⟨_, ho, row, hi⟩ := hinv
  refine ⟨?_, ⟨row, hi.state, ?_⟩, ?_⟩
  · intro u hu
    obtain ⟨hmem, hle⟩ := hi.committed u hu
    exact hi.stored hmem hle
  · rcases hi.agrees with ⟨hn, _⟩ | ⟨hn, _⟩ <;> omega
  · intro a t' hstep r hr hgone
    obtain ⟨hc, hstep⟩ := Runs.restrict_some hstep
    exact dropped_row_on_relay cfg hi ho hc hstep hr hgone

end

theorem LocalDB.bound_outboxKeys (deviceID : Bytes) : (LocalDB.bound deviceID).OutboxKeys :=
  ⟨nodup_nil, nodup_nil, by simp [LocalDB.bound, LocalDB.empty]⟩

/-- Two agents load the same staged upload and send it. The first one is answered,
commits, and stages the next upload; then the second one is answered too. -/
def staleAnswer : List (Action Bool Bool) :=
  [.mutate false false (.save (samplePhrase "a")) sampleReading] ++ uploadSteps false false ++
    pollSteps false true ++ serveCall 0 ++ serveCall 1 ++ [.receive false false 0] ++
    mergeSteps false false ++ [.worker false false .commit, .worker false false .advance,
    .mutate false false (.save (samplePhrase "b")) sampleReading, .worker false false .load,
    .worker false false (.pending sampleRandom), .worker false false .stage,
    .receive false true 1] ++ mergeSteps false true

def Event.committed? : Event → Option PreparedUpload
  | .committed upload => some upload
  | _ => none

theorem mem_committed_history {history : List Event} {u : PreparedUpload}
    (h : u ∈ history.filterMap Event.committed?) : Event.committed u ∈ history := by
  obtain ⟨e, he, heq⟩ := mem_filterMap.mp h
  cases e with
  | committed v =>
    obtain rfl : v = u := some.inj heq
    exact he
  | _ => simp [Event.committed?] at heq

/-- The second agent then commits the upload that nobody has sent: the checkpoint is
two ahead of the relay and the outbox has lost the phrase. -/
theorem commit_without_upload : ∃ s t,
    Runs.run (System.step sampleExternals sampleConfig) (sampleSystem Bool) staleAnswer = some s ∧
    Runs.run (System.step sampleExternals sampleConfig) s [.worker false true .commit] = some t ∧
    (s.hosts false).db.outbox.length = 1 ∧ (t.hosts false).db.outbox = [] ∧
    (t.hosts false).db.syncState.map (·.nextDeviceSequence) = some 3 ∧
    (lastRecord (t.chainOf sampleConfig false)).1 = 1 ∧
    ∃ u, Event.committed u ∈ (t.hosts false).history ∧
      ¬∃ r ∈ t.chainOf sampleConfig false, Holds r u := by
  apply Runs.exists_some_some (fun s t => (s.hosts false).db.outbox.length = 1 ∧
    (t.hosts false).db.outbox = [] ∧
    (t.hosts false).db.syncState.map (·.nextDeviceSequence) = some 3 ∧
    (lastRecord (t.chainOf sampleConfig false)).1 = 1 ∧
    ∃ u ∈ (t.hosts false).history.filterMap Event.committed?,
      ¬∃ r ∈ t.chainOf sampleConfig false, r.deviceSeq = u.deviceSequence) (by decide +kernel)
  rintro s t - - ⟨hone, hnone, hnext, hlast, u, hu, hmissing⟩
  refine ⟨hone, hnone, hnext, hlast, u, mem_committed_history hu, ?_⟩
  rintro ⟨r, hr, hholds⟩
  exact hmissing ⟨r, hr, hholds.1⟩

/-- Up to the last commit everything acknowledged was stored. -/
theorem concurrent_commits_stored_sample : ∃ t,
    Runs.run (Runs.restrict CommitsLoaded (System.step sampleExternals sampleConfig))
      (sampleSystem Bool) staleAnswer = some t ∧
    ((t.hosts false).history.filterMap Event.committed?).length = 1 ∧
    AcknowledgesStored sampleExternals sampleConfig false t := by
  apply Runs.exists_some
    (fun t => ((t.hosts false).history.filterMap Event.committed?).length = 1) (by decide +kernel)
  intro t ht h
  exact ⟨h, concurrent_commits_stored sampleExternals sampleConfig _ t (sampleSystem_initial Bool)
    false (LocalDB.bound_outboxKeys _) staleAnswer ht⟩

/-- However the agents interleave, an object has one row in the outbox at most, and a staged upload
is the event of its row at a version that the row has not gone below. -/
theorem outbox_remembers_staged {κ ι : Type} [DecidableEq κ] [Fintype κ] [DecidableEq ι]
    (x : Externals) (cfg : κ → HostConfig) (s t : System κ ι) (h0 : s.Initial x cfg) (k : κ)
    (hkeys : (s.hosts k).db.OutboxKeys) (actions : List (Action κ ι))
    (h : Runs.run (System.step x cfg) s actions = some t) : OutboxInv x (cfg k) (t.hosts k) :=
  Runs.run_invariant (fun u => OutboxInv x (cfg k) (u.hosts k))
    (fun _ _ _ hu hstep => hu.step cfg hstep)
    (.initial hkeys (h0.idle k) (h0.history k)) h

theorem outbox_remembers_staged_sample : ∃ t,
    Runs.run (System.step sampleExternals sampleConfig) (sampleSystem Bool) staleAnswer = some t ∧
    (t.hosts false).db.outbox.length = 1 ∧
    OutboxInv sampleExternals (sampleConfig false) (t.hosts false) := by
  apply Runs.exists_some (fun t => (t.hosts false).db.outbox.length = 1) (by decide +kernel)
  intro t ht h
  exact ⟨h, outbox_remembers_staged sampleExternals sampleConfig _ t (sampleSystem_initial Bool)
    false (LocalDB.bound_outboxKeys _) staleAnswer ht⟩

end YunPin
