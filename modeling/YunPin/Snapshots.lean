import YunPin.HybridClock

/-! Snapshots. `Snapshot` reads the generation with one statement and the phrases with
another, and takes no lock, while the operations of other goroutines commit their writes.
A write raises the generation and changes a phrase in one transaction, so the generation
tells two states of the table apart; a snapshot is of its own generation as long as no
write is committed between its two reads. -/
namespace YunPin
open ByteText List

structure Snapshot where
  generation : ℕ
  phrases : List Phrase
deriving DecidableEq

def LocalDB.records (db : LocalDB) : List Phrase := db.phrases.entries.map Prod.snd

/-- Either phrases and generation are as before, or the generation is later. -/
def LocalDB.Commits (db db' : LocalDB) : Prop :=
  (db'.phrases = db.phrases ∧ db'.generation = db.generation) ∨ db.generation < db'.generation

theorem LocalDB.Commits.refl (db : LocalDB) : db.Commits db := .inl ⟨rfl, rfl⟩

theorem write_generation (db : LocalDB) (id : ObjectID) (p : Phrase) (enqueue : Bool) :
    (db.write id p enqueue).generation = db.generation+1 := by
  unfold LocalDB.write LocalDB.enqueue
  cases enqueue
  · rfl
  · simp only [if_true]
    split_ifs <;> rfl

theorem MutationMove.commits {x : Externals} {store : Store} {now : Reading} {m : Mutation}
    {db : LocalDB} {r : Option Write × LocalDB} (h : MutationMove x store now m db r) :
    db.Commits r.2 := by
  cases h with
  | nothing | tick => exact .refl db
  | write id w id' =>
    right
    dsimp only
    rw [write_generation]
    exact Nat.lt_succ_self _

theorem migrate_commits (store : Store) (now : Reading) (m : Merge) (db : LocalDB) :
    (m.migrate store now db).2.phrases = db.phrases ∧
      (m.migrate store now db).2.generation = db.generation := by
  unfold Merge.migrate
  split
  · exact ⟨rfl, rfl⟩
  · split_ifs
    · dsimp only
      split <;> exact ⟨rfl, rfl⟩
    · exact ⟨rfl, rfl⟩

theorem mergeRemotePayload_commits (x : Externals) {store : Store} {now : Reading}
    {payload : PhrasePayload} (db : LocalDB) :
    db.Commits (mergeRemotePayload x store now payload db).2 := by
  unfold mergeRemotePayload
  split
  · exact .refl db
  rename_i m _
  have hmig := migrate_commits store now m db
  split
  · rename_i e db' he
    rw [he] at hmig
    exact .inl hmig
  rename_i m' db' he
  rw [he] at hmig
  split
  · exact .inl hmig
  rename_i record _
  -- Observing a clock touches neither the phrases nor the generation.
  have hobs : (observeHLC (latestClock record) db').phrases = db'.phrases ∧
      (observeHLC (latestClock record) db').generation = db'.generation := by
    unfold observeHLC
    split_ifs <;> exact ⟨rfl, rfl⟩
  unfold upsert
  split
  · exact .inl ⟨hobs.1.trans hmig.1, hobs.2.trans hmig.2⟩
  · right
    dsimp only
    rw [write_generation, hobs.2, hmig.2]
    exact Nat.lt_succ_self _

def StoreCall.exec (x : Externals) (db : LocalDB) : StoreCall → LocalDB
  | .mutate store m now => (m.exec x store now db).2
  | .merge store payload now => (mergeRemotePayload x store now payload db).2

theorem StoreCall.commits (x : Externals) (db : LocalDB) (call : StoreCall) :
    db.Commits (call.exec x db) := by
  cases call with
  | mutate store m now => exact (m.exec_move x store now db).commits
  | merge store payload now => exact mergeRemotePayload_commits x db

/-- The database, every database there has been so far, the generations that snapshots in
progress have read, and the snapshots that were returned. -/
structure SnapshotRun where
  db : LocalDB
  past : List LocalDB
  pending : List ℕ
  finished : List Snapshot

def SnapshotRun.start (db : LocalDB) : SnapshotRun := ⟨db, [db], [], []⟩

/-- The two statements of a snapshot, and the operations of the store. An operation holds the
store's mutex, and what it writes is one transaction. -/
inductive SnapshotAction
  | readGeneration
  | readPhrases (i : ℕ)
  | call (call : StoreCall)

def SnapshotRun.commit (s : SnapshotRun) (db : LocalDB) : SnapshotRun :=
  { s with db := db, past := s.past ++ [db] }

def SnapshotRun.step (x : Externals) (s : SnapshotRun) : SnapshotAction → Option SnapshotRun
  | .readGeneration => some { s with pending := s.pending ++ [s.db.generation] }
  | .readPhrases i =>
    match s.pending[i]? with
    | none => none
    | some generation => some { s with
        pending := s.pending.eraseIdx i
        finished := s.finished ++ [⟨generation, s.db.records⟩] }
  | .call call => some (s.commit (call.exec x s.db))

/-- While a snapshot is between its two reads, operations commit no write. -/
def Undisturbed (x : Externals) (s : SnapshotRun) : SnapshotAction → Prop
  | .call call => s.pending = [] ∨ (call.exec x s.db).generation = s.db.generation
  | _ => True

instance (x : Externals) (s : SnapshotRun) (a : SnapshotAction) :
    Decidable (Undisturbed x s a) := by
  unfold Undisturbed
  cases a <;> infer_instance

/-- Every snapshot is the table at an instant of its own generation. -/
structure SnapshotsConsistent (s : SnapshotRun) : Prop where
  instant : ∀ f ∈ s.finished, ∃ db ∈ s.past, db.generation = f.generation ∧
    f.phrases = db.records
  equal : ∀ f ∈ s.finished, ∀ f' ∈ s.finished, f.generation = f'.generation →
    f.phrases = f'.phrases

structure SnapshotInv (s : SnapshotRun) : Prop where
  present : s.db ∈ s.past
  latest : ∀ db ∈ s.past, db.generation ≤ s.db.generation
  distinct : ∀ db ∈ s.past, ∀ db' ∈ s.past, db.generation = db'.generation →
    db.phrases = db'.phrases
  pending : ∀ g ∈ s.pending, g = s.db.generation
  instant : ∀ f ∈ s.finished, ∃ db ∈ s.past, db.generation = f.generation ∧
    f.phrases = db.records

theorem SnapshotInv.commit {s : SnapshotRun} (h : SnapshotInv s) {db : LocalDB}
    (hc : s.db.Commits db) (hp : s.pending = [] ∨ db.generation = s.db.generation) :
    SnapshotInv (s.commit db) := by
  have hle : s.db.generation ≤ db.generation := by
    rcases hc with ⟨_, he⟩ | hlt
    · exact he.ge
    · exact hlt.le
  -- An older database of the same generation has the same phrases.
  have hsame : ∀ d ∈ s.past, d.generation = db.generation → d.phrases = db.phrases := by
    intro d hd he
    rcases hc with ⟨hphrases, hgen⟩ | hlt
    · rw [hphrases]
      exact h.distinct d hd s.db h.present (he.trans hgen)
    · have hd' := h.latest d hd
      omega
  refine ⟨mem_append_right _ (mem_singleton.mpr rfl), ?_, ?_, ?_, ?_⟩
  · intro d hd
    rcases mem_append.mp hd with hd | hd
    · exact (h.latest d hd).trans hle
    · rw [mem_singleton.mp hd]
      exact le_rfl
  · intro d hd d' hd' he
    rcases mem_append.mp hd with hd | hd <;> rcases mem_append.mp hd' with hd' | hd'
    · exact h.distinct d hd d' hd' he
    · rw [mem_singleton.mp hd'] at he ⊢
      exact hsame d hd he
    · rw [mem_singleton.mp hd] at he ⊢
      exact (hsame d' hd' he.symm).symm
    · rw [mem_singleton.mp hd, mem_singleton.mp hd']
  · intro g hg
    rcases hp with hp | hp
    · have hg' : g ∈ s.pending := hg
      rw [hp] at hg'
      exact absurd hg' not_mem_nil
    · exact (h.pending g hg).trans hp.symm
  · intro f hf
    obtain ⟨d, hd, hfacts⟩ := h.instant f hf
    exact ⟨d, mem_append_left _ hd, hfacts⟩

theorem SnapshotInv.step {x : Externals} {s s' : SnapshotRun} {a : SnapshotAction}
    (h : SnapshotInv s) (hc : Undisturbed x s a) (hs : s.step x a = some s') : SnapshotInv s' := by
  cases a with
  | readGeneration =>
    cases hs
    refine ⟨h.present, h.latest, h.distinct, ?_, h.instant⟩
    intro g hg
    rcases mem_append.mp hg with hg | hg
    · exact h.pending g hg
    · exact mem_singleton.mp hg
  | readPhrases i =>
    simp only [SnapshotRun.step] at hs
    split at hs
    · simp at hs
    rename_i generation hi
    cases hs
    refine ⟨h.present, h.latest, h.distinct, ?_, ?_⟩
    · intro g hg
      exact h.pending g (mem_of_mem_eraseIdx hg)
    · intro f hf
      rcases mem_append.mp hf with hf | hf
      · exact h.instant f hf
      · -- Nothing was committed since the generation was read: the instant is now.
        rw [mem_singleton.mp hf]
        exact ⟨s.db, h.present, (h.pending generation (mem_of_getElem? hi)).symm, rfl⟩
  | call call =>
    cases hs
    exact h.commit (call.commits x s.db) hc

/-- In every run in which no write is committed between the two reads of a snapshot, the
snapshots are consistent with their generations. -/
theorem snapshots_consistent (x : Externals) (db : LocalDB) (actions : List SnapshotAction)
    (t : SnapshotRun)
    (h : Runs.run (Runs.restrict (Undisturbed x) (SnapshotRun.step x)) (.start db) actions =
      some t) : SnapshotsConsistent t := by
  have hstart : SnapshotInv (.start db) := by
    refine ⟨mem_singleton.mpr rfl, ?_, ?_, fun _ hg => absurd hg not_mem_nil,
      fun _ hf => absurd hf not_mem_nil⟩
    · intro d hd
      rw [mem_singleton.mp hd]
      exact le_rfl
    · intro d hd d' hd' _
      rw [mem_singleton.mp hd, mem_singleton.mp hd']
  have hi : SnapshotInv t := by
    apply Runs.run_invariant SnapshotInv ?_ hstart h
    intro u a u' hu hstep
    obtain ⟨hc, hstep⟩ := Runs.restrict_some hstep
    exact hu.step hc hstep
  refine ⟨hi.instant, ?_⟩
  intro f hf f' hf' he
  obtain ⟨d, hd, hgen, hphrases⟩ := hi.instant f hf
  obtain ⟨d', hd', hgen', hphrases'⟩ := hi.instant f' hf'
  have hsame := hi.distinct d hd d' hd' (by rw [hgen, hgen', he])
  rw [hphrases, hphrases', LocalDB.records, LocalDB.records, hsame]

def sampleSave : StoreCall :=
  .mutate (sampleConfig false).store (.save (samplePhrase "a")) sampleReading

/-- A snapshot of the new store, and one with a save between its two reads: the same
generation, and other phrases. -/
theorem snapshot_torn_by_save : ∃ t f f',
    Runs.run (SnapshotRun.step sampleExternals) (.start .empty)
      [.readGeneration, .readPhrases 0, .readGeneration, .call sampleSave, .readPhrases 0] =
        some t ∧
    f ∈ t.finished ∧ f' ∈ t.finished ∧ f.generation = f'.generation ∧ f.phrases ≠ f'.phrases ∧
    ¬ ∃ db ∈ t.past, db.generation = f'.generation ∧ f'.phrases = db.records := by
  simp only [exists_and_left]
  exact Runs.exists_some _ (by decide +kernel) (fun t _ h => h)

/-- Snapshots before and after a save. -/
theorem snapshots_consistent_sample : ∃ t,
    Runs.run (Runs.restrict (Undisturbed sampleExternals) (SnapshotRun.step sampleExternals))
      (.start .empty)
      [.readGeneration, .readPhrases 0, .call sampleSave, .readGeneration, .readPhrases 0] =
        some t ∧
    t.finished.map Snapshot.generation = [0, 1] ∧ SnapshotsConsistent t := by
  apply Runs.exists_some (fun t => t.finished.map Snapshot.generation = [0, 1]) (by decide +kernel)
  intro t ht h
  exact ⟨h, snapshots_consistent sampleExternals .empty _ t ht⟩

end YunPin
