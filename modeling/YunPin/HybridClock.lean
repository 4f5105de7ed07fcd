import YunPin.Runs
import YunPin.SampleSystem
import YunPin.StoreInvariant

/-! The hybrid clock of a store. Local operations issue clocks through `nextHLC`, merges
feed the clocks of remote states to `observeHLC`, and the wall time of the machine may
jump in any direction. The stored pair of wall time and counter is never behind a clock
that was issued or merged, so the next tick is later than all of them. Only at the very
last clock, which a remote state may bring, the carry out of the counter wraps around. -/
namespace YunPin
open ByteText List Option

def Mutation.skipped : Mutation → Bool
  | .select _ learning => learning.disabled
  | _ => false

def Mutation.issued (x : Externals) (store : Store) (now : Reading) (m : Mutation)
    (db : LocalDB) : Option HLC :=
  if m.skipped then none
  else
    match store.objectID x m.text m.pinyin with
    | .error _ => none
    | .ok _ => some (nextHLC store now db).1

def Merge.issued (store : Store) (now : Reading) (m : Merge) (db : LocalDB) : Option HLC :=
  match m.existing with
  | none => none
  | some old => if old.crdt.objectID = [] then some (nextHLC store now db).1 else none

def mergeIssued (x : Externals) (store : Store) (now : Reading) (payload : PhrasePayload)
    (db : LocalDB) : Option HLC :=
  (mergeLoad x store payload db).toOption.bind (fun m => m.issued store now db)

/-- The stored clock has not moved, or it has moved to the clock that was issued. -/
inductive Ticked (store : Store) (now : Reading) (db db' : LocalDB) : Option HLC → Prop
  | none (hw : db'.hlcWall = db.hlcWall) (hc : db'.hlcCounter = db.hlcCounter) :
      Ticked store now db db' none
  | some (hw : db'.hlcWall = (nextHLC store now db).2.hlcWall)
      (hc : db'.hlcCounter = (nextHLC store now db).2.hlcCounter) :
      Ticked store now db db' (some (nextHLC store now db).1)

theorem upsert_clock (x : Externals) (store : Store) (phrase : Phrase) (enqueue : Bool)
    (db : LocalDB) : (upsert x store phrase enqueue db).2.hlcWall = db.hlcWall ∧
      (upsert x store phrase enqueue db).2.hlcCounter = db.hlcCounter := by
  unfold upsert
  split
  · exact ⟨rfl, rfl⟩
  · exact write_clock _ _ _ _

theorem mutate_ticked {α : Type} (x : Externals) (store : Store) (now : Reading)
    (text pinyin : Bytes) (decide_ : ObjectID → HLC → Option Phrase → Except String (Plan α))
    (db : LocalDB) : Ticked store now db (mutate x store now text pinyin decide_ db).2
      (match store.objectID x text pinyin with
        | .error _ => none
        | .ok _ => some (nextHLC store now db).1) := by
  unfold mutate
  cases hid : store.objectID x text pinyin with
  | error e => exact .none rfl rfl
  | ok id =>
    dsimp only
    split
    · exact .some rfl rfl
    rename_i plan _
    split
    · exact .some rfl rfl
    rename_i w _
    have hclock := upsert_clock x store w.record w.enqueue (nextHLC store now db).2
    split <;> rename_i hup <;> rw [hup] at hclock <;> exact .some hclock.1 hclock.2

theorem Mutation.exec_ticked (x : Externals) (store : Store) (now : Reading) (m : Mutation)
    (db : LocalDB) : Ticked store now db (m.exec x store now db).2 (m.issued x store now db) := by
  cases m with
  | save phrase =>
    have h := mutate_ticked x store now phrase.text phrase.pinyin (explicitPlan store phrase) db
    simp only [Mutation.exec, saveExplicit]
    split <;> rename_i he <;> rw [he] at h <;> exact h
  | select phrase learning =>
    have h := mutate_ticked x store now phrase.text phrase.pinyin (selectionPlan store now phrase) db
    cases hl : learning.disabled with
    | true =>
      simp only [Mutation.exec, recordSelection, Mutation.issued, Mutation.skipped, hl, if_true]
      exact .none rfl rfl
    | false =>
      simp only [Mutation.exec, recordSelection, Mutation.issued, Mutation.skipped, hl,
        Bool.false_eq_true, if_false]
      split <;> rename_i he <;> rw [he] at h <;> exact h
  | delete text pinyin =>
    have h := mutate_ticked x store now text pinyin (deletionPlan store text pinyin) db
    simp only [Mutation.exec, deletePhrase]
    split <;> rename_i he <;> rw [he] at h <;> exact h

theorem migrate_ticked (store : Store) (now : Reading) (m : Merge) (db : LocalDB) :
    Ticked store now db (m.migrate store now db).2 (m.issued store now db) := by
  unfold Merge.migrate Merge.issued
  cases m.existing with
  | none => exact .none rfl rfl
  | some old =>
    dsimp only
    split_ifs
    · split <;> exact .some rfl rfl
    · exact .none rfl rfl

/-- What a merge does to the clock: perhaps a tick, and then, if it succeeds, the clocks
of the record that it stores are observed. -/
theorem mergeRemotePayload_clock (x : Externals) (store : Store) (now : Reading)
    (payload : PhrasePayload) (db : LocalDB) :
    ∃ db', Ticked store now db db' (mergeIssued x store now payload db) ∧
      ((∃ e, mergeRemotePayload x store now payload db = (.error e, db')) ∨
        ∃ id record, validatePayloadObject x payload store.idKey = .ok id ∧ record.crdt.Good id ∧
          mergeRemotePayload x store now payload db =
            (.ok (), (observeHLC (latestClock record) db').write id (jsonPhrase record) false)) := by
  unfold mergeRemotePayload mergeIssued
  cases hload : mergeLoad x store payload db with
  | error e => exact ⟨db, .none rfl rfl, .inl ⟨e, rfl⟩⟩
  | ok m =>
    have hticked := migrate_ticked store now m db
    refine ⟨(m.migrate store now db).2, hticked, ?_⟩
    obtain ⟨hpay, hobj, hgood, _, _⟩ := mergeLoad_ok hload
    cases hmig : m.migrate store now db with
    | mk r db' =>
      cases r with
      | error e => exact .inl ⟨e, by simp only [hmig]⟩
      | ok m' =>
        obtain ⟨hpay', hid', _, _⟩ := migrate_ok hmig
        cases hrec : m'.record x store with
        | error e => exact .inl ⟨e, by simp only [hmig, hrec]⟩
        | ok record =>
          right
          have hvalid : m'.payload.state.Good m'.id := by
            rw [hpay', hid', hpay]
            exact hgood
          obtain ⟨_, _, _, hstate, hid, _, _⟩ := merge_record_ok hvalid hrec
          rw [hid'] at hstate hid
          refine ⟨m.id, record, ?_, hstate, by simp only [hmig, hrec, upsert, hid]⟩
          exact (validatePayloadObject_ok_iff x store payload m.id).mpr ⟨hobj, hgood⟩

inductive StoreCall
  | mutate (store : Store) (m : Mutation) (now : Reading)
  | merge (store : Store) (payload : PhrasePayload) (now : Reading)

/-- A clock that `nextHLC` has returned, or one that a merge has put into a record. -/
inductive ClockEvent
  | issued (clock : HLC)
  | merged (clock : HLC)
deriving DecidableEq

def ClockEvent.clock : ClockEvent → HLC
  | .issued clock => clock
  | .merged clock => clock

/-- A database and the events on it, the latest one at the end. -/
structure ClockLog where
  db : LocalDB
  events : List ClockEvent

def LocalDB.recordClocks (db : LocalDB) (id : ObjectID) : List HLC :=
  match db.phrases.find? id with
  | none => []
  | some p => [p.crdt.pinned.clock, p.crdt.presence.clock]

def mergedClocks (x : Externals) (store : Store) (payload : PhrasePayload)
    (r : Except String Unit × LocalDB) : List HLC :=
  match r.1, validatePayloadObject x payload store.idKey with
  | .ok (), .ok id => r.2.recordClocks id
  | _, _ => []

def ClockLog.step (x : Externals) (s : ClockLog) : StoreCall → Option ClockLog
  | .mutate store m now =>
    some ⟨(m.exec x store now s.db).2,
      s.events ++ (m.issued x store now s.db).toList.map .issued⟩
  | .merge store payload now =>
    let r := mergeRemotePayload x store now payload s.db
    some ⟨r.2, s.events ++ (mergeIssued x store now payload s.db).toList.map .issued ++
      (mergedClocks x store payload r).map .merged⟩

def ClockRoom (s : ClockLog) (_ : StoreCall) : Prop :=
  s.db.hlcWall < maxInt64 ∨ s.db.hlcCounter < maxUint32

instance (s : ClockLog) (a : StoreCall) : Decidable (ClockRoom s a) :=
  inferInstanceAs (Decidable (_ ∨ _))

def ClockEvent.Before (e e' : ClockEvent) : Prop :=
  match e' with
  | .issued clock => 0 < clock.compare e.clock
  | .merged _ => True

instance : DecidableRel ClockEvent.Before := fun e e' => by
  unfold ClockEvent.Before
  cases e' <;> infer_instance

structure ClockInv (s : ClockLog) : Prop where
  wall : -2^63 ≤ s.db.hlcWall
  within : ∀ e ∈ s.events, e.clock.Within s.db
  increasing : s.events.Pairwise ClockEvent.Before

variable {s : ClockLog}

theorem ClockInv.append (h : ClockInv s) {db' : LocalDB} (hle : s.db.ClockLE db')
    (events : List ClockEvent) (hwithin : ∀ e ∈ events, e.clock.Within db')
    (hlater : ∀ e ∈ events, ∀ d ∈ s.events, d.Before e) (hnew : events.Pairwise ClockEvent.Before) :
    ClockInv ⟨db', s.events ++ events⟩ := by
  refine ⟨?_, ?_, pairwise_append.mpr ⟨h.increasing, hnew, fun d hd e he => hlater e he d hd⟩⟩
  · have hwall := h.wall
    unfold LocalDB.ClockLE at hle
    dsimp only
    omega
  · intro e he
    rcases mem_append.mp he with he | he
    · exact (h.within e he).mono hle
    · exact hwithin e he

theorem ClockInv.ticked (h : ClockInv s) {store : Store} {now : Reading}
    (hroom : s.db.hlcWall < maxInt64 ∨ s.db.hlcCounter < maxUint32) {db' : LocalDB}
    {issued : Option HLC} (ht : Ticked store now s.db db' issued) :
    ClockInv ⟨db', s.events ++ issued.toList.map .issued⟩ := by
  cases ht with
  | none hw hc =>
    apply h.append (.inr ⟨hw.symm, hc.ge⟩)
    · simp
    · simp
    · exact List.Pairwise.nil
  | some hw hc =>
    obtain ⟨hlater, hin, hle⟩ := nextHLC_later store now h.wall hroom
    have hin' : (nextHLC store now s.db).1.Within db' := by
      unfold HLC.Within at hin ⊢
      rw [hw, hc]
      exact hin
    have hle' : s.db.ClockLE db' := by
      unfold LocalDB.ClockLE at hle ⊢
      rw [hw, hc]
      exact hle
    apply h.append hle'
    · simpa [ClockEvent.clock] using hin'
    · simp only [toList_some, map_cons, map_nil, mem_singleton, forall_eq]
      intro d hd
      exact (HLC.compare_pos_iff).mpr (hlater d.clock (h.within d hd))
    · exact pairwise_singleton _ _

theorem ClockInv.step {x : Externals} {s' : ClockLog} {a : StoreCall} (h : ClockInv s)
    (hroom : ClockRoom s a) (hs : s.step x a = some s') : ClockInv s' := by
  cases a with
  | mutate store m now =>
    cases hs
    exact h.ticked hroom (m.exec_ticked x store now s.db)
  | merge store payload now =>
    cases hs
    obtain ⟨db', hticked, hend⟩ := mergeRemotePayload_clock x store now payload s.db
    have htick := h.ticked hroom hticked
    rcases hend with ⟨e, he⟩ | ⟨id, record, hvalid, hgood, he⟩
    · simp only [he, mergedClocks, map_nil, append_nil]
      exact htick
    · -- The clocks of the stored record are those of the merged one, and both are observed.
      have hstored : mergedClocks x store payload (mergeRemotePayload x store now payload s.db) =
          [record.crdt.pinned.clock, record.crdt.presence.clock] := by
        have hjson : (jsonPhrase record).crdt = record.crdt := hgood.json
        simp only [mergedClocks, he, hvalid, LocalDB.recordClocks, write_phrases,
          SortedMap.find?_insert_self, hjson]
      obtain ⟨hobserved, hle⟩ := observeHLC_facts (latestClock record) db'
      obtain ⟨hwall, hcounter⟩ := write_clock (observeHLC (latestClock record) db') id
        (jsonPhrase record) false
      have hwithin (c : HLC) (hc : c ≤ latestClock record) :
          c.Within (mergeRemotePayload x store now payload s.db).2 := by
        have hin := hobserved.of_le hc
        unfold HLC.Within at hin ⊢
        rw [he]
        dsimp only
        rw [hwall, hcounter]
        exact hin
      have hle' : db'.ClockLE (mergeRemotePayload x store now payload s.db).2 := by
        unfold LocalDB.ClockLE at hle ⊢
        rw [he]
        dsimp only
        rw [hwall, hcounter]
        exact hle
      rw [hstored]
      apply htick.append hle'
      · simp only [map_cons, map_nil, mem_cons, not_mem_nil, or_false,
          forall_eq_or_imp, forall_eq]
        exact ⟨hwithin _ (le_latestClock record).1, hwithin _ (le_latestClock record).2⟩
      · simp [ClockEvent.Before]
      · simp [ClockEvent.Before]

/-- In every run whose calls all find a stored clock that is not the last one, each
issued clock is later than all clocks that were issued or merged before it. -/
theorem hybrid_clock_increasing (x : Externals) (db : LocalDB) (hdb : -2^63 ≤ db.hlcWall)
    (calls : List StoreCall) (t : ClockLog)
    (h : Runs.run (Runs.restrict ClockRoom (ClockLog.step x)) ⟨db, []⟩ calls = some t) :
    t.events.Pairwise ClockEvent.Before := by
  have hstart : ClockInv ⟨db, []⟩ := ⟨hdb, by simp, List.Pairwise.nil⟩
  have hi : ClockInv t := by
    apply Runs.run_invariant ClockInv ?_ hstart h
    intro u a u' hu hstep
    obtain ⟨hroom, hstep⟩ := Runs.restrict_some hstep
    exact hu.step hroom hstep
  exact hi.increasing

/-- A remote state at the last clock there is. It is valid: clocks are not checked. -/
def lastClockPayload : PhrasePayload :=
  samplePayload "a" "" ⟨maxInt64, maxUint32, hexEncode (sampleDevice true)⟩

/-- The first local operation after it is stamped with the smallest wall time. -/
theorem clock_wraps_around : ∃ t,
    Runs.run (ClockLog.step sampleExternals) ⟨LocalDB.empty, []⟩
      [.merge (sampleConfig false).store lastClockPayload sampleReading,
        .mutate (sampleConfig false).store (.save (samplePhrase "a")) sampleReading] = some t ∧
    ¬t.events.Pairwise ClockEvent.Before := by
  exact Runs.exists_some _ (by decide +kernel) (fun t _ h => h)

/-- The counter carries into the wall time, and the machine's clock jumps back. -/
theorem hybrid_clock_increasing_carry : ∃ t,
    Runs.run (Runs.restrict ClockRoom (ClockLog.step sampleExternals))
      ⟨{ LocalDB.empty with hlcWall := 7, hlcCounter := maxUint32 }, []⟩
      [.mutate (sampleConfig false).store (.save (samplePhrase "a")) ⟨5, 5⟩,
        .mutate (sampleConfig false).store (.delete (lit "a") (lit "ni")) ⟨3, 3⟩] = some t ∧
    t.events.length = 2 ∧ t.events.Pairwise ClockEvent.Before := by
  apply Runs.exists_some (fun t => t.events.length = 2) (by decide +kernel)
  intro t ht h
  exact ⟨h, hybrid_clock_increasing sampleExternals _ (by decide) _ t ht⟩

end YunPin
