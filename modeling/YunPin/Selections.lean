import YunPin.SampleSystem
import YunPin.StoreFit

/-! Selections. A phrase that is picked once stays on the device; the second pick makes
it eligible for sync. The threshold is compared with the total of the record's counters,
so it counts picks only as long as the counters start at zero: the first selection of a
phrase takes the counters from its argument. -/
namespace YunPin
open ByteText List Option

variable {store : Store} {now : Reading} {phrase : Phrase} {id : ObjectID} {plan : Plan LearnResult}

variable {existing : Option Phrase}

theorem selectionPlan_recorded {clock : HLC}
    (h : selectionPlan store now phrase id clock existing = .ok plan) :
    plan.result.recorded = plan.write.isSome := by
  unfold selectionPlan at h
  split at h
  · simp at h
  split_ifs at h
  · split at h
    · simp at h
    · cases h
      rfl
  · cases h
    rfl

/-- A selection changes no row and reports that nothing was recorded, or it writes the
record it has counted and reports so. -/
theorem recordSelection_cases (x : Externals) (store : Store) (now : Reading) (phrase : Phrase)
    (learning : LearningContext) (db : LocalDB) :
    (db.SameRows (recordSelection x store now phrase learning db).2 ∧
      ∀ plan, (recordSelection x store now phrase learning db).1 = .ok plan →
        plan.result.recorded = false) ∨
    ∃ id plan w id', store.objectID x phrase.text phrase.pinyin = .ok id ∧
      selectionPlan store now phrase id (nextHLC store now db).1 (db.phrases.find? id) =
        .ok plan ∧ plan.write = some w ∧
      (Mutation.select phrase learning).write? store now id (nextHLC store now db).1
        (db.phrases.find? id) = some w ∧
      store.objectID x w.record.text w.record.pinyin = .ok id' ∧
      recordSelection x store now phrase learning db =
        (.ok plan, (nextHLC store now db).2.write id' (jsonPhrase w.record) w.enqueue) := by
  have hrows := nextHLC_sameRows store now db
  cases hl : learning.disabled with
  | true =>
    left
    simp only [recordSelection, hl, if_true]
    refine ⟨.refl db, ?_⟩
    intro plan he
    rw [← Except.ok.inj he]
  | false =>
    simp only [recordSelection, mutate, Mutation.write?, hl, Bool.false_eq_true, if_false]
    cases hid : store.objectID x phrase.text phrase.pinyin with
    | error e => exact .inl ⟨.refl db, by simp⟩
    | ok id =>
      dsimp only
      cases hplan : selectionPlan store now phrase id (nextHLC store now db).1
          (db.phrases.find? id) with
      | error e => exact .inl ⟨hrows, by simp⟩
      | ok plan =>
        have hrec := selectionPlan_recorded hplan
        dsimp only
        cases hw : plan.write with
        | none =>
          left
          refine ⟨hrows, ?_⟩
          intro plan' he
          rw [← Except.ok.inj he, hrec, hw, isSome_none]
        | some w =>
          cases hid' : store.objectID x w.record.text w.record.pinyin with
          | error e =>
            left
            simp only [upsert, hid']
            exact ⟨hrows, by simp⟩
          | ok id' =>
            right
            refine ⟨id, plan, w, id', rfl, hplan, hw, ?_, hid', ?_⟩
            · simp only [hplan, Except.toOption, bind_some, hw]
            · simp only [upsert, hid']

def countsBefore (existing : Option Phrase) : Counts :=
  (existing.map (fun old => old.crdt.counts.getD ∅)).getD ∅

/-- One more on this device's counter, and a total that decides about sync. A phrase
that is new to the store must not bring counts of its own. -/
theorem selectionPlan_counts {clock : HLC} {w : Write} (hn : clock.node ≠ [])
    (hex : Found syncDevices id existing)
    (hplain : existing = none → phrase.crdt.objectID = [] ∧ phrase.useCount = 0)
    (h : selectionPlan store now phrase id clock existing = .ok plan) (hw : plan.write = some w) :
    ((countsBefore existing).find? store.deviceID).getD 0 ≠ maxUint64 ∧
      w.record.crdt.counts = some ((countsBefore existing).insert store.deviceID
        (((countsBefore existing).find? store.deviceID).getD 0+1)) ∧
      w.enqueue = decide (totalCounts (w.record.crdt.counts.getD ∅) ≥ learningThreshold) := by
  -- The counters of the record after its migration, whether it was found or not.
  obtain ⟨record, hrecord, hcounts⟩ : ∃ record,
      ensurePhraseState (selectionBase existing phrase) id store.deviceID clock = .ok record ∧
      record.crdt.counts.getD ∅ = countsBefore existing := by
    cases existing with
    | none =>
      obtain ⟨hobj, huse⟩ := hplain rfl
      refine ⟨_, ensurePhraseState_fresh _ id _ hobj hn, ?_⟩
      simp [materializePhrase, freshState, selectionBase, huse, countsBefore]
    | some old =>
      obtain ⟨hgood, hmat⟩ := hex old rfl
      exact ⟨old, ensurePhraseState_good old _ clock hgood hmat, rfl⟩
  unfold selectionPlan at h
  simp only [hrecord] at h
  split_ifs at h
  · split at h
    · simp at h
    rename_i counted hcounted
    cases h
    cases hw
    unfold countSelection at hcounted
    simp only [hcounts] at hcounted
    split_ifs at hcounted with hmax
    cases hcounted
    exact ⟨hmax, rfl, rfl⟩
  · cases h
    simp at hw

structure Selection where
  phrase : Phrase
  learning : LearningContext
  now : Reading

/-- The database, and the object of every call that has returned `Recorded`. -/
structure SelectionLog where
  db : LocalDB
  recorded : List ObjectID

def recordedObject (x : Externals) (store : Store) (phrase : Phrase)
    (r : Except String (Plan LearnResult)) : List ObjectID :=
  match r, store.objectID x phrase.text phrase.pinyin with
  | .ok plan, .ok id => if plan.result.recorded then [id] else []
  | _, _ => []

theorem recordedObject_eq_nil (x : Externals) (store : Store) (phrase : Phrase)
    {r : Except String (Plan LearnResult)}
    (h : ∀ plan, r = .ok plan → plan.result.recorded = false) :
    recordedObject x store phrase r = [] := by
  unfold recordedObject
  split
  · rename_i plan _ _
    rw [h plan rfl]
    rfl
  · rfl

def SelectionLog.step (x : Externals) (store : Store) (s : SelectionLog) (a : Selection) :
    Option SelectionLog :=
  let r := recordSelection x store a.now a.phrase a.learning s.db
  some ⟨r.2, s.recorded ++ recordedObject x store a.phrase r.1⟩

/-- The repair of invalid UTF-8 does not move the phrase to another object, and a phrase
that is new to the store brings neither a use count nor CRDT state. -/
def CountsFromZero (x : Externals) (store : Store) (s : SelectionLog) (a : Selection) : Prop :=
  (Mutation.select a.phrase a.learning).KeepsObject x store ∧
    ∀ id ∈ (store.objectID x a.phrase.text a.phrase.pinyin).toOption,
      s.db.phrases.find? id = none → a.phrase.crdt.objectID = [] ∧ a.phrase.useCount = 0

instance (x : Externals) (store : Store) (s : SelectionLog) (a : Selection) :
    Decidable (CountsFromZero x store s a) := by
  unfold CountsFromZero
  infer_instance

def Phrase.CountedBy (p : Phrase) (deviceID : Bytes) (n : ℕ) : Prop :=
  ∃ c : UInt64, p.crdt.counts = some ((∅ : Counts).insert deviceID c) ∧ c.toNat = n

structure SelectionInv (x : Externals) (store : Store) (s : SelectionLog) : Prop where
  fit : StoreFit x store s.db
  counted : ∀ id p, s.db.phrases.find? id = some p →
    p.CountedBy store.deviceID (s.recorded.count id)
  fresh : ∀ id, s.db.phrases.find? id = none → s.recorded.count id = 0
  rows : ∀ r ∈ s.db.outbox, 2 ≤ s.recorded.count r.objectID

theorem totalCounts_single (d : Bytes) (n : UInt64) :
    totalCounts ((∅ : Counts).insert d n) = n := by
  have hentries : ((∅ : Counts).insert d n).entries = [(d, n)] := rfl
  have hroom : ¬maxUint64-0 < n := by
    rw [UInt64.lt_iff_toNat_lt]
    have hbound := n.toNat_lt
    have hm : (maxUint64-0).toNat = 2^64-1 := by decide
    omega
  rw [totalCounts, hentries, addCounts, if_neg hroom, addCounts, UInt64.zero_add]

theorem insert_insert_single (d : Bytes) (m n : UInt64) :
    ((∅ : Counts).insert d m).insert d n = (∅ : Counts).insert d n := by
  apply SortedMap.ext_find?
  intro k
  simp only [SortedMap.find?_insert]
  split_ifs <;> rfl

theorem count_concat (l : List ObjectID) (id o : ObjectID) :
    (l ++ [id]).count o = l.count o + if o = id then 1 else 0 := by
  rw [count_append]
  split_ifs with ho
  · rw [ho, count_singleton_self]
  · rw [count_eq_zero.mpr (fun hm => ho (mem_singleton.mp hm))]

theorem selection_counted {n : ℕ}
    (hold : ∀ old, existing = some old → old.CountedBy store.deviceID n)
    (hnone : existing = none → n = 0) {record : Phrase}
    (hmax : ((countsBefore existing).find? store.deviceID).getD 0 ≠ maxUint64)
    (hcounts : record.crdt.counts = some ((countsBefore existing).insert store.deviceID
      (((countsBefore existing).find? store.deviceID).getD 0+1))) :
    record.CountedBy store.deviceID (n+1) := by
  obtain ⟨c, hc, hinsert⟩ : ∃ c : UInt64, c.toNat = n ∧
      ((countsBefore existing).find? store.deviceID).getD 0 = c ∧
      ∀ v, (countsBefore existing).insert store.deviceID v = (∅ : Counts).insert store.deviceID v := by
    cases existing with
    | none => exact ⟨0, (hnone rfl).symm, rfl, fun _ => rfl⟩
    | some old =>
      obtain ⟨c, hcounts, hc⟩ := hold old rfl
      have hbefore : countsBefore (some old) = (∅ : Counts).insert store.deviceID c := by
        simp only [countsBefore, map_some, getD_some, hcounts]
      refine ⟨c, hc, ?_, ?_⟩
      · rw [hbefore, SortedMap.find?_insert_self, getD_some]
      · intro v
        rw [hbefore, insert_insert_single]
  obtain ⟨hfind, hinsert⟩ := hinsert
  rw [hfind] at hmax hcounts
  refine ⟨c+1, by rw [hcounts, hinsert], ?_⟩
  rw [toNat_succ_of_ne_max hmax]
  omega

theorem SelectionInv.step {x : Externals} (hd : validSyncDeviceID store.deviceID = true)
    {s s' : SelectionLog} {a : Selection} (h : SelectionInv x store s)
    (hc : CountsFromZero x store s a) (hs : s.step x store a = some s') :
    SelectionInv x store s' := by
  cases hs
  obtain ⟨hkeeps, hzero⟩ := hc
  rcases recordSelection_cases x store a.now a.phrase a.learning s.db with
    ⟨hrows, hnot⟩ | ⟨id, plan, w, id', hid, hplan, hw, hwrite, hid', he⟩
  · -- Nothing was recorded, so neither the rows nor the log have changed.
    simp only [recordedObject_eq_nil x store a.phrase hnot, append_nil]
    refine ⟨h.fit.sameRows hrows, ?_, ?_, ?_⟩
    · rw [hrows.phrases]
      exact h.counted
    · rw [hrows.phrases]
      exact h.fresh
    · rw [hrows.outbox]
      exact h.rows
  · -- The record of `id` was written, with this device's counter one higher.
    have hplain (hnone : s.db.phrases.find? id = none) :=
      hzero id (by rw [hid]; rfl) hnone
    have hbrings (hnone : s.db.phrases.find? id = none) :
        (Mutation.select a.phrase a.learning).bringsState = false := by
      simp [Mutation.bringsState, (hplain hnone).1]
    have hfacts := write_facts (h.fit.records id) hd hkeeps hid hbrings hwrite
    obtain rfl : id' = id := Except.ok.inj (hid'.symm.trans hfacts.identity)
    have hfound : Found syncDevices id' (s.db.phrases.find? id') := by
      intro old hold
      have hgood := h.fit.records id' old hold
      exact ⟨hgood.state, hgood.materialized⟩
    obtain ⟨hmax, hcounts, henqueue⟩ := selectionPlan_counts
      (syncDeviceID_ne_nil _ hd) hfound hplain hplan hw
    have hcounted := selection_counted (h.counted id') (h.fresh id') hmax hcounts
    have hlog : recordedObject x store a.phrase (.ok plan) = [id'] := by
      have hrecorded := selectionPlan_recorded hplan
      simp only [recordedObject, hid, hrecorded, hw, isSome_some, if_true]
    have hcount := count_concat s.recorded id'
    have hrows := nextHLC_sameRows store a.now s.db
    simp only [he, hlog]
    refine ⟨(h.fit.sameRows hrows).write _ hfacts.stored, ?_, ?_, ?_⟩
    · intro o p hp
      rw [write_phrases, hrows.phrases, SortedMap.find?_insert] at hp
      rw [hcount]
      split_ifs at hp ⊢ with ho
      · cases hp
        obtain ⟨c, hcc, hcn⟩ := hcounted
        refine ⟨c, ?_, by rw [hcn, ho]⟩
        rw [hfacts.crdt, hcc]
      · exact h.counted o p hp
    · intro o hnone
      rw [write_phrases, hrows.phrases, SortedMap.find?_insert] at hnone
      split_ifs at hnone with ho
      rw [hcount, if_neg ho, Nat.add_zero]
      exact h.fresh o hnone
    · intro r hr
      have hold (hr : r ∈ s.db.outbox) : 2 ≤ (s.recorded ++ [id']).count r.objectID := by
        rw [hcount]
        exact (h.rows r hr).trans (Nat.le_add_right _ _)
      cases henq : w.enqueue with
      | false =>
        rw [henq] at hr
        exact hold hr
      | true =>
        rw [henq] at hr
        rcases mem_write_outbox hr with hr | ⟨hrow, _⟩
        · exact hold hr
        · -- The total is this device's counter, and it has reached the threshold.
          obtain ⟨c, hcc, hcn⟩ := hcounted
          have htotal := of_decide_eq_true (henqueue.symm.trans henq)
          rw [hcc, getD_some, totalCounts_single] at htotal
          have hle := UInt64.le_iff_toNat_le.mp htotal
          have htwo : learningThreshold.toNat = 2 := by decide
          rw [hrow, hcount, if_pos rfl]
          omega

structure SingleSelectionStays (x : Externals) (store : Store) (t : SelectionLog) : Prop where
  rows : ∀ r ∈ t.db.outbox, 2 ≤ t.recorded.count r.objectID
  unchanged : ∀ a t', a.learning.disabled = true → t.step x store a = some t' → t' = t

/-- In every run of selections on a new store, each of them counting from zero, there is
an outbox row only for an object with two recorded selections; and a selection in a
protected context changes nothing. -/
theorem single_selection_stays (x : Externals) (dataKey idKey deviceID : Bytes) (store : Store)
    (db : LocalDB) (hopen : openForDevice dataKey idKey deviceID .empty = (.ok store, db))
    (calls : List Selection) (t : SelectionLog)
    (h : Runs.run (Runs.restrict (CountsFromZero x store) (SelectionLog.step x store)) ⟨db, []⟩
      calls = some t) : SingleSelectionStays x store t := by
  obtain ⟨hd, _, rfl⟩ := openForDevice_empty_ok hopen
  have hstart : SelectionInv x store ⟨.bound store.deviceID, []⟩ :=
    ⟨.empty x store _, by simp [LocalDB.bound, LocalDB.empty], by simp,
      by simp [LocalDB.bound, LocalDB.empty]⟩
  have hi : SelectionInv x store t := by
    apply Runs.run_invariant (SelectionInv x store) ?_ hstart h
    intro u a u' hu hstep
    obtain ⟨hc, hstep⟩ := Runs.restrict_some hstep
    exact hu.step hd hc hstep
  refine ⟨hi.rows, ?_⟩
  intro a t' hdisabled hstep
  cases hstep
  have hlog : recordedObject x store a.phrase (.ok ⟨none, ⟨false, 0, false⟩⟩) = [] := by
    unfold recordedObject
    split
    · rename_i plan _ hok _
      rw [← Except.ok.inj hok]
      rfl
    · rfl
  simp only [recordSelection, hdisabled, if_true, hlog, append_nil]

def plainContext : LearningContext := ⟨false, false, false⟩

/-- The first selection of a phrase whose argument says it was used five times. -/
theorem first_selection_enqueued : ∃ store db t r,
    openForDevice sampleKey sampleKey (hexEncode (sampleDevice false)) .empty = (.ok store, db) ∧
    Runs.run (SelectionLog.step sampleExternals store) ⟨db, []⟩
      [⟨{ samplePhrase "a" with useCount := 5 }, plainContext, sampleReading⟩] = some t ∧
    r ∈ t.db.outbox ∧ t.recorded.count r.objectID = 1 := by
  refine ⟨(sampleConfig false).store, (.bound (sampleConfig false).store.deviceID), ?_⟩
  simp only [exists_and_left]
  exact ⟨sampleConfig_open false, Runs.exists_some _ (by decide +kernel) (fun t _ h => h)⟩

/-- Two selections of one phrase and one of another. -/
theorem single_selection_stays_sample : ∃ store db t,
    openForDevice sampleKey sampleKey (hexEncode (sampleDevice false)) .empty = (.ok store, db) ∧
    Runs.run (Runs.restrict (CountsFromZero sampleExternals store)
      (SelectionLog.step sampleExternals store)) ⟨db, []⟩
      [⟨samplePhrase "a", plainContext, sampleReading⟩,
        ⟨samplePhrase "b", plainContext, sampleReading⟩,
        ⟨samplePhrase "a", plainContext, sampleReading⟩] = some t ∧
    t.db.outbox.length = 1 ∧ SingleSelectionStays sampleExternals store t := by
  refine ⟨(sampleConfig false).store, (.bound (sampleConfig false).store.deviceID), ?_⟩
  simp only [exists_and_left]
  refine ⟨sampleConfig_open false, Runs.exists_some (fun t => t.db.outbox.length = 1)
    (by decide +kernel) ?_⟩
  intro t ht h
  exact ⟨h, single_selection_stays sampleExternals _ _ _ _ _ (sampleConfig_open false) _ t ht⟩

end YunPin
