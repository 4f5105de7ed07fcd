import YunPin.SampleSystem
import YunPin.StoreInvariant

/-! Every operation of a store moves the replicated state of a record upwards: a peer
that still has the old state takes nothing of the new one back when the two meet. This
rests on the stored clock, which is ahead of every record, and on every record being
rewritten under its own object. -/
namespace YunPin
open ByteText List Option

/-- The new state absorbs the old one, on whichever side it is merged. -/
structure Inflation (s s' : PhraseState) : Prop where
  old_new : ∃ m, mergePhrase s s' = .ok m ∧ SameState m s'
  new_old : ∃ m, mergePhrase s' s = .ok m ∧ SameState m s'

variable {x : Externals} {D : DeviceSet} {store : Store} {db : LocalDB}

variable {s s' : PhraseState} {db' : LocalDB} {idKey : Bytes} {r : Replica}

theorem PhraseState.Sound.inflation {id : ObjectID} (hs : s.Sound D id) (hs' : s'.Sound D id)
    (hle : s.view ≤ s'.view) : Inflation s s' := by
  refine ⟨(hs.dominated_iff hs').mpr hle, ?_⟩
  have hobj : s'.objectID = s.objectID := hs'.objectID.trans hs.objectID.symm
  obtain ⟨m, hm⟩ : ∃ m, mergePhrase s' s = .ok m :=
    ⟨_, (mergePhrase_ok_iff s' s _).mpr ⟨⟨hs'.objectID_ne_nil, hobj⟩, rfl⟩⟩
  have hview := mergePhrase_view s' s m hm
  obtain ⟨_, hdef⟩ := (mergePhrase_ok_iff s' s m).mp hm
  refine ⟨m, hm, (sameState_iff m s').mpr ⟨by rw [hdef], ?_⟩⟩
  calc m.view = s'.view ⊔ s.view := hview
    _ = s'.view := sup_eq_left.mpr hle

def LocalDB.Rises (db db' : LocalDB) : Prop :=
  ∀ o p, db.phrases.find? o = some p →
    ∃ p', db'.phrases.find? o = some p' ∧ p.crdt.view ≤ p'.crdt.view

theorem LocalDB.Rises.of_phrases (h : db'.phrases = db.phrases) : db.Rises db' := by
  intro o p hp
  exact ⟨p, by rw [h]; exact hp, le_rfl⟩

theorem LocalDB.Rises.write (hrows : db.SameRows db') (id : ObjectID) (p : Phrase) (enqueue : Bool)
    (hgrows : ∀ old, db.phrases.find? id = some old → old.crdt.view ≤ p.crdt.view) :
    db.Rises (db'.write id p enqueue) := by
  intro o q hq
  rw [write_phrases, hrows.phrases, SortedMap.find?_insert]
  split_ifs with ho
  · exact ⟨p, rfl, hgrows q (ho ▸ hq)⟩
  · exact ⟨q, hq, le_rfl⟩

theorem SoundInv.mutation_rises (h : SoundInv x D store db) (hd : D.mem store.deviceID)
    (hmax : db.hlcWall < maxInt64) {now : Reading} {m : Mutation} (hm : m.KeepsObject x store)
    (hplain : m.bringsState = false) {r : Option Write × LocalDB}
    (hr : MutationMove x store now m db r) : db.Rises r.2 := by
  cases hr with
  | nothing | tick => exact .of_phrases rfl
  | write id w id' hid hw hid' =>
    obtain ⟨rfl, _, _, hgrows⟩ := h.written hd hmax hm hplain hid hw hid'
    exact LocalDB.Rises.write (nextHLC_sameRows store now db) _ _ _ hgrows

theorem SoundInv.merge_rises (h : SoundInv x D store db) (now : Reading) {payload : PhrasePayload}
    (hv : payload.validText = true) :
    db.Rises (YunPin.mergeRemotePayload x store now payload db).2 := by
  rcases h.fit.migrated.mergeRemotePayload_cases x store now payload with
    ⟨e, he⟩ | ⟨m, record, hload, hrec, he⟩
  · rw [he]
    exact .of_phrases rfl
  · rw [he]
    obtain ⟨hpay, _, hgood, hread, hexist⟩ := mergeLoad_ok hload
    have hrecord := merge_record_good (hpay ▸ hgood) (hpay ▸ hv)
      (fun old hold => h.fit.records m.id old ((hexist.trans hread) ▸ hold)) hrec
    apply LocalDB.Rises.write (observeHLC_sameRows (latestClock record) db)
    intro old hold
    obtain ⟨_, _, _, _, _, _, hview⟩ := merge_record_ok (hpay ▸ hgood) hrec
    rw [hrecord.json, (hview old (by rw [hexist, hread, hold])).2]
    exact le_sup_left

theorem SoundInv.congr {store' : Store} (h : store.idKey = store'.idKey)
    (hi : SoundInv x D store db) : SoundInv x D store' db :=
  ⟨hi.fit.congr h, hi.wall, hi.within, hi.below⟩

structure Replica.Orderly (x : Externals) (idKey : Bytes) (r : Replica) : Prop where
  store : ∀ store : Store, store.idKey = idKey → SoundInv x storeDevices store r.db
  handles : ∀ store ∈ r.handles, store.idKey = idKey ∧ storeDevices.mem store.deviceID

theorem Replica.Orderly.of_store (h : r.Orderly x idKey) (hk : store.idKey = idKey)
    (hi : SoundInv x storeDevices store db') : Replica.Orderly x idKey { r with db := db' } :=
  ⟨fun _ hk' => hi.congr (hk.trans hk'.symm), h.handles⟩

theorem Replica.Orderly.opened (h : r.Orderly x idKey) {handles : List Store}
    (ho : OpenFacts idKey r.db db' handles) :
    Replica.Orderly x idKey ⟨db', r.handles ++ handles⟩ := by
  refine ⟨fun store hk => ?_, ?_⟩
  · obtain ⟨⟨hrecords, houtbox⟩, hwall, hwithin, hbelow⟩ := h.store store hk
    refine ⟨⟨?_, ?_⟩, ?_, ?_, ?_⟩
    · rw [ho.phrases]
      exact hrecords
    · rw [ho.outbox]
      exact houtbox
    · rw [ho.wall]
      exact hwall
    · rw [ho.phrases]
      unfold Phrase.Within HLC.Within
      rw [ho.wall, ho.counter]
      exact hwithin
    · rw [ho.phrases, ho.outbox]
      exact hbelow
  · intro store hs
    rcases mem_append.mp hs with hs | hs
    · exact h.handles store hs
    · exact ⟨(ho.handles store hs).1, ho.devices store hs⟩

section
variable {κ : Type}

/-- The operations in question: local ones bring no replicated state and find the
stored clock below its last millisecond. -/
def InflationScope (s : Fleet κ) : FleetAction κ → Prop
  | .mutate k _ m _ => (s.replicas k).db.hlcWall < maxInt64 ∧ m.bringsState = false
  | _ => True

def Inflates (x : Externals) (s : Fleet κ) (a : FleetAction κ) : Prop :=
  InflationScope s a ∧
    match a with
    | .mutate k handle m _ => ∀ store ∈ (s.replicas k).handles[handle]?, m.KeepsObject x store
    | .merge _ _ payload _ => payload.validText = true
    | _ => True

instance (s : Fleet κ) (a : FleetAction κ) : Decidable (InflationScope s a) := by
  unfold InflationScope
  apply @FleetAction.casesOn _ _ a <;> intros <;> infer_instance

instance (x : Externals) (s : Fleet κ) (a : FleetAction κ) : Decidable (Inflates x s a) := by
  unfold Inflates
  apply @FleetAction.casesOn _ _ a <;> intros <;> infer_instance

theorem Fleet.new_orderly (x : Externals) (idKey : Bytes) (k : κ) :
    ((Fleet.new κ).replicas k).Orderly x idKey :=
  ⟨fun store _ => .empty x store none, by simp [Fleet.new]⟩

theorem Fleet.orderly_step [DecidableEq κ] {dataKey : Bytes} {s s' : Fleet κ} {a : FleetAction κ}
    (hi : ∀ k, (s.replicas k).Orderly x idKey) (hc : Inflates x s a)
    (h : s.step x dataKey idKey a = some s') (k : κ) :
    (s'.replicas k).Orderly x idKey ∧ (s.replicas k).db.Rises (s'.replicas k).db := by
  -- Only one replica changes, so the step is about its database.
  have hset (k' : κ) (r : Replica) (hr : r.Orderly x idKey) (hrises : (s.replicas k').db.Rises r.db) :
      ((s.setReplica k' r).replicas k).Orderly x idKey ∧
        (s.replicas k).db.Rises ((s.setReplica k' r).replicas k).db :=
    s.setReplica_ind (fun k r => r.Orderly x idKey ∧ (s.replicas k).db.Rises r.db) k' r
      ⟨hr, hrises⟩ (fun k => ⟨hi k, .of_phrases rfl⟩) k
  cases Fleet.step_cases h with
  | opened _ k' db' handles ho =>
    exact hset k' _ ((hi k').opened ho) (.of_phrases ho.phrases)
  | mutate k' handle m now store hs r hm =>
    obtain ⟨⟨hmax, hplain⟩, hkeeps⟩ := hc
    obtain ⟨hkey, hd⟩ := (hi k').handles store (mem_of_getElem? hs)
    have hinv := (hi k').store store hkey
    have hafter := hinv.mutation hd hmax (hkeeps store hs) hplain hm
    exact hset k' _ ((hi k').of_store hkey hafter)
      (hinv.mutation_rises hd hmax (hkeeps store hs) hplain hm)
  | send => exact ⟨hi k, .of_phrases rfl⟩
  | merge k' handle payload now store hs =>
    obtain ⟨hkey, _⟩ := (hi k').handles store (mem_of_getElem? hs)
    have hinv := (hi k').store store hkey
    exact hset k' _ ((hi k').of_store hkey (hinv.mergeRemotePayload now hc.2))
      (hinv.merge_rises now hc.2)

/-- In every run that meets the condition, each further step of it that rewrites a
record does so with a state that absorbs the old one. -/
theorem operations_inflationary [DecidableEq κ] (x : Externals) (dataKey idKey : Bytes)
    (actions : List (FleetAction κ)) (s : Fleet κ)
    (h : Runs.run (Runs.restrict (Inflates x) (Fleet.step x dataKey idKey)) (Fleet.new κ) actions =
      some s) (a : FleetAction κ) (s' : Fleet κ)
    (ha : Runs.restrict (Inflates x) (Fleet.step x dataKey idKey) s a = some s') (k : κ)
    (o : ObjectID) (p p' : Phrase) (hp : (s.replicas k).db.phrases.find? o = some p)
    (hp' : (s'.replicas k).db.phrases.find? o = some p') : Inflation p.crdt p'.crdt := by
  have hi : ∀ k, (s.replicas k).Orderly x idKey := by
    apply Runs.run_invariant (fun u : Fleet κ => ∀ k, (u.replicas k).Orderly x idKey) ?_
      (Fleet.new_orderly x idKey) h
    intro u b u' hu hstep k
    obtain ⟨hc, hstep⟩ := Runs.restrict_some hstep
    exact (Fleet.orderly_step hu hc hstep k).1
  obtain ⟨hc, ha⟩ := Runs.restrict_some ha
  obtain ⟨hi', hrises⟩ := Fleet.orderly_step hi hc ha k
  obtain ⟨q, hq, hle⟩ := hrises o p hp
  obtain rfl : q = p' := some.inj (hq.symm.trans hp')
  -- Both states belong to the object, whichever handle one looks through.
  have hold := ((hi k).store ⟨idKey, [], false⟩ rfl).fit.records o p hp
  have hnew := (hi'.store ⟨idKey, [], false⟩ rfl).fit.records o q hq
  exact hold.state.inflation hnew.state hle

end

theorem Inflation.objectID (h : Inflation s s') : s.objectID = s'.objectID := by
  obtain ⟨m, hm, _⟩ := h.old_new
  exact ((mergePhrase_ok_iff s s' m).mp hm).1.2

def repairedSaves : List (FleetAction Unit) :=
  [sampleOpen () false,
    .mutate () 0 (.save { samplePhrase "" with text := [0x61, 0xEF, 0xBF, 0xBD] }) sampleReading,
    .mutate () 0 (.save invalidPhrase) sampleReading]

def secondDelete : FleetAction Unit :=
  .mutate () 0 (.delete [0x61, 0xFF] (lit "ni")) sampleReading

/-- The record of the second phrase reads U+FFFD by now, so its deletion is written
over the record of the first, with the state of the other object. -/
theorem record_moved_by_repair : ∃ s s' o p p',
    Runs.run (Runs.restrict InflationScope sampleFleetStep) (Fleet.new Unit) repairedSaves =
      some s ∧
    Runs.restrict InflationScope sampleFleetStep s secondDelete = some s' ∧
    (s.replicas ()).db.phrases.find? o = some p ∧ (s'.replicas ()).db.phrases.find? o = some p' ∧
    ¬Inflation p.crdt p'.crdt := by
  obtain ⟨s, hs, s', hs', o, -, p, hp, p', hp', hne⟩ : ∃ s ∈ Runs.run
        (Runs.restrict InflationScope sampleFleetStep) (Fleet.new Unit) repairedSaves,
      ∃ s' ∈ Runs.restrict InflationScope sampleFleetStep s secondDelete,
      ∃ o ∈ ((sampleConfig false).store.objectID sampleExternals [0x61, 0xEF, 0xBF, 0xBD]
        (lit "ni")).toOption,
      ∃ p ∈ (s.replicas ()).db.phrases.find? o, ∃ p' ∈ (s'.replicas ()).db.phrases.find? o,
      p.crdt.objectID ≠ p'.crdt.objectID := by
    decide +kernel
  exact ⟨s, s', o, p, p', hs, hs', hp, hp', fun hi => hne hi.objectID⟩

def deviceDelete : FleetAction Unit :=
  .mutate () 1 (.delete (lit "a") (lit "ni")) sampleReading

/-- A phrase saved without sync and deleted through the handle of a device. -/
theorem operations_inflationary_sample : ∃ s s' o p p',
    Runs.run (Runs.restrict (Inflates sampleExternals) sampleFleetStep) (Fleet.new Unit)
      localFirst = some s ∧
    Runs.restrict (Inflates sampleExternals) sampleFleetStep s deviceDelete = some s' ∧
    (s.replicas ()).db.phrases.find? o = some p ∧ (s'.replicas ()).db.phrases.find? o = some p' ∧
    p.crdt ≠ p'.crdt ∧ Inflation p.crdt p'.crdt := by
  obtain ⟨s, hs, s', hs', o, -, p, hp, p', hp', hne⟩ : ∃ s ∈ Runs.run (Runs.restrict
        (Inflates sampleExternals) sampleFleetStep) (Fleet.new Unit) localFirst,
      ∃ s' ∈ Runs.restrict (Inflates sampleExternals) sampleFleetStep s deviceDelete,
      ∃ o ∈ ((sampleConfig false).store.objectID sampleExternals (lit "a") (lit "ni")).toOption,
      ∃ p ∈ (s.replicas ()).db.phrases.find? o, ∃ p' ∈ (s'.replicas ()).db.phrases.find? o,
      p.crdt ≠ p'.crdt := by
    decide +kernel
  exact ⟨s, s', o, p, p', hs, hs', hp, hp', hne,
    operations_inflationary sampleExternals sampleKey sampleKey _ s hs _ s' hs' () o p p' hp hp'⟩

end YunPin
