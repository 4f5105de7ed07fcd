import YunPin.StoreFit

/-! The invariant of a store along a run whose clock does not wrap around: the store
is fit, no record is ahead of the stored clock, and every row of the outbox is at
most as new as the record of its object. -/
namespace YunPin
open ByteText

def HLC.Within (clock : HLC) (db : LocalDB) : Prop :=
  clock.wallMillis < db.hlcWall ∨
    (clock.wallMillis = db.hlcWall ∧ clock.counter ≤ db.hlcCounter)

variable {db : LocalDB}

theorem HLC.Within.of_le {a b : HLC} (hb : b.Within db) (h : a ≤ b) : a.Within db := by
  unfold HLC.Within at hb ⊢
  rcases h.lt_or_eq with hlt | rfl
  · rw [HLC.lt_iff] at hlt
    omega
  · exact hb

def LocalDB.ClockLE (db db' : LocalDB) : Prop :=
  db.hlcWall < db'.hlcWall ∨ (db.hlcWall = db'.hlcWall ∧ db.hlcCounter ≤ db'.hlcCounter)

theorem HLC.Within.mono {clock : HLC} {db' : LocalDB} (h : clock.Within db) (hle : db.ClockLE db') :
    clock.Within db' := by
  unfold HLC.Within at h ⊢
  unfold LocalDB.ClockLE at hle
  omega

/-- A tick is later than everything within the stored clock, and is the new stored
clock, unless the stored clock is the last one there is. -/
theorem nextHLC_later (store : Store) (now : Reading) (hwall : -2^63 ≤ db.hlcWall)
    (hroom : db.hlcWall < maxInt64 ∨ db.hlcCounter < maxUint32) :
    (∀ c : HLC, c.Within db → c < (nextHLC store now db).1) ∧
      (nextHLC store now db).1.Within (nextHLC store now db).2 ∧
      db.ClockLE (nextHLC store now db).2 := by
  have hwrap : db.hlcWall < maxInt64 → wrapInt64 (db.hlcWall+1) = db.hlcWall+1 := by
    intro hmax
    unfold wrapInt64
    unfold maxInt64 at hmax
    apply Int.bmod_eq_of_le <;> omega
  unfold nextHLC
  refine ⟨?_, .inr ⟨rfl, le_rfl⟩, ?_⟩
  · intro c hc
    rw [HLC.lt_iff]
    unfold HLC.Within at hc
    dsimp only
    split_ifs <;> dsimp only <;> omega
  · unfold LocalDB.ClockLE
    dsimp only
    split_ifs <;> dsimp only <;> omega

theorem nextHLC_facts (store : Store) (now : Reading) (hwall : 0 ≤ db.hlcWall)
    (hmax : db.hlcWall < maxInt64) :
    (∀ c : HLC, c.Within db → c < (nextHLC store now db).1) ∧
      (nextHLC store now db).1.Within (nextHLC store now db).2 ∧
      db.ClockLE (nextHLC store now db).2 :=
  nextHLC_later store now (by omega) (.inl hmax)

theorem observeHLC_facts (observed : HLC) (db : LocalDB) :
    observed.Within (observeHLC observed db) ∧ db.ClockLE (observeHLC observed db) := by
  unfold observeHLC HLC.Within LocalDB.ClockLE
  split_ifs
  · dsimp only
    omega
  · omega

theorem le_latestClock (p : Phrase) :
    p.crdt.pinned.clock ≤ latestClock p ∧ p.crdt.presence.clock ≤ latestClock p := by
  unfold latestClock
  split_ifs with h
  · exact ⟨((HLC.compare_neg_iff).mp h).le, le_rfl⟩
  · exact ⟨le_rfl, not_lt.mp (fun hlt => h ((HLC.compare_neg_iff).mpr hlt))⟩

def Phrase.Within (p : Phrase) (db : LocalDB) : Prop :=
  p.crdt.pinned.clock.Within db ∧ p.crdt.presence.clock.Within db

structure SoundInv (x : Externals) (D : DeviceSet) (store : Store) (db : LocalDB) : Prop where
  fit : StoreSound x D store db
  wall : 0 ≤ db.hlcWall
  within : ∀ id p, db.phrases.find? id = some p → p.Within db
  below : ∀ r ∈ db.outbox, ∃ p, db.phrases.find? r.objectID = some p ∧
    r.phrase.crdt.view ≤ p.crdt.view

abbrev StoreInv (x : Externals) (store : Store) (db : LocalDB) : Prop :=
  SoundInv x syncDevices store db

theorem SoundInv.empty (x : Externals) {D : DeviceSet} (store : Store) (row : Option SyncState) :
    SoundInv x D store { LocalDB.empty with syncState := row } :=
  ⟨.empty x store row, le_rfl, by simp [LocalDB.empty], by simp [LocalDB.empty]⟩

variable {x : Externals} {D : DeviceSet} {store : Store}

theorem SoundInv.tick {db' : LocalDB} (h : SoundInv x D store db) (hrows : db.SameRows db')
    (hclock : db.ClockLE db') :
    SoundInv x D store db' := by
  refine ⟨h.fit.sameRows hrows, ?_, ?_, ?_⟩
  · have := h.wall
    unfold LocalDB.ClockLE at hclock
    omega
  · rw [hrows.phrases]
    intro id p hp
    obtain ⟨hpin, hpres⟩ := h.within id p hp
    exact ⟨hpin.mono hclock, hpres.mono hclock⟩
  · rw [hrows.phrases, hrows.outbox]
    exact h.below

theorem write_clock (db : LocalDB) (id : ObjectID) (p : Phrase) (enqueue : Bool) :
    (db.write id p enqueue).hlcWall = db.hlcWall ∧
      (db.write id p enqueue).hlcCounter = db.hlcCounter := by
  unfold LocalDB.write LocalDB.enqueue
  cases enqueue
  · exact ⟨rfl, rfl⟩
  · simp only [if_true]
    split_ifs <;> exact ⟨rfl, rfl⟩

theorem SoundInv.write (h : SoundInv x D store db) {id : ObjectID} {p : Phrase} (enqueue : Bool)
    (hgood : p.Sound x D store id) (hclock : p.Within db)
    (hgrows : ∀ old, db.phrases.find? id = some old → old.crdt.view ≤ p.crdt.view) :
    SoundInv x D store (db.write id p enqueue) := by
  obtain ⟨hwall, hcounter⟩ := write_clock db id p enqueue
  have hwithin (c : HLC) (hc : c.Within db) : c.Within (db.write id p enqueue) := by
    unfold HLC.Within
    rw [hwall, hcounter]
    exact hc
  refine ⟨h.fit.write enqueue hgood, by rw [hwall]; exact h.wall, ?_, ?_⟩
  · intro id' p' hp'
    rw [write_phrases, SortedMap.find?_insert] at hp'
    split_ifs at hp' with hid
    · cases hp'
      exact ⟨hwithin _ hclock.1, hwithin _ hclock.2⟩
    · obtain ⟨hpin, hpres⟩ := h.within id' p' hp'
      exact ⟨hwithin _ hpin, hwithin _ hpres⟩
  · intro r hr
    rw [write_phrases]
    rcases mem_write_outbox hr with hold | ⟨hid, hphrase⟩
    · obtain ⟨q, hq, hle⟩ := h.below r hold
      rw [SortedMap.find?_insert]
      split_ifs with hid
      · exact ⟨p, rfl, hle.trans (hgrows q (hid ▸ hq))⟩
      · exact ⟨q, hq, hle⟩
    · rw [hid, hphrase, SortedMap.find?_insert_self]
      exact ⟨p, rfl, le_rfl⟩

theorem SoundInv.committed (h : SoundInv x D store db) (row : SyncState) (u : PreparedUpload) :
    SoundInv x D store (db.committed row u) :=
  ⟨⟨h.fit.records, fun r hr => h.fit.outbox r ((mem_committed db row u r).mp hr).1⟩, h.wall,
    h.within,
    fun r hr => h.below r ((mem_committed db row u r).mp hr).1⟩

theorem SoundInv.foundEarlier (h : SoundInv x D store db) (hmax : db.hlcWall < maxInt64)
    (now : Reading) (id : ObjectID) :
    FoundEarlier (nextHLC store now db).1 (db.phrases.find? id) := by
  obtain ⟨hlater, _, _⟩ := nextHLC_facts store now h.wall hmax
  intro old hold
  obtain ⟨hpin, hpres⟩ := h.within id old hold
  exact ⟨hlater _ hpin, hlater _ hpres⟩

section
variable (h : SoundInv x D store db) (hd : D.mem store.deviceID) (hmax : db.hlcWall < maxInt64)
  {now : Reading} {m : Mutation} (hm : m.KeepsObject x store) (hplain : m.bringsState = false)
include h hd hmax hm hplain

/-- What a local operation writes is filed under the object it was asked about, and is
above the record it has found there. -/
theorem SoundInv.written {id id' : ObjectID} {w : Write}
    (hid : store.objectID x m.text m.pinyin = .ok id)
    (hw : m.write? store now id (nextHLC store now db).1 (db.phrases.find? id) = some w)
    (hid' : store.objectID x w.record.text w.record.pinyin = .ok id') :
    id' = id ∧
      WriteFacts x D store now m id (nextHLC store now db).1 (db.phrases.find? id) w.record ∧
      w.record.crdt.UpTo (nextHLC store now db).1 ∧
      ∀ old, db.phrases.find? id = some old → old.crdt.view ≤ (jsonPhrase w.record).crdt.view := by
  have hfacts := write_facts (h.fit.records id) hd hm hid (fun _ => hplain) hw
  obtain ⟨hup, hgrows⟩ := hfacts.result.rises (h.foundEarlier hmax now id)
  refine ⟨Except.ok.inj (hid'.symm.trans hfacts.identity), hfacts, hup, ?_⟩
  intro old hold
  rw [hfacts.crdt]
  exact hgrows old hold

theorem SoundInv.mutation {r : Option Write × LocalDB} (hr : MutationMove x store now m db r) :
    SoundInv x D store r.2 := by
  obtain ⟨_, hwithin, hle⟩ := nextHLC_facts store now h.wall hmax
  have htick := h.tick (nextHLC_sameRows store now db) hle
  cases hr with
  | nothing => exact h
  | tick => exact htick
  | write id w id' hid hw hid' =>
    obtain ⟨rfl, hfacts, hup, hgrows⟩ := h.written hd hmax hm hplain hid hw hid'
    apply htick.write w.enqueue hfacts.stored ?_ hgrows
    unfold Phrase.Within
    rw [hfacts.crdt]
    exact ⟨hwithin.of_le hup.pinned, hwithin.of_le hup.presence⟩

end

theorem SoundInv.merge_write (h : SoundInv x D store db) {m : Merge} {record : Phrase}
    (hp : m.payload.state.Good m.id) (hv : m.payload.validText = true)
    (hread : m.existing = db.phrases.find? m.id) (hrec : m.record x store = .ok record)
    (hclock : record.Within db) : SoundInv x D store (db.write m.id (jsonPhrase record) false) := by
  have hgood := merge_record_good hp hv
    (fun old hold => h.fit.records m.id old (hread ▸ hold)) hrec
  rw [hgood.json]
  apply h.write false (.of_sync hgood) hclock
  intro old hold
  obtain ⟨_, _, _, _, _, _, hview⟩ := merge_record_ok hp hrec
  rw [(hview old (hread.trans hold)).2]
  exact le_sup_left

theorem SoundInv.mergeRemotePayload (h : SoundInv x D store db) (now : Reading)
    {payload : PhrasePayload} (hv : payload.validText = true) :
    SoundInv x D store (YunPin.mergeRemotePayload x store now payload db).2 := by
  rcases h.fit.migrated.mergeRemotePayload_cases x store now payload with
    ⟨e, he⟩ | ⟨m, record, hload, hrec, he⟩
  · rw [he]
    exact h
  · rw [he]
    obtain ⟨hpay, _, hgood, hread, hexist⟩ := mergeLoad_ok hload
    obtain ⟨hwithin, hle⟩ := observeHLC_facts (latestClock record) db
    have hrows := observeHLC_sameRows (latestClock record) db
    apply (h.tick hrows hle).merge_write (hpay ▸ hgood) (hpay ▸ hv)
      (by rw [hrows.phrases, hexist, hread]) hrec
    exact ⟨hwithin.of_le (le_latestClock record).1, hwithin.of_le (le_latestClock record).2⟩

end YunPin
