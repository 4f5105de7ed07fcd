import YunPin.SyncSystem

/-! Versions in the outbox. A row is rewritten in place while an older version of it
is on its way to the relay, and a row that was deleted may come back for the same
object. Still an event id with a version names one content for good. -/
namespace YunPin
open ByteText List

structure LocalDB.OutboxKeys (db : LocalDB) : Prop where
  events : (db.outbox.map (·.eventID)).Nodup
  objects : (db.outbox.map (·.objectID)).Nodup
  bound : ∀ r ∈ db.outbox, r.eventID ≤ db.lastEventID

/-- What the database still knows of an event that was read from the outbox: its id
is taken, and a row under this id with the same version has the same content. -/
def LocalDB.Remembers (db : LocalDB) (e : PendingEvent) : Prop :=
  e.id ≤ db.lastEventID ∧ ∀ r ∈ db.outbox, r.eventID = e.id →
    r.objectID = e.objectID ∧ e.version ≤ r.version ∧ (r.version = e.version → r.phrase = e.phrase)

variable {r : OutboxRow}

/-- The rows after an enqueue: other objects as before, the row of the object at its
next version, or a row of its own under a new id. -/
theorem mem_enqueue {db : LocalDB} {id : ObjectID} {phrase : Phrase}
    (h : r ∈ (db.enqueue id phrase).outbox) : (r ∈ db.outbox ∧ r.objectID ≠ id) ∨
    (∃ old ∈ db.outbox, old.objectID = id ∧
      r = { old with phrase := phrase, version := old.version+1 }) ∨
    ((∀ old ∈ db.outbox, old.objectID ≠ id) ∧ r = ⟨db.lastEventID+1, id, phrase, 1⟩) := by
  unfold LocalDB.enqueue at h
  split_ifs at h with hany
  · obtain ⟨old, hold, rfl⟩ := mem_map.mp h
    split_ifs with hid
    · exact .inr (.inl ⟨old, hold, hid, rfl⟩)
    · exact .inl ⟨hold, hid⟩
  · have hnone : ∀ old ∈ db.outbox, old.objectID ≠ id := by
      intro old hold he
      exact hany (any_eq_true.mpr ⟨old, hold, by simpa using he⟩)
    rcases mem_append.mp h with hold | hnew
    · exact .inl ⟨hold, hnone r hold⟩
    · exact .inr (.inr ⟨hnone, mem_singleton.mp hnew⟩)

theorem exists_mem_enqueue (db : LocalDB) (id : ObjectID) (phrase : Phrase) :
    ∃ r ∈ (db.enqueue id phrase).outbox, r.objectID = id ∧ r.phrase = phrase := by
  unfold LocalDB.enqueue
  split_ifs with hany
  · obtain ⟨old, hold, hid⟩ := any_eq_true.mp hany
    rw [decide_eq_true_eq] at hid
    refine ⟨{ old with phrase := phrase, version := old.version+1 }, ?_, hid, rfl⟩
    exact mem_map.mpr ⟨old, hold, by rw [if_pos hid]⟩
  · exact ⟨_, mem_append_right _ (mem_singleton_self _), rfl, rfl⟩

theorem enqueue_keeps {db : LocalDB} (id : ObjectID) (phrase : Phrase) (h : r ∈ db.outbox) :
    ∃ r' ∈ (db.enqueue id phrase).outbox, r'.eventID = r.eventID ∧ r'.objectID = r.objectID ∧
      (r'.phrase = phrase ∧ r.objectID = id ∨ r' = r) := by
  unfold LocalDB.enqueue
  split_ifs
  · by_cases hid : r.objectID = id
    · refine ⟨{ r with phrase := phrase, version := r.version+1 }, ?_, rfl, rfl, .inl ⟨rfl, hid⟩⟩
      exact mem_map.mpr ⟨r, h, by rw [if_pos hid]⟩
    · exact ⟨r, mem_map.mpr ⟨r, h, by rw [if_neg hid]⟩, rfl, rfl, .inr rfl⟩
  · exact ⟨r, mem_append_left _ h, rfl, rfl, .inr rfl⟩

theorem enqueue_lastEventID_le (db : LocalDB) (id : ObjectID) {phrase : Phrase} :
    db.lastEventID ≤ (db.enqueue id phrase).lastEventID := by
  unfold LocalDB.enqueue
  split_ifs
  · exact le_rfl
  · exact Nat.le_succ _

variable {x : Externals} {db db' : LocalDB}

theorem LocalDB.OutboxKeys.enqueue (h : db.OutboxKeys) (id : ObjectID) (phrase : Phrase) :
    (db.enqueue id phrase).OutboxKeys := by
  unfold LocalDB.enqueue
  split_ifs with hany
  · -- The object has a row: its phrase and version are replaced, its ids stay.
    have hmap {β : Type} (f : OutboxRow → β)
        (hf : ∀ r : OutboxRow, f { r with phrase := phrase, version := r.version+1 } = f r) :
        (db.outbox.map (fun r => if r.objectID = id then
          { r with phrase := phrase, version := r.version+1 } else r)).map f = db.outbox.map f := by
      rw [map_map]
      apply map_congr_left
      intro r _
      simp only [Function.comp]
      split_ifs
      · exact hf r
      · rfl
    refine ⟨?_, ?_, ?_⟩
    · rw [hmap (·.eventID) (fun _ => rfl)]
      exact h.events
    · rw [hmap (·.objectID) (fun _ => rfl)]
      exact h.objects
    · intro r hr
      obtain ⟨old, hold, rfl⟩ := mem_map.mp hr
      split_ifs <;> exact h.bound old hold
  · -- A new row, under the next event id.
    refine ⟨?_, ?_, ?_⟩
    · rw [map_append, map_singleton, nodup_append]
      refine ⟨h.events, nodup_singleton _, ?_⟩
      intro a ha b hb
      obtain ⟨r, hr, rfl⟩ := mem_map.mp ha
      rw [mem_singleton.mp hb]
      have := h.bound r hr
      dsimp only
      omega
    · rw [map_append, map_singleton, nodup_append]
      refine ⟨h.objects, nodup_singleton _, ?_⟩
      intro a ha b hb he
      obtain ⟨r, hr, rfl⟩ := mem_map.mp ha
      rw [mem_singleton.mp hb] at he
      exact hany (any_eq_true.mpr ⟨r, hr, by simpa using he⟩)
    · intro r hr
      rcases mem_append.mp hr with hr | hr
      · exact (h.bound r hr).trans (Nat.le_succ _)
      · rw [mem_singleton.mp hr]

theorem LocalDB.Remembers.enqueue {e : PendingEvent} (h : db.Remembers e) (id : ObjectID)
    (phrase : Phrase) : (db.enqueue id phrase).Remembers e := by
  refine ⟨h.1.trans (enqueue_lastEventID_le db id), ?_⟩
  intro r hr he
  rcases mem_enqueue hr with ⟨hold, _⟩ | ⟨old, hold, _, rfl⟩ | ⟨_, rfl⟩
  · exact h.2 r hold he
  · obtain ⟨hobj, hver, _⟩ := h.2 old hold he
    refine ⟨hobj, hver.trans (Nat.le_succ _), ?_⟩
    intro hv
    dsimp only at hv
    omega
  · have := h.1
    dsimp only at he
    omega

theorem pendingEvents_mem {store : Store} {limit : ℕ} {events : List PendingEvent}
    (h : pendingEvents store db limit = .ok events) {event : PendingEvent} (he : event ∈ events) :
    ∃ r ∈ db.outbox, event =
      ⟨r.eventID, r.version, r.objectID, r.phrase, store.deviceID, store.syncEnabled⟩ := by
  unfold pendingEvents at h
  split_ifs at h
  rw [← Except.ok.inj h] at he
  obtain ⟨r, hr, rfl⟩ := mem_map.mp he
  exact ⟨r, mem_of_mem_take hr, rfl⟩

theorem LocalDB.OutboxKeys.remembers (h : db.OutboxKeys) (store : Store) (hr : r ∈ db.outbox) :
    db.Remembers
      ⟨r.eventID, r.version, r.objectID, r.phrase, store.deviceID, store.syncEnabled⟩ := by
  refine ⟨h.bound r hr, ?_⟩
  intro r' hr' he
  obtain rfl : r' = r := inj_on_of_nodup_map h.events hr' hr he
  exact ⟨rfl, le_rfl, fun _ => rfl⟩

/-- Clock steps and writes without an enqueue keep it, an enqueue adds a version, a
commit drops the version it acknowledges. -/
inductive OutboxMove (db : LocalDB) : LocalDB → Prop
  | same (db' : LocalDB) (ho : db'.outbox = db.outbox) (hl : db'.lastEventID = db.lastEventID) :
      OutboxMove db db'
  | enqueue (db' : LocalDB) (id : ObjectID) (phrase : Phrase)
      (ho : db'.outbox = (db.enqueue id phrase).outbox)
      (hl : db'.lastEventID = (db.enqueue id phrase).lastEventID) : OutboxMove db db'
  | drop (row : SyncState) (upload : PreparedUpload) : OutboxMove db (db.committed row upload)

theorem OutboxMove.of_sameRows (h : db.SameRows db') : OutboxMove db db' :=
  .same db' h.outbox h.lastEventID

theorem mem_committed (db : LocalDB) (row : SyncState) (u : PreparedUpload) (r : OutboxRow) :
    r ∈ (db.committed row u).outbox ↔
      r ∈ db.outbox ∧ ¬(r.eventID = u.eventID ∧ r.version = u.eventVersion) := by
  simp only [LocalDB.committed, mem_filter, decide_eq_true_eq]

theorem OutboxMove.keys (hm : OutboxMove db db') (h : db.OutboxKeys) : db'.OutboxKeys := by
  cases hm with
  | same _ ho hl => exact ⟨by rw [ho]; exact h.events, by rw [ho]; exact h.objects, by
      rw [ho, hl]; exact h.bound⟩
  | enqueue _ id phrase ho hl =>
    have he := h.enqueue id phrase
    exact ⟨by rw [ho]; exact he.events, by rw [ho]; exact he.objects, by
      rw [ho, hl]; exact he.bound⟩
  | drop row u =>
    exact ⟨h.events.sublist (filter_sublist.map _),
      h.objects.sublist (filter_sublist.map _),
      fun r hr => h.bound r ((mem_committed db row u r).mp hr).1⟩

theorem OutboxMove.remembers (hm : OutboxMove db db') {e : PendingEvent} (h : db.Remembers e) :
    db'.Remembers e := by
  cases hm with
  | same _ ho hl =>
    refine ⟨by rw [hl]; exact h.1, ?_⟩
    rw [ho]
    exact h.2
  | enqueue _ id phrase ho hl =>
    have he := h.enqueue id phrase
    refine ⟨by rw [hl]; exact he.1, ?_⟩
    rw [ho]
    exact he.2
  | drop row u => exact ⟨h.1, fun r hr => h.2 r ((mem_committed db row u r).mp hr).1⟩

variable {cfg : HostConfig} {store : Store} {now : Reading} {m : Mutation}
  {r : Option Write × LocalDB} {a : WorkerAction} {phase phase' : Phase} {events : List Event}
  {h : Host ι}

theorem MutationMove.outbox_cases (h : MutationMove x store now m db r) :
    (r.2.outbox = db.outbox ∧ r.2.lastEventID = db.lastEventID) ∨
    ∃ id phrase, r.2.outbox = (db.enqueue id phrase).outbox ∧
      r.2.lastEventID = (db.enqueue id phrase).lastEventID := by
  cases h with
  | nothing | tick => exact .inl ⟨rfl, rfl⟩
  | write id w id' =>
    cases he : w.enqueue with
    | false => exact .inl ⟨rfl, rfl⟩
    | true => exact .inr ⟨id', jsonPhrase w.record,
        write_outbox (nextHLC_sameRows store now db) id' (jsonPhrase w.record)⟩

theorem MutationMove.outbox (h : MutationMove x store now m db r) :
    OutboxMove db r.2 := by
  rcases h.outbox_cases with ⟨ho, hl⟩ | ⟨id, phrase, ho, hl⟩
  · exact .same _ ho hl
  · exact .enqueue _ id phrase ho hl

theorem WorkerMove.outbox_cases (h : WorkerMove x cfg db a phase db' phase' events) :
    (db'.outbox = db.outbox ∧ db'.lastEventID = db.lastEventID) ∨
    ∃ state next loaded row upload, a = .commit ∧ phase = .merging state next [] ∧
      state.prepared = some loaded ∧ db.syncState = some row ∧ row.prepared = some upload ∧
      db' = db.committed row upload := by
  cases h with
  | migrateFail _ _ m _ now _ _ h | migrate _ _ m _ _ now _ h =>
    have hdb := migrate_sameRows cfg.store now m db
    rw [h] at hdb
    exact .inl ⟨hdb.outbox, hdb.lastEventID⟩
  | observe _ _ _ record =>
    have hdb := observeHLC_sameRows (latestClock record) db
    exact .inl ⟨hdb.outbox, hdb.lastEventID⟩
  | commit state next loaded upload row hl hr hp =>
    exact .inr ⟨state, next, loaded, row, upload, rfl, rfl, hl, hr, hp, rfl⟩
  | _ => exact .inl ⟨rfl, rfl⟩

theorem WorkerMove.outbox (h : WorkerMove x cfg db a phase db' phase' events) :
    OutboxMove db db' := by
  rcases h.outbox_cases with ⟨ho, hl⟩ | ⟨_, _, _, row, upload, _, _, _, _, _, rfl⟩
  · exact .same db' ho hl
  · exact .drop row upload

def Seals (x : Externals) (session : Session) (event : PendingEvent) (upload : PreparedUpload) :
    Prop :=
  ∃ state random, sealUpload x session state event random = .ok upload

section
variable {κ ι : Type}

/-- The outbox of a device still knows every event it has staged or is about to. -/
structure OutboxInv (x : Externals) (cfg : HostConfig) (h : Host ι) : Prop where
  keys : h.db.OutboxKeys
  inHand : ∀ i event upload, h.phase i = .sealed event upload →
    Seals x cfg.session event upload ∧ h.db.Remembers event
  staged : ∀ upload event, Event.staged upload event ∈ h.history →
    Seals x cfg.session event upload ∧ h.db.Remembers event

theorem OutboxInv.host_step [DecidableEq ι] {x : Externals} {cfg : HostConfig} {h : Host ι}
    (hi : OutboxInv x cfg h) (i : ι) {db' : LocalDB} {phase' : Phase} {events : List Event}
    (hm : OutboxMove h.db db') (hphase : ∀ event upload, phase' = .sealed event upload →
      Seals x cfg.session event upload ∧ h.db.Remembers event)
    (hevents : ∀ upload event, Event.staged upload event ∈ events →
      Seals x cfg.session event upload ∧ h.db.Remembers event) :
    OutboxInv x cfg ⟨db', Function.update h.phase i phase', h.history ++ events⟩ := by
  have hkeep (event : PendingEvent) (upload : PreparedUpload)
      (hr : Seals x cfg.session event upload ∧ h.db.Remembers event) :
      Seals x cfg.session event upload ∧ db'.Remembers event :=
    ⟨hr.1, hm.remembers hr.2⟩
  refine ⟨hm.keys hi.keys, ?_, ?_⟩
  · intro j event upload hj
    by_cases hji : j = i
    · subst hji
      simp only [Function.update_self] at hj
      exact hkeep event upload (hphase event upload hj)
    · simp only [Function.update_of_ne hji] at hj
      exact hkeep event upload (hi.inHand j event upload hj)
  · intro upload event he
    rcases mem_append.mp he with he | he
    · exact hkeep event upload (hi.staged upload event he)
    · exact hkeep event upload (hevents upload event he)

theorem OutboxInv.initial (hk : h.db.OutboxKeys) (hidle : ∀ i, h.phase i = .idle)
    (hh : h.history = []) : OutboxInv x cfg h :=
  ⟨hk, by simp [hidle], by simp [hh]⟩

theorem OutboxInv.step [DecidableEq κ] [Fintype κ] [DecidableEq ι] {x : Externals}
    (cfg : κ → HostConfig) {s s' : System κ ι} {a : Action κ ι} {k : κ}
    (hi : OutboxInv x (cfg k) (s.hosts k)) (h : s.step x cfg a = some s') :
    OutboxInv x (cfg k) (s'.hosts k) := by
  apply System.host_preserved h (OutboxInv x (cfg k)) hi
  · intro i db' phase' events hm
    cases hm with
    | mutate m now hl =>
      apply hi.host_step i (m.exec_move x (cfg k).store now (s.hosts k).db).outbox
      · exact hi.inHand i
      · intro upload event he
        rcases writeEvents_eq x (cfg k).store (m.exec x (cfg k).store now (s.hosts k).db).1 with
          hw | ⟨_, _, _, hw⟩ <;> simp [hw] at he
    | tick now hl =>
      exact hi.host_step i (.of_sameRows (nextHLC_sameRows _ _ _)) (hi.inHand i) (by simp)
    | worker wa _ _ _ hw =>
      apply hi.host_step i hw.outbox
      · intro event upload hph
        generalize hp : (s.hosts k).phase i = phase at hw
        cases hw with
        | seal_ state event' rest random upload' hnone he hu =>
          obtain ⟨rfl, rfl⟩ := Phase.sealed.inj hph
          obtain ⟨r, hr, rfl⟩ := pendingEvents_mem he mem_cons_self
          exact ⟨⟨state, random, hu⟩, hi.keys.remembers (cfg k).store hr⟩
        | _ => simp at hph
      · intro upload event he
        generalize hp : (s.hosts k).phase i = phase at hw
        cases hw with
        | stage event' upload' =>
          obtain ⟨rfl, rfl⟩ := Event.staged.inj (mem_singleton.mp he)
          exact hi.inHand i event upload hp
        | _ => simp at he
    | giveUp => exact hi.host_step i (.of_sameRows (.refl _)) (by simp) (by simp)
    | receive n state call reply _ _ =>
      apply hi.host_step i (.of_sameRows (.refl _))
      · intro event upload hph
        rcases onReply_cases x (cfg k).session state reply with he | ⟨_, _, _, _, _, he⟩ <;>
          simp [he] at hph
      · simp
  · intro i state _
    exact hi.host_step i (.of_sameRows (.refl _)) (by simp) (by simp)

end

end YunPin
