import YunPin.Deletion

/-! A local operation finds its record by the object of its arguments and files what it writes
under the object of the record it has read back. The rows of all other objects stay as they are
exactly when the two agree. -/
namespace YunPin
open ByteText List Option

variable (x : Externals) (store : Store)

/-- The record and the queued row of an object are the same. -/
structure SameObject (o : ObjectID) (db db' : LocalDB) : Prop where
  record : db'.phrases.find? o = db.phrases.find? o
  queued : db'.outbox.filter (fun row => row.objectID = o) =
    db.outbox.filter (fun row => row.objectID = o)

theorem enqueue_filter (db : LocalDB) {id o : ObjectID} (p : Phrase) (h : o ≠ id) :
    (db.enqueue id p).outbox.filter (fun row => row.objectID = o) =
      db.outbox.filter (fun row => row.objectID = o) := by
  unfold LocalDB.enqueue
  split_ifs
  · dsimp only
    induction db.outbox with
    | nil => rfl
    | cons row rest ih =>
      rw [map_cons, filter_cons, filter_cons, ih]
      split_ifs <;> grind
  · rw [filter_append, filter_singleton]
    simp [h.symm]

theorem SameObject.write (db : LocalDB) {id o : ObjectID} (p : Phrase) (enqueue : Bool)
    (h : o ≠ id) : SameObject o db (db.write id p enqueue) := by
  refine ⟨by rw [write_phrases, SortedMap.find?_insert_ne _ _ _ _ h], ?_⟩
  unfold LocalDB.write
  dsimp only
  split_ifs
  · exact enqueue_filter _ p h
  · rfl

/-- The operation writes under the object of its arguments, and the rows of all other objects stay
as they are. -/
structure OneRecord (now : Reading) (m : Mutation) (db : LocalDB) : Prop where
  written : ∀ w, (m.exec x store now db).1 = some w →
    store.objectID x w.record.text w.record.pinyin = store.objectID x m.text m.pinyin
  frame : ∀ o, store.objectID x m.text m.pinyin ≠ .ok o →
    SameObject o db (m.exec x store now db).2

theorem frame_of_written {now : Reading} {m : Mutation} {db : LocalDB}
    (h : ∀ w, (m.exec x store now db).1 = some w →
      store.objectID x w.record.text w.record.pinyin = store.objectID x m.text m.pinyin) :
    ∀ o, store.objectID x m.text m.pinyin ≠ .ok o →
      SameObject o db (m.exec x store now db).2 := by
  intro o ho
  have hmove := m.exec_move x store now db
  generalize m.exec x store now db = r at h hmove
  cases hmove with
  | nothing | tick => exact ⟨rfl, rfl⟩
  | write id w id' hid hw hid' =>
    have hne : o ≠ id' := by
      rintro rfl
      exact ho ((h w rfl).symm.trans hid')
    have hwrite := SameObject.write (nextHLC store now db).2 (jsonPhrase w.record) w.enqueue hne
    exact ⟨hwrite.record, hwrite.queued⟩

/-- If it writes and is not `SaveExplicit`, the record it has found has the object it was found
under. -/
def ReadsOwn (now : Reading) (m : Mutation) (db : LocalDB) : Prop :=
  ∀ id old, (m.exec x store now db).1.isSome → store.objectID x m.text m.pinyin = .ok id →
    db.phrases.find? id = some old →
      (∃ phrase, m = .save phrase) ∨ store.objectID x old.text old.pinyin = .ok id

theorem oneRecord_iff (now : Reading) (m : Mutation) (db : LocalDB) :
    OneRecord x store now m db ↔ ReadsOwn x store now m db := by
  have hmove := m.exec_move x store now db
  suffices h : (∀ w, (m.exec x store now db).1 = some w →
      store.objectID x w.record.text w.record.pinyin = store.objectID x m.text m.pinyin) ↔
      ReadsOwn x store now m db from
    ⟨fun hone => h.mp hone.written, fun hown => ⟨h.mpr hown, frame_of_written x store (h.mpr hown)⟩⟩
  unfold ReadsOwn
  generalize m.exec x store now db = r at hmove
  cases hmove with
  | nothing => simp
  | tick => simp
  | write id w id' hid hw hid' =>
    obtain ⟨htext, hpinyin⟩ := (m.objectWrite store hw).1
    simp only [some.injEq, forall_eq', isSome_some, forall_true_left, hid,
      Except.ok.injEq, htext, hpinyin]
    constructor
    · rintro hown _ old rfl hold
      rw [hold] at hown
      cases m with
      | save phrase => exact .inl ⟨phrase, rfl⟩
      | select phrase learning | delete text pinyin => exact .inr hown
    · intro hown
      cases hold : db.phrases.find? id with
      | none => cases m <;> exact hid
      | some old =>
        rcases hown id old rfl hold with ⟨phrase, rfl⟩ | hsame
        · exact hid
        · cases m with
          | save phrase => exact hid
          | select phrase learning => exact hsame
          | delete text pinyin => exact hsame

theorem save_exec {now : Reading} {phrase : Phrase} {db : LocalDB} {w : Write}
    (h : ((Mutation.save phrase).exec x store now db).1 = some w) :
    ∃ id, store.objectID x phrase.text phrase.pinyin = .ok id ∧
      ∃ p, ((Mutation.save phrase).exec x store now db).2.phrases.find? id = some p ∧
        p.text = toValidUTF8 phrase.text ∧ p.pinyin = toValidUTF8 phrase.pinyin ∧
        p.deleted = false ∧ p.crdt.Of id := by
  have hmove := (Mutation.save phrase).exec_move x store now db
  generalize (Mutation.save phrase).exec x store now db = r at h hmove
  cases hmove with
  | nothing => cases h
  | tick => cases h
  | write id w' id' hid hw hid' =>
    obtain ⟨⟨htext, hpinyin, hlive⟩, hwrite⟩ := save_write store hw
    have hstate := hwrite.state
    rw [htext, hpinyin] at hid'
    obtain rfl := Except.ok.inj (hid.symm.trans hid')
    refine ⟨id, hid, jsonPhrase w'.record, ?_, ?_, ?_, hlive, ?_, hstate.2⟩
    · rw [write_phrases, SortedMap.find?_insert_self]
    · exact congrArg toValidUTF8 htext
    · exact congrArg toValidUTF8 hpinyin
    · change toValidUTF8 w'.record.crdt.objectID = _
      rw [hstate.1, toValidUTF8_of_valid _ (validUTF8_hexEncode _)]

structure LocalOperations : Prop where
  /-- An operation touches one record exactly when it finds the record of its arguments. -/
  one_record : ∀ now m db, OneRecord x store now m db ↔ ReadsOwn x store now m db
  /-- What was saved can be deleted exactly when the repair of invalid UTF-8 keeps its object. -/
  deleted : ∀ now phrase db w, ((Mutation.save phrase).exec x store now db).1 = some w →
    ∃ id, store.objectID x phrase.text phrase.pinyin = .ok id ∧ ∀ now',
      ((∀ p, ((Mutation.delete phrase.text phrase.pinyin).exec x store now'
          ((Mutation.save phrase).exec x store now db).2).2.phrases.find? id = some p →
        p.deleted = true) ↔
      store.objectID x (toValidUTF8 phrase.text) (toValidUTF8 phrase.pinyin) = .ok id)

theorem local_operations_one_record (x : Externals) (store : Store) : LocalOperations x store := by
  refine ⟨oneRecord_iff x store, ?_⟩
  intro now phrase db w h
  obtain ⟨id, hid, p, hp, htext, hpinyin, hlive, hs⟩ := save_exec x store h
  refine ⟨id, hid, fun now' => ?_⟩
  obtain ⟨q, hdead, _, hexec⟩ := delete_exec now' hid hp hs
  rw [hexec, htext, hpinyin]
  cases store.objectID x (toValidUTF8 phrase.text) (toValidUTF8 phrase.pinyin) with
  | error e => simp [hp, hlive]
  | ok id' =>
    simp only [SortedMap.find?_insert, Except.ok.injEq]
    split_ifs with hsame
    · simp [hsame, hdead]
    · simp [hp, hlive, Ne.symm hsame]

/-- The last byte of the text is invalid: the record reads U+FFFD, the deletion is filed under
another object, and the saved record stays. -/
theorem deletion_beside_record : ∃ (db : LocalDB) (id id' : ObjectID),
    db = ((Mutation.save invalidPhrase).exec sampleExternals
      (sampleConfig false).store sampleReading .empty).2 ∧
    (sampleConfig false).store.objectID sampleExternals [0x61, 0xFF] (lit "ni") = .ok id ∧
    id' ≠ id ∧ db.phrases.find? id' = none ∧
    (((Mutation.delete [0x61, 0xFF] (lit "ni")).exec sampleExternals (sampleConfig false).store
      sampleReading db).2.phrases.find? id').isSome ∧
    (((Mutation.delete [0x61, 0xFF] (lit "ni")).exec sampleExternals (sampleConfig false).store
      sampleReading db).2.phrases.find? id).map (·.deleted) = some false := by
  obtain ⟨id, hid, id', -, h⟩ :
      ∃ id ∈ ((sampleConfig false).store.objectID sampleExternals [0x61, 0xFF]
        (lit "ni")).toOption, ∃ id' ∈ ((sampleConfig false).store.objectID sampleExternals
        (toValidUTF8 [0x61, 0xFF]) (lit "ni")).toOption,
      let db := ((Mutation.save invalidPhrase).exec
        sampleExternals (sampleConfig false).store sampleReading .empty).2
      let db' := ((Mutation.delete [0x61, 0xFF] (lit "ni")).exec sampleExternals
        (sampleConfig false).store sampleReading db).2
      id' ≠ id ∧ db.phrases.find? id' = none ∧ (db'.phrases.find? id').isSome ∧
        (db'.phrases.find? id).map (·.deleted) = some false := by
    decide +kernel
  exact ⟨_, id, id', rfl, toOption_eq_some hid, h⟩

end YunPin
