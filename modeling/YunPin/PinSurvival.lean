import YunPin.Deletion

/-! Pins. A phrase that was pinned and never unpinned stays pinned in the merge of all
replicas, whatever is done with other phrases, as long as the operations on it do not
create an unpinned record later than the pin. A plain selection or a deletion that
creates the record stamps it as unpinned, at a clock that may be later than the pin. -/
namespace YunPin
open ByteText List Option

/-- A record that the operation creates is pinned, or it is that of a save. -/
def Mutation.createsPinned : Mutation → Bool
  | .save _ => true
  | .select phrase _ => phrase.pinned
  | .delete _ _ => false

def Mutation.pins : Mutation → Bool
  | .save phrase => phrase.pinned
  | _ => false

/-- The operation is on the object, by its text and reading as they are given or as
they are stored. -/
def Mutation.Names (x : Externals) (store : Store) (o : ObjectID) (m : Mutation) : Prop :=
  store.objectID x m.text m.pinyin = .ok o ∨
    store.objectID x (toValidUTF8 m.text) (toValidUTF8 m.pinyin) = .ok o

instance (x : Externals) (store : Store) (o : ObjectID) (m : Mutation) :
    Decidable (m.Names x store o) :=
  inferInstanceAs (Decidable (_ ∨ _))

/-- A rule for the pins of the object in a database: in its record and in the outbox. -/
def LocalDB.EachPin (db : LocalDB) (o : ObjectID) (P : LWWBool → Prop) : Prop :=
  (∀ p ∈ db.phrases.find? o, P p.crdt.pinned) ∧
    ∀ r ∈ db.outbox, r.objectID = o → P r.phrase.crdt.pinned

instance (db : LocalDB) (o : ObjectID) (P : LWWBool → Prop) [DecidablePred P] :
    Decidable (db.EachPin o P) :=
  inferInstanceAs (Decidable (_ ∧ _))

section
variable {κ : Type}

/-- Wherever the object is unpinned, in a database or in what was sent, it is so at this
clock or an earlier one. -/
def Fleet.UnpinnedBy (s : Fleet κ) (o : ObjectID) (clock : HLC) : Prop :=
  (∀ k, (s.replicas k).db.EachPin o (fun w => w.value = false → w.clock ≤ clock)) ∧
    ∀ p ∈ s.sent, p.state.objectID = hexEncode o.val → p.state.pinned.value = false →
      p.state.pinned.clock ≤ clock

/-- Some device has the object pinned at this clock or a later one. -/
def Fleet.PinnedSince (s : Fleet κ) (o : ObjectID) (clock : HLC) : Prop :=
  ∃ k, ∃ p ∈ (s.replicas k).db.phrases.find? o, p.crdt.pinned.value = true ∧
    clock ≤ p.crdt.pinned.clock

instance [Fintype κ] (s : Fleet κ) (o : ObjectID) (clock : HLC) :
    Decidable (s.UnpinnedBy o clock) :=
  inferInstanceAs (Decidable (_ ∧ _))

instance [Fintype κ] (s : Fleet κ) (o : ObjectID) (clock : HLC) :
    Decidable (s.PinnedSince o clock) :=
  inferInstanceAs (Decidable (∃ _, _))

/-- The runs in question: operations through handles of `OpenForDevice`, and merges of
what some device has sent. -/
def PinScope (s : Fleet κ) : FleetAction κ → Prop
  | .mutate k handle _ _ => ∀ store ∈ (s.replicas k).handles[handle]?, store.syncEnabled = true
  | .merge _ _ payload _ => payload ∈ s.sent
  | _ => True

/-- An operation on `o`. The repair of invalid UTF-8 does not move it to another object;
a record that it creates takes no state from the argument and, once `o` was pinned, is
pinned as well or not later than a pin; the first pin is not before anything unpinned. -/
structure Mutation.KeepsPin (x : Externals) (s : Fleet κ) (store : Store) (now : Reading)
    (db : LocalDB) (o : ObjectID) (m : Mutation) : Prop where
  object : m.KeepsObject x store
  creates : db.phrases.find? o = none →
    m.bringsState = false ∧ ((o, true) ∈ s.saved → m.createsPinned = true ∨
      s.PinnedSince o (nextHLC store now db).1)
  first : m.pins = true → (o, true) ∉ s.saved →
    s.UnpinnedBy o (m.register (nextHLC store now db).1 (db.phrases.find? o)).clock

/-- And operations on `o` keep its pin. -/
def KeepsPins (x : Externals) (o : ObjectID) (s : Fleet κ) (a : FleetAction κ) : Prop :=
  PinScope s a ∧
    match a with
    | .mutate k handle m now => ∀ store ∈ (s.replicas k).handles[handle]?,
        m.Names x store o → m.KeepsPin x s store now (s.replicas k).db o
    | _ => True

instance (s : Fleet κ) (a : FleetAction κ) : Decidable (PinScope s a) := by
  unfold PinScope
  apply @FleetAction.casesOn _ _ a <;> intros <;> infer_instance

instance [Fintype κ] (x : Externals) (s : Fleet κ) (store : Store) (now : Reading) (db : LocalDB)
    (o : ObjectID) (m : Mutation) : Decidable (m.KeepsPin x s store now db o) :=
  decidable_of_iff (_ ∧ _ ∧ _) ⟨fun h => ⟨h.1, h.2.1, h.2.2⟩, fun h => ⟨h.1, h.2, h.3⟩⟩

instance [Fintype κ] (x : Externals) (o : ObjectID) (s : Fleet κ) (a : FleetAction κ) :
    Decidable (KeepsPins x o s a) := by
  unfold KeepsPins
  apply @FleetAction.casesOn _ _ a <;> intros <;> infer_instance

end

variable {x : Externals} {idKey : Bytes} {o id : ObjectID} {db db' : LocalDB} {p : Phrase}

theorem LocalDB.EachPin.sameRows {P : LWWBool → Prop} (h : db.EachPin o P)
    (hp : db'.phrases = db.phrases) (ho : db'.outbox = db.outbox) : db'.EachPin o P := by
  unfold LocalDB.EachPin
  rw [hp, ho]
  exact h

theorem LocalDB.EachPin.write {P : LWWBool → Prop} (h : db.EachPin o P) {enqueue : Bool}
    (hp : id = o → P p.crdt.pinned) : (db.write id p enqueue).EachPin o P := by
  refine ⟨?_, ?_⟩
  · intro q hq
    rw [write_phrases, SortedMap.find?_insert] at hq
    split_ifs at hq with ho
    · rw [← some.inj hq]
      exact hp ho.symm
    · exact h.1 q hq
  · intro r hr ho
    rcases mem_write_outbox hr with hold | ⟨hid, hphrase⟩
    · exact h.2 r hold ho
    · rw [hphrase]
      exact hp (hid.symm.trans ho)

/-- A stored phrase as far as `o` is concerned: under `o` it is fit, and elsewhere its
text is not that of `o`. -/
structure Phrase.Placed (x : Externals) (idKey : Bytes) (o id : ObjectID) (p : Phrase) : Prop where
  text : validUTF8 p.text = true
  pinyin : validUTF8 p.pinyin = true
  migrated : p.crdt.objectID ≠ []
  own : id = o → p.Good x ⟨idKey, [], false⟩ o
  other : id ≠ o → objectOf x idKey p.text p.pinyin ≠ .ok o

variable {store : Store}

/-- What an operation writes. On another object it stays away from `o`, because neither
its own text nor that of the record it finds names `o`. -/
theorem placed_mutation (h : ∀ id p, db.phrases.find? id = some p → p.Placed x idKey o id)
    (hkey : store.idKey = idKey) (hd : validSyncDeviceID store.deviceID = true) {now : Reading}
    {m : Mutation} (hm : m.Names x store o → m.KeepsObject x store ∧
      (db.phrases.find? o = none → m.bringsState = false)) {id' : ObjectID} {w : Write}
    (hid : store.objectID x m.text m.pinyin = .ok id)
    (hw : m.write? store now id (nextHLC store now db).1 (db.phrases.find? id) = some w)
    (hid' : store.objectID x w.record.text w.record.pinyin = .ok id') :
    (jsonPhrase w.record).Placed x idKey o id' ∧ (id' = o ↔ id = o) ∧
      (id = o → (jsonPhrase w.record).crdt.pinned =
        m.register (nextHLC store now db).1 (db.phrases.find? o)) := by
  by_cases ho : id = o
  · subst ho
    obtain ⟨hkeeps, hplain⟩ := hm (.inl hid)
    have hfacts := write_facts (fun old hold => ((h id old hold).own rfl).congr hkey.symm) hd
      hkeeps hid hplain hw
    obtain rfl : id' = id := Except.ok.inj (hid'.symm.trans hfacts.identity)
    have hstored := hfacts.stored
    refine ⟨⟨hstored.text, hstored.pinyin, hstored.state.objectID_ne_nil,
      fun _ => hstored.congr hkey, fun hne => absurd rfl hne⟩, Iff.rfl, fun _ => ?_⟩
    rw [hfacts.crdt, hfacts.pinned]
  · have hwrite := (m.objectWrite store hw).2
    rw [Store.objectID_eq x hkey] at hid hid'
    obtain ⟨hne, hrepaired⟩ : id' ≠ o ∧
        objectOf x idKey (toValidUTF8 w.record.text) (toValidUTF8 w.record.pinyin) ≠ .ok o := by
      rcases hwrite.text with ⟨ht, hp⟩ | ⟨old, hold, ht, hp⟩
      · rw [ht, hp] at hid' ⊢
        obtain rfl : id' = id := Except.ok.inj (hid'.symm.trans hid)
        refine ⟨ho, fun hr => ho (Except.ok.inj (hid.symm.trans ?_))⟩
        have hkeeps := (hm (.inr ((Store.objectID_eq x hkey _ _).trans hr))).1
        rw [Mutation.KeepsObject, Store.objectID_eq x hkey, Store.objectID_eq x hkey] at hkeeps
        exact hkeeps.symm.trans hr
      · have hplaced := h id old hold
        rw [ht, hp] at hid' ⊢
        rw [toValidUTF8_of_valid _ hplaced.text, toValidUTF8_of_valid _ hplaced.pinyin]
        exact ⟨fun he => hplaced.other ho (he ▸ hid'), hplaced.other ho⟩
    refine ⟨⟨validUTF8_toValidUTF8 _, validUTF8_toValidUTF8 _, ?_, fun he => absurd he hne,
      fun _ => hrepaired⟩, ⟨fun he => absurd he hne, fun he => absurd he ho⟩, fun he => absurd he ho⟩
    change toValidUTF8 w.record.crdt.objectID ≠ []
    rw [hwrite.state.1, toValidUTF8_of_valid _ (validUTF8_hexEncode _)]
    exact objectID_hex_ne_nil id

theorem placed_merge (hkey : store.idKey = idKey) {m : Merge} {record : Phrase}
    (hgood : m.payload.state.Good m.id) (hrec : m.record x store = .ok record)
    (hex : ∀ old, m.existing = some old → old.Placed x idKey o m.id)
    (ht : validUTF8 m.payload.text = true) (hp : validUTF8 m.payload.pinyin = true) :
    (jsonPhrase record).Placed x idKey o m.id ∧ (jsonPhrase record).crdt = record.crdt := by
  obtain ⟨merged, hmerged, rfl, hstate, hid, _, _⟩ := merge_record_ok hgood hrec
  obtain ⟨htext, hpinyin, _⟩ := merged_texts (validUTF8 · = true) hmerged
  have hjson : (jsonPhrase merged.record).crdt = merged.record.crdt := hstate.json
  have hrepaired : store.objectID x (toValidUTF8 merged.record.text)
      (toValidUTF8 merged.record.pinyin) = .ok m.id := by
    change store.objectID x (toValidUTF8 merged.text) (toValidUTF8 merged.pinyin) = _
    rw [toValidUTF8_of_valid _ (htext (fun old ho => (hex old ho).text) ht),
      toValidUTF8_of_valid _ (hpinyin (fun old ho => (hex old ho).pinyin) hp)]
    exact hid
  refine ⟨⟨validUTF8_toValidUTF8 _, validUTF8_toValidUTF8 _, ?_, ?_, ?_⟩, hjson⟩
  · rw [hjson]
    exact hstate.objectID_ne_nil
  · rintro rfl
    exact (jsonPhrase_good hstate rfl hrepaired).congr hkey
  · intro hne he
    rw [Store.objectID_eq x hkey] at hrepaired
    exact hne (Except.ok.inj (hrepaired.symm.trans he))

/-- The pin after a merge: that of the record or that of the payload, and not below the
record's. -/
theorem merge_register {m : Merge} {record : Phrase} (hp : m.payload.state.Good m.id)
    (h : m.record x store = .ok record) :
    (record.crdt.pinned = m.payload.state.pinned ∨
      ∃ old, m.existing = some old ∧ record.crdt.pinned = old.crdt.pinned) ∧
    ∀ old, m.existing = some old → old.crdt.pinned.view ≤ record.crdt.pinned.view := by
  obtain ⟨merged, hmerged, rfl, _, _, _, hview⟩ := merge_record_ok hp h
  refine ⟨?_, ?_⟩
  · unfold Merge.merged at hmerged
    split at hmerged
    · rename_i old hex
      obtain ⟨hstate, _⟩ := mergePhrasePayload_ok hmerged
      obtain ⟨_, hdef⟩ := (mergePhrase_ok_iff _ _ _).mp hstate
      change merged.state.pinned = _ ∨ ∃ old, _ ∧ merged.state.pinned = _
      rw [hdef]
      rcases chooseBool_cases old.payload.state.pinned m.payload.state.pinned with hc | hc
      · exact .inr ⟨old, hex, hc⟩
      · exact .inl hc
    · cases hmerged
      exact .inl rfl
  · intro old hold
    have hle : old.crdt.view ≤ merged.record.crdt.view := by
      rw [(hview old hold).2]
      exact le_sup_left
    exact ((view_le_iff _ _).mp hle).2.1

/-- As long as nobody unpins the object, an operation keeps a pin that is set, and what
it leaves unpinned is a register that it has found or that of a record it creates. -/
theorem Mutation.register_kept {m : Mutation} (existing : Option Phrase) (clock : HLC)
    (hs : ∀ phrase, m = .save phrase → phrase.pinned = true) :
    ((m.register clock existing).value = false →
      (∃ q, existing = some q ∧ m.register clock existing = q.crdt.pinned) ∨
      (existing = none ∧ m.createsPinned = false ∧ (m.register clock existing).clock = clock)) ∧
    ∀ q, existing = some q → q.crdt.pinned.value = true →
      m.register clock existing = q.crdt.pinned := by
  cases m with
  | save phrase =>
    have hpinned := hs phrase rfl
    dsimp only [Mutation.register]
    refine ⟨?_, ?_⟩
    · intro hno
      split_ifs at hno with hv
      · exact absurd (hno.symm.trans (hv.trans hpinned)) (by decide)
      · exact absurd (hno.symm.trans hpinned) (by decide)
    · rintro q rfl hq
      exact if_pos (hq.trans hpinned.symm)
  | select phrase learning =>
    cases existing with
    | none => exact ⟨fun hno => .inr ⟨rfl, hno, rfl⟩, by simp⟩
    | some q => exact ⟨fun _ => .inl ⟨q, rfl, rfl⟩, fun _ he _ => by rw [← some.inj he]; rfl⟩
  | delete text pinyin =>
    cases existing with
    | none => exact ⟨fun hno => .inr ⟨rfl, rfl, rfl⟩, by simp⟩
    | some q => exact ⟨fun _ => .inl ⟨q, rfl, rfl⟩, fun _ he _ => by rw [← some.inj he]; rfl⟩

theorem pinned_of_view_le {w v : LWWBool} (hle : w.view ≤ v.view) (hw : w.value = true)
    (hv : v.value = false → v.clock ≤ w.clock) : v.value = true ∧ w.clock ≤ v.clock := by
  rcases Prod.Lex.toLex_le_toLex.mp hle with hlt | ⟨he, hvalue⟩
  · exact ⟨by_contra fun hne => hlt.not_ge (hv (Bool.eq_false_iff.mpr hne)), hlt.le⟩
  · dsimp only at he hvalue
    rw [hw] at hvalue
    exact ⟨top_le_iff.mp hvalue, he.le⟩

section
variable {κ : Type} {s : Fleet κ}

theorem Fleet.UnpinnedBy.mono {clock clock' : HLC} (h : s.UnpinnedBy o clock)
    (hle : clock ≤ clock') : s.UnpinnedBy o clock' :=
  ⟨fun k => ⟨fun p hp hno => ((h.1 k).1 p hp hno).trans hle,
    fun r hr ho hno => ((h.1 k).2 r hr ho hno).trans hle⟩,
    fun p hp ho hno => (h.2 p hp ho hno).trans hle⟩

/-- Some device has the object pinned, and it is not unpinned later anywhere. -/
def Fleet.Pinned (s : Fleet κ) (o : ObjectID) : Prop :=
  ∃ k p, (s.replicas k).db.phrases.find? o = some p ∧ p.crdt.pinned.value = true ∧
    s.UnpinnedBy o p.crdt.pinned.clock

theorem Fleet.Pinned.since (h : s.Pinned o) {clock : HLC} (hs : s.PinnedSince o clock) :
    ∃ k p, (s.replicas k).db.phrases.find? o = some p ∧ p.crdt.pinned.value = true ∧
      s.UnpinnedBy o p.crdt.pinned.clock ∧ clock ≤ p.crdt.pinned.clock := by
  obtain ⟨k, p, hp, hvalue, hlow⟩ := h
  obtain ⟨k', q, hq, hvalue', hle⟩ := hs
  rcases le_total q.crdt.pinned.clock p.crdt.pinned.clock with hc | hc
  · exact ⟨k, p, hp, hvalue, hlow, hle.trans hc⟩
  · exact ⟨k', q, hq, hvalue', hlow.mono hc, hle⟩

theorem Fleet.Pinned.after_record (h : s.Pinned o) {k : κ}
    (hp : (s.replicas k).db.phrases.find? o = some p) (hno : p.crdt.pinned.value = false) :
    s.PinnedSince o p.crdt.pinned.clock := by
  obtain ⟨k', q, hq, hvalue, hlow⟩ := h
  exact ⟨k', q, hq, hvalue, (hlow.1 k).1 p hp hno⟩

/-- What holds along a run: the stored phrases are placed, and a saved pin is ahead. -/
structure PinInv (x : Externals) (idKey : Bytes) (o : ObjectID) (s : Fleet κ) : Prop where
  records : ∀ k id p, (s.replicas k).db.phrases.find? id = some p → p.Placed x idKey o id
  rows : ∀ k, ∀ r ∈ (s.replicas k).db.outbox, r.phrase.Placed x idKey o r.objectID
  handles : ∀ k, ∀ store ∈ (s.replicas k).handles, store.Handle idKey
  sent : ∀ p ∈ s.sent, validUTF8 p.text = true ∧ validUTF8 p.pinyin = true
  pinned : (o, true) ∈ s.saved → (o, false) ∉ s.saved → s.Pinned o

theorem Fleet.new_pinInv (x : Externals) (idKey : Bytes) (o : ObjectID) :
    PinInv x idKey o (Fleet.new κ) := by
  refine ⟨?_, ?_, ?_, ?_, ?_⟩ <;> simp [Fleet.new, LocalDB.empty]

theorem PinInv.send (hi : PinInv x idKey o s) (k : κ) (limit : ℕ) (store : Store) :
    PinInv x idKey o
      { s with sent := s.sent ++ sentPayloads (pendingEvents store (s.replicas k).db limit) } := by
  refine ⟨hi.records, hi.rows, hi.handles, ?_, ?_⟩
  · intro p hp
    rcases mem_append.mp hp with hp | hp
    · exact hi.sent p hp
    · obtain ⟨row, hrow, _, rfl⟩ := sentPayloads_row hp
      exact ⟨(hi.rows k row hrow).text, (hi.rows k row hrow).pinyin⟩
  · intro ht hf
    obtain ⟨k', q, hq, hvalue, hlow⟩ := hi.pinned ht hf
    refine ⟨k', q, hq, hvalue, hlow.1, ?_⟩
    intro p hp ho
    rcases mem_append.mp hp with hp | hp
    · exact hlow.2 p hp ho
    · obtain ⟨row, hrow, hobj, rfl⟩ := sentPayloads_row hp
      exact (hlow.1 k).2 row hrow (ObjectID.hex_injective (hobj.symm.trans ho))

variable [DecidableEq κ]

theorem PinInv.sameRows (hi : PinInv x idKey o s) {k : κ} {r : Replica}
    (hp : r.db.phrases = (s.replicas k).db.phrases) (ho : r.db.outbox = (s.replicas k).db.outbox)
    (hh : ∀ store ∈ r.handles, store.Handle idKey) : PinInv x idKey o (s.setReplica k r) := by
  refine ⟨?_, ?_, ?_, hi.sent, ?_⟩
  · exact s.setReplica_ind (fun _ r => ∀ id p, r.db.phrases.find? id = some p →
      p.Placed x idKey o id) k r (hp ▸ hi.records k) hi.records
  · exact s.setReplica_ind (fun _ r => ∀ row ∈ r.db.outbox, row.phrase.Placed x idKey o row.objectID)
      k r (ho ▸ hi.rows k) hi.rows
  · exact s.setReplica_ind (fun _ r => ∀ store ∈ r.handles, store.Handle idKey) k r hh hi.handles
  · intro ht hf
    obtain ⟨k', p, hfind, hvalue, hbefore, hsent⟩ := hi.pinned ht hf
    have hsame := s.setReplica_ind (fun k' r => r.db.phrases = (s.replicas k').db.phrases) k r hp
      (fun _ => rfl) k'
    refine ⟨k', p, by rw [hsame]; exact hfind, hvalue, ?_, hsent⟩
    exact s.setReplica_ind (fun _ r => r.db.EachPin o _) k r ((hbefore k).sameRows hp ho) hbefore

theorem PinInv.write (hi : PinInv x idKey o s) (k : κ) (hrows : (s.replicas k).db.SameRows db)
    (enqueue : Bool) (more : List (ObjectID × Bool)) (hp : p.Placed x idKey o id)
    (hkeep : id = o → (o, true) ∈ s.saved → (o, false) ∉ s.saved ++ more →
      (p.crdt.pinned.value = false → s.PinnedSince o p.crdt.pinned.clock) ∧
      ∀ q, (s.replicas k).db.phrases.find? o = some q → q.crdt.pinned.value = true →
      q.crdt.pinned.view ≤ p.crdt.pinned.view) (hnew : (o, true) ∈ more → (o, true) ∉ s.saved →
      id = o ∧ p.crdt.pinned.value = true ∧ s.UnpinnedBy o p.crdt.pinned.clock) :
    PinInv x idKey o { s.setReplica k { s.replicas k with db := db.write id p enqueue } with
      saved := s.saved ++ more } := by
  have hbefore (clock : HLC) (hs : s.UnpinnedBy o clock)
      (hv : id = o → p.crdt.pinned.value = false → p.crdt.pinned.clock ≤ clock) :
      Fleet.UnpinnedBy { s.setReplica k { s.replicas k with db := db.write id p enqueue } with
        saved := s.saved ++ more } o clock :=
    ⟨s.setReplica_ind (fun _ r => r.db.EachPin o _) k _
      (((hs.1 k).sameRows hrows.phrases hrows.outbox).write hv) hs.1, hs.2⟩
  have hfind := write_phrases db id p enqueue
  rw [hrows.phrases] at hfind
  refine ⟨?_, ?_, ?_, hi.sent, ?_⟩
  · refine s.setReplica_ind (fun _ r => ∀ id p, r.db.phrases.find? id = some p →
      p.Placed x idKey o id) k _ ?_ hi.records
    intro id' q hq
    dsimp only at hq
    rw [hfind, SortedMap.find?_insert] at hq
    split_ifs at hq with he
    · rw [he, ← some.inj hq]
      exact hp
    · exact hi.records k id' q hq
  · refine s.setReplica_ind (fun _ r => ∀ row ∈ r.db.outbox,
      row.phrase.Placed x idKey o row.objectID) k _ ?_ hi.rows
    intro row hrow
    rcases mem_write_outbox hrow with hold | ⟨he, hphrase⟩
    · rw [hrows.outbox] at hold
      exact hi.rows k row hold
    · rw [he, hphrase]
      exact hp
  · exact s.setReplica_ind (fun _ r => ∀ store ∈ r.handles, store.Handle idKey) k _
      (hi.handles k) hi.handles
  · intro ht hf
    by_cases hold : (o, true) ∈ s.saved
    · have hpinned := hi.pinned hold (fun hm => hf (mem_append_left _ hm))
      -- The latest pin is not before what is written.
      obtain ⟨k', q, hq, hvalue, hlow, hp⟩ : ∃ k' q, (s.replicas k').db.phrases.find? o = some q ∧
          q.crdt.pinned.value = true ∧ s.UnpinnedBy o q.crdt.pinned.clock ∧
          (id = o → p.crdt.pinned.value = false → p.crdt.pinned.clock ≤ q.crdt.pinned.clock) := by
        by_cases hno : id = o ∧ p.crdt.pinned.value = false
        · obtain ⟨k', q, hq, hvalue, hlow, hle⟩ := hpinned.since ((hkeep hno.1 hold hf).1 hno.2)
          exact ⟨k', q, hq, hvalue, hlow, fun _ _ => hle⟩
        · obtain ⟨k', q, hq, hvalue, hlow⟩ := hpinned
          exact ⟨k', q, hq, hvalue, hlow, fun ho hv => absurd ⟨ho, hv⟩ hno⟩
      by_cases hwrite : k' = k ∧ o = id
      · -- The pinned record itself is rewritten, as pinned and not earlier.
        obtain ⟨rfl, rfl⟩ := hwrite
        obtain ⟨hset, hlater⟩ := pinned_of_view_le ((hkeep rfl hold hf).2 q hq hvalue) hvalue (hp rfl)
        refine ⟨k', p, ?_, hset, hbefore _ (hlow.mono hlater) ?_⟩
        · dsimp only
          rw [Fleet.setReplica_self, hfind, SortedMap.find?_insert_self]
        · exact fun _ hno => absurd (hset.symm.trans hno) (by decide)
      · refine ⟨k', q, ?_, hvalue, hbefore _ hlow hp⟩
        have hkept := s.setReplica_ind (fun j r => (j = k → o ≠ id) → r.db.phrases.find? o =
          (s.replicas j).db.phrases.find? o) k { s.replicas k with db := db.write id p enqueue }
          (fun hne => by rw [hfind, SortedMap.find?_insert, if_neg (hne rfl)]) (fun _ _ => rfl) k'
          (fun hk ho => hwrite ⟨hk, ho⟩)
        exact hkept.trans hq
    · obtain ⟨rfl, hset, hlow⟩ := hnew ((mem_append.mp ht).resolve_left hold) hold
      refine ⟨k, p, ?_, hset, hbefore _ hlow ?_⟩
      · dsimp only
        rw [Fleet.setReplica_self, hfind, SortedMap.find?_insert_self]
      · exact fun _ hno => absurd (hset.symm.trans hno) (by decide)

theorem savedPin_some {store : Store} {m : Mutation} (w : Write)
    (hid : store.objectID x m.text m.pinyin = .ok id) {e : ObjectID × Bool} :
    e ∈ m.savedPin x store (some w) ↔ ∃ phrase, m = .save phrase ∧ e = (id, phrase.pinned) := by
  cases m with
  | save phrase =>
    have hobj : store.objectID x phrase.text phrase.pinyin = .ok id := hid
    simp [Mutation.savedPin, hobj, Except.toOption]
  | _ => simp [Mutation.savedPin]

theorem PinInv.mutation (hi : PinInv x idKey o s) {k : κ} {handle : ℕ} {m : Mutation}
    {now : Reading} (hc : KeepsPins x o s (.mutate k handle m now)) {store : Store}
    (hs : (s.replicas k).handles[handle]? = some store) {r : Option Write × LocalDB}
    (hm : MutationMove x store now m (s.replicas k).db r) :
    PinInv x idKey o { s.setReplica k { s.replicas k with db := r.2 } with
      saved := s.saved ++ m.savedPin x store r.1 } := by
  obtain ⟨hkey, hv⟩ := hi.handles k store (mem_of_getElem? hs)
  have hkeeps := hc.2 store hs
  cases hm with
  | nothing | tick =>
    have hnone : m.savedPin x store none = [] := by cases m <;> rfl
    simp only [hnone, append_nil]
    exact hi.sameRows rfl rfl (hi.handles k)
  | write id w id' hid hw hid' =>
    obtain ⟨hplaced, hown, hpin⟩ := placed_mutation (hi.records k) hkey (hv (hc.1 store hs))
      (fun hn => ⟨(hkeeps hn).object, fun he => ((hkeeps hn).creates he).1⟩) hid hw hid'
    refine hi.write k (nextHLC_sameRows store now _) _ _ hplaced ?_ ?_
    · intro ho ht hf
      obtain rfl := hown.mp ho
      have hop := hkeeps (.inl hid)
      obtain ⟨hlow, hle⟩ := m.register_kept ((s.replicas k).db.phrases.find? id)
        (nextHLC store now (s.replicas k).db).1 (by
          rintro phrase rfl
          refine by_contra fun hno => hf (mem_append_right _ ((savedPin_some w hid).mpr ?_))
          exact ⟨phrase, rfl, by rw [Bool.eq_false_iff.mpr hno]⟩)
      rw [hpin rfl]
      refine ⟨?_, fun q hq hvalue => (congrArg LWWBool.view (hle q hq hvalue)).ge⟩
      intro hno
      rcases hlow hno with ⟨q, hq, hreg⟩ | ⟨hnone, hcreates, hclock⟩
      · rw [hreg] at hno ⊢
        exact (hi.pinned ht (fun hm => hf (mem_append_left _ hm))).after_record hq hno
      · rw [hclock]
        exact ((hop.creates hnone).2 ht).resolve_left (by rw [hcreates]; decide)
    · intro hmem hfirst
      obtain ⟨phrase, rfl, he⟩ := (savedPin_some w hid).mp hmem
      obtain ⟨rfl, hset⟩ := Prod.mk.inj he
      have hop := (hkeeps (.inl hid)).first hset.symm hfirst
      rw [hpin rfl]
      refine ⟨hown.mpr rfl, ?_, hop⟩
      dsimp only [Mutation.register]
      split_ifs with hfound
      · exact hfound.trans hset.symm
      · exact hset.symm

theorem PinInv.merge (hi : PinInv x idKey o s) {k : κ} {store : Store}
    (hs : store ∈ (s.replicas k).handles) {payload : PhrasePayload} (hsent : payload ∈ s.sent)
    (now : Reading) : PinInv x idKey o (s.setReplica k { s.replicas k with
      db := (mergeRemotePayload x store now payload (s.replicas k).db).2 }) := by
  obtain ⟨hkey, _⟩ := hi.handles k store hs
  obtain ⟨ht, hp⟩ := hi.sent payload hsent
  have hmigrated : (s.replicas k).db.Migrated := fun id p hfind => (hi.records k id p hfind).migrated
  rcases hmigrated.mergeRemotePayload_cases x store now payload with
    ⟨e, he⟩ | ⟨m, record, hload, hrec, he⟩
  · rw [he]
    exact hi.sameRows rfl rfl (hi.handles k)
  · rw [he]
    obtain ⟨rfl, _, hgood, hread, hex⟩ := mergeLoad_ok hload
    rw [hread] at hex
    obtain ⟨hplaced, hjson⟩ := placed_merge hkey hgood hrec
      (fun old hold => hi.records k m.id old (hex ▸ hold)) ht hp
    obtain ⟨hlow, hle⟩ := merge_register hgood hrec
    have hwrite := hi.write k (observeHLC_sameRows (latestClock record) _) false [] hplaced ?_
      (by simp)
    · rw [append_nil] at hwrite
      exact hwrite
    · rintro rfl ht hf
      rw [append_nil] at hf
      have hpinned := hi.pinned ht hf
      rw [hjson]
      refine ⟨?_, fun q hq _ => hle q (hex.trans hq)⟩
      intro hno
      rcases hlow with hreg | ⟨old, hold, hreg⟩
      · rw [hreg] at hno ⊢
        obtain ⟨k', q, hq, hvalue, hlow⟩ := hpinned
        exact ⟨k', q, hq, hvalue, hlow.2 m.payload hsent hgood.objectID hno⟩
      · rw [hreg] at hno ⊢
        exact hpinned.after_record (hex ▸ hold) hno

theorem PinInv.step {dataKey : Bytes} {s' : Fleet κ} {a : FleetAction κ} (hi : PinInv x idKey o s)
    (hc : KeepsPins x o s a) (h : s.step x dataKey idKey a = some s') : PinInv x idKey o s' := by
  cases Fleet.step_cases h with
  | opened _ k db' handles ho =>
    refine hi.sameRows ho.phrases ho.outbox ?_
    intro store hs
    exact (mem_append.mp hs).elim (hi.handles k store) (ho.handles store)
  | mutate k handle m now store hs r hm => exact hi.mutation hc hs hm
  | send k handle limit store hs => exact hi.send k limit store
  | merge k handle payload now store hs => exact hi.merge (mem_of_getElem? hs) hc.1 now

/-- In every run whose operations on `o` keep its pin, `o` is pinned in the merge of all
devices' states once it was saved as pinned, if it was never saved as unpinned. -/
theorem pins_survive [Fintype κ] (x : Externals) (dataKey idKey : Bytes) (o : ObjectID)
    (actions : List (FleetAction κ)) (t : Fleet κ)
    (h : Runs.run (Runs.restrict (KeepsPins x o) (Fleet.step x dataKey idKey)) (Fleet.new κ)
      actions = some t) (hpinned : (o, true) ∈ t.saved) (hunpinned : (o, false) ∉ t.saved)
    (ks : List κ) (hall : ∀ k, k ∈ ks) :
    ∃ merged, mergeStates (t.states ks o) = .ok merged ∧ merged.pinned.value = true := by
  have hi : PinInv x idKey o t := by
    apply Runs.run_invariant (PinInv x idKey o) ?_ (Fleet.new_pinInv x idKey o) h
    intro u a u' hi hu
    obtain ⟨hc, hu⟩ := Runs.restrict_some hu
    exact hi.step hc hu
  obtain ⟨k, p, hp, hvalue, hlow, _⟩ := hi.pinned hpinned hunpinned
  have hstate : ∀ s ∈ t.states ks o, ∃ k p, (t.replicas k).db.phrases.find? o = some p ∧
      p.crdt = s := by
    intro s hs
    obtain ⟨k, _, hk⟩ := mem_filterMap.mp hs
    obtain ⟨p, hp, rfl⟩ := map_eq_some_iff.mp hk
    exact ⟨k, p, hp, rfl⟩
  have hmem : p.crdt ∈ t.states ks o := mem_filterMap.mpr ⟨k, hall k, by rw [hp]; rfl⟩
  obtain ⟨merged, hm, _, hub, _⟩ := mergeStates_ok (objectID_hex_ne_nil o) (ne_nil_of_mem hmem) (by
      intro s hs
      obtain ⟨k, p, hp, rfl⟩ := hstate s hs
      exact ((hi.records k o p hp).own rfl).state.objectID)
  -- The merge takes the pin of one device, and is not below the pinned one.
  obtain ⟨s, hs, hpin⟩ := mergeStates_pinned merged hm
  obtain ⟨k', q, hq, rfl⟩ := hstate s hs
  refine ⟨merged, hm, (pinned_of_view_le ((view_le_iff _ _).mp (hub _ hmem)).2.1 hvalue ?_).1⟩
  rw [hpin]
  exact (hlow k').1 q hq

end

def pinnedSave : List (FleetAction Bool) :=
  [sampleOpen false false, sampleOpen true true,
    .mutate false 0 (.save (samplePhrase "a")) sampleReading]

def plainSelection (k : Bool) (text : String) (wall : ℤ) : FleetAction Bool :=
  .mutate k 0 (.select { samplePhrase text with pinned := false } ⟨false, false, false⟩) ⟨wall, wall⟩

/-- The selection creates a record that is unpinned at a later clock. -/
theorem pin_lost_by_selection : ∃ t o merged,
    Runs.run (Runs.restrict PinScope sampleFleetStep) (Fleet.new Bool)
      (pinnedSave ++ [plainSelection true "a" 5]) = some t ∧
    (o, true) ∈ t.saved ∧ (o, false) ∉ t.saved ∧
    mergeStates (t.states [false, true] o) = .ok merged ∧ merged.pinned.value = false := by
  simp only [exists_and_left]
  apply Runs.exists_some (fun t => ∃ e ∈ t.saved, (e.1, false) ∉ t.saved ∧ e.2 = true ∧
    ∃ merged ∈ (mergeStates (t.states [false, true] e.1)).toOption, merged.pinned.value = false)
    (by decide +kernel)
  rintro t - ⟨⟨o, _⟩, ho, hun, rfl, merged, hm, hvalue⟩
  exact ⟨o, ho, hun, merged, toOption_eq_some hm, hvalue⟩

/-- `a` was learned before it is pinned. After that it is learned on the other device, by
a clock that is behind, and another phrase later; where the pin is, it is used and deleted. -/
def ordinaryUse : List (FleetAction Bool) :=
  pinnedSave.take 2 ++ [plainSelection false "a" 1, .mutate false 0 (.save (samplePhrase "a")) ⟨3, 3⟩,
    plainSelection true "a" 2, plainSelection true "b" 9, plainSelection false "a" 5,
    .mutate false 0 (.delete (lit "a") (lit "ni")) ⟨6, 6⟩]

theorem pins_survive_sample : ∃ t o merged,
    Runs.run (Runs.restrict (KeepsPins sampleExternals o) sampleFleetStep) (Fleet.new Bool)
      ordinaryUse = some t ∧
    (o, true) ∈ t.saved ∧ (t.states [false, true] o).map (·.pinned.value) = [true, false] ∧
    mergeStates (t.states [false, true] o) = .ok merged ∧ merged.pinned.value = true := by
  obtain ⟨o, -, t, ht, ho, hun, hstates⟩ :
      ∃ o ∈ (objectOf sampleExternals sampleKey (lit "a") (lit "ni")).toOption,
      ∃ t ∈ Runs.run (Runs.restrict (KeepsPins sampleExternals o) sampleFleetStep)
        (Fleet.new Bool) ordinaryUse,
      (o, true) ∈ t.saved ∧ (o, false) ∉ t.saved ∧
        (t.states [false, true] o).map (·.pinned.value) = [true, false] := by
    decide +kernel
  obtain ⟨merged, hm, hvalue⟩ := pins_survive sampleExternals sampleKey sampleKey o _ t ht ho hun
    [false, true] (by decide)
  exact ⟨t, o, merged, ht, ho, hstates, hm, hvalue⟩

end YunPin
