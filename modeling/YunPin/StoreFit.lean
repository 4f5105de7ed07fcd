import YunPin.OutboxVersions
import YunPin.StoreMerge

/-! Stores that only given devices have written to: every record is fit and found
under its own object, and so is every row of the outbox. Local operations and merges
keep it so, whatever the clock says, as long as they are given valid text. -/
namespace YunPin
open ByteText Option

structure StoreSound (x : Externals) (D : DeviceSet) (store : Store) (db : LocalDB) : Prop where
  records : ∀ id p, db.phrases.find? id = some p → p.Sound x D store id
  outbox : ∀ r ∈ db.outbox, r.phrase.Sound x D store r.objectID

abbrev StoreFit (x : Externals) (store : Store) (db : LocalDB) : Prop :=
  StoreSound x syncDevices store db

theorem StoreSound.empty (x : Externals) {D : DeviceSet} (store : Store) (row : Option SyncState) :
    StoreSound x D store { LocalDB.empty with syncState := row } :=
  ⟨by simp [LocalDB.empty], by simp [LocalDB.empty]⟩

variable {x : Externals} {D : DeviceSet} {store : Store} {db : LocalDB}

theorem StoreSound.sameRows {db' : LocalDB} (h : StoreSound x D store db)
    (hrows : db.SameRows db') : StoreSound x D store db' := by
  refine ⟨?_, ?_⟩
  · rw [hrows.phrases]
    exact h.records
  · rw [hrows.outbox]
    exact h.outbox

theorem mem_write_outbox {id : ObjectID} {p : Phrase} {enqueue : Bool} {r : OutboxRow}
    (h : r ∈ (db.write id p enqueue).outbox) :
    r ∈ db.outbox ∨ (r.objectID = id ∧ r.phrase = p) := by
  cases enqueue with
  | false => exact .inl h
  | true =>
    rw [(write_outbox (.refl db) id p).1] at h
    rcases mem_enqueue h with ⟨hold, _⟩ | ⟨old, _, hid, rfl⟩ | ⟨_, rfl⟩
    · exact .inl hold
    · exact .inr ⟨hid, rfl⟩
    · exact .inr ⟨rfl, rfl⟩

theorem StoreSound.write (h : StoreSound x D store db) {id : ObjectID} {p : Phrase} (enqueue : Bool)
    (hgood : p.Sound x D store id) : StoreSound x D store (db.write id p enqueue) := by
  refine ⟨?_, ?_⟩
  · intro id' p' hp'
    rw [write_phrases, SortedMap.find?_insert] at hp'
    split_ifs at hp' with hid
    · cases hp'
      subst hid
      exact hgood
    · exact h.records id' p' hp'
  · intro r hr
    rcases mem_write_outbox hr with hold | ⟨hid, hphrase⟩
    · exact h.outbox r hold
    · rw [hid, hphrase]
      exact hgood

def Mutation.bringsState : Mutation → Bool
  | .select phrase _ => phrase.crdt.objectID ≠ []
  | _ => false

/-- The repair of invalid UTF-8 does not move the operation's text and reading to
another object. -/
def Mutation.KeepsObject (x : Externals) (store : Store) (m : Mutation) : Prop :=
  store.objectID x (toValidUTF8 m.text) (toValidUTF8 m.pinyin) = store.objectID x m.text m.pinyin

instance (x : Externals) (store : Store) (m : Mutation) : Decidable (m.KeepsObject x store) :=
  inferInstanceAs (Decidable (_ = _))

def Mutation.content (now : Reading) (existing : Option Phrase) :
    Mutation → Bytes × Bytes × Bytes × ℤ
  | .save phrase =>
    (explicitBase existing { phrase with source := explicitSource phrase.source }).content
  | .select phrase _ =>
    let base := selectionBase existing phrase
    (base.text, base.pinyin, base.source, dayOf now)
  | .delete text pinyin => (deletionBase existing text pinyin).content

/-- The pin of the record an operation writes: `SaveExplicit` sets it, the others keep
the one they find. -/
def Mutation.register (clock : HLC) (existing : Option Phrase) : Mutation → LWWBool
  | .save phrase =>
    let old := foundPin existing phrase.pinned clock
    if old.value = phrase.pinned then old else ⟨phrase.pinned, clock⟩
  | .select phrase _ => foundPin existing phrase.pinned clock
  | .delete _ _ => foundPin existing false clock

structure WriteFacts (x : Externals) (D : DeviceSet) (store : Store) (now : Reading) (m : Mutation)
    (id : ObjectID) (clock : HLC) (existing : Option Phrase) (record : Phrase) : Prop where
  result : OpResult D id clock existing record
  content : record.content = m.content now existing
  pinned : record.crdt.pinned = m.register clock existing
  identity : store.objectID x record.text record.pinyin = .ok id
  stored : (jsonPhrase record).Sound x D store id

variable {now : Reading} {record : Phrase}

theorem WriteFacts.crdt {m : Mutation} {id : ObjectID} {clock : HLC} {existing : Option Phrase}
    (h : WriteFacts x D store now m id clock existing record) :
    (jsonPhrase record).crdt = record.crdt := h.result.good.json

theorem Mutation.content_text (now : Reading) (existing : Option Phrase) (m : Mutation) :
    ((m.content now existing).1 = m.text ∧ (m.content now existing).2.1 = m.pinyin) ∨
      ∃ old, existing = some old ∧ (m.content now existing).1 = old.text ∧
        (m.content now existing).2.1 = old.pinyin := by
  cases m with
  | save phrase => cases existing <;> exact .inl ⟨rfl, rfl⟩
  | select phrase learning | delete text pinyin =>
    cases existing with
    | none => exact .inl ⟨rfl, rfl⟩
    | some old => exact .inr ⟨old, rfl, rfl, rfl⟩

theorem toOption_bind_write {α : Type} {r : Except String (Plan α)} {w : Write}
    (h : r.toOption.bind (·.write) = some w) : ∃ plan, r = .ok plan ∧ plan.write = some w := by
  cases r with
  | error e => simp [Except.toOption] at h
  | ok plan => exact ⟨plan, rfl, h⟩

theorem nextHLC_node (store : Store) (now : Reading) (db : LocalDB) :
    (nextHLC store now db).1.node = store.deviceID := rfl

theorem write_facts {id : ObjectID}
    (h : ∀ old, db.phrases.find? id = some old → old.Sound x D store id) (hd : D.mem store.deviceID)
    {m : Mutation} (hm : m.KeepsObject x store) (hid : store.objectID x m.text m.pinyin = .ok id)
    (hplain : db.phrases.find? id = none → m.bringsState = false) {w : Write}
    (hw : m.write? store now id (nextHLC store now db).1 (db.phrases.find? id) = some w) :
    WriteFacts x D store now m id (nextHLC store now db).1 (db.phrases.find? id) w.record := by
  have hn : D.mem (nextHLC store now db).1.node := by
    rw [nextHLC_node]
    exact hd
  generalize (nextHLC store now db).1 = clock at *
  have hex : Found D id (db.phrases.find? id) := by
    intro old hold
    exact ⟨(h old hold).state, (h old hold).materialized⟩
  -- What the three operations share: the text of the result is the argument's or that of the
  -- record found, and either way it names the object `id`.
  have hfinish (hres : OpResult D id clock (db.phrases.find? id) w.record)
      (hcontent : w.record.content = m.content now (db.phrases.find? id))
      (hpin : w.record.crdt.pinned = m.register clock (db.phrases.find? id)) :
      WriteFacts x D store now m id clock (db.phrases.find? id) w.record := by
    have htext : w.record.text = (m.content now (db.phrases.find? id)).1 ∧
        w.record.pinyin = (m.content now (db.phrases.find? id)).2.1 := by
      rw [← hcontent]
      exact ⟨rfl, rfl⟩
    rcases m.content_text now (db.phrases.find? id) with ⟨ht, hp⟩ | ⟨old, hold, ht, hp⟩
    · rw [ht, hp] at htext
      refine ⟨hres, hcontent, hpin, by rw [htext.1, htext.2]; exact hid, ?_⟩
      exact jsonPhrase_good hres.good hres.materialized
        (by rw [htext.1, htext.2, hm]; exact hid)
    · rw [ht, hp] at htext
      have hgood := h old hold
      refine ⟨hres, hcontent, hpin, by rw [htext.1, htext.2]; exact hgood.identity, ?_⟩
      refine jsonPhrase_good hres.good hres.materialized ?_
      rw [htext.1, htext.2, toValidUTF8_of_valid _ hgood.text, toValidUTF8_of_valid _ hgood.pinyin]
      exact hgood.identity
  cases m with
  | save phrase =>
    obtain ⟨plan, hplan, hwrite⟩ := toOption_bind_write hw
    unfold explicitPlan at hplan
    split at hplan
    · simp at hplan
    rename_i record hrecord
    cases hplan
    cases hwrite
    obtain ⟨hres, hcontent, hpin⟩ := explicitRecord_ok hd hn hex hrecord
    exact hfinish hres hcontent hpin
  | select phrase learning =>
    simp only [Mutation.write?] at hw
    split_ifs at hw
    obtain ⟨plan, hplan, hwrite⟩ := toOption_bind_write hw
    obtain ⟨hres, hcontent, hpin⟩ := selectionPlan_ok hd
      hn hex (fun hnone => by simpa [Mutation.bringsState] using hplain hnone) hplan hwrite
    exact hfinish hres hcontent hpin
  | delete text pinyin =>
    obtain ⟨plan, hplan, hwrite⟩ := toOption_bind_write hw
    obtain ⟨hres, hcontent, _, hpin⟩ := deletionPlan_ok hd hn hex hplan hwrite
    exact hfinish hres hcontent hpin

theorem StoreSound.mutation (h : StoreSound x D store db) (hd : D.mem store.deviceID) {m : Mutation}
    (hm : m.KeepsObject x store) (hplain : ∀ id, store.objectID x m.text m.pinyin = .ok id →
      db.phrases.find? id = none → m.bringsState = false) {r : Option Write × LocalDB}
    (hr : MutationMove x store now m db r) : StoreSound x D store r.2 := by
  have htick := h.sameRows (nextHLC_sameRows store now db)
  cases hr with
  | nothing => exact h
  | tick => exact htick
  | write id w id' hid hw hid' =>
    have hfacts := write_facts (h.records id) hd hm hid (hplain id hid) hw
    obtain rfl : id' = id := Except.ok.inj (hid'.symm.trans hfacts.identity)
    exact htick.write w.enqueue hfacts.stored

theorem Phrase.Sound.payload_validText {id : ObjectID} {p : Phrase} (h : p.Sound x D store id) :
    p.payload.validText = true := by
  obtain ⟨c, hc, hkeys⟩ := h.state.counts
  have hcounts : c.keys.all validUTF8 = true := by
    rw [List.all_eq_true]
    intro d hd
    obtain ⟨e, he, rfl⟩ := List.mem_map.mp hd
    exact D.validUTF8 e.1 (hkeys e he)
  simp only [PhrasePayload.validText, Phrase.payload, h.text, h.pinyin, h.source, h.state.objectID,
    validUTF8_hexEncode, D.validUTF8 _ h.state.pinned, D.validUTF8 _ h.state.presence, hc,
    getD_some, hcounts, Bool.and_self]

theorem PendingEvent.protocolPayload_good (event : PendingEvent)
    (h : event.phrase.Sound x D store event.objectID) :
    event.protocolPayload = .ok event.phrase.payload := by
  obtain ⟨c, hc, _⟩ := h.state.counts
  have hclone : clonePhraseState event.phrase.crdt = event.phrase.crdt := by
    rw [clonePhraseState, hc, getD_some, ← hc]
  have hmeta : ¬(event.phrase.crdt.objectID ≠ hexEncode event.objectID.val ∨
      event.phrase.crdt.presence.generation = 0 ∨ event.phrase.crdt.counts = none) := by
    simp [h.state.objectID, h.state.generation, hc]
  rw [PendingEvent.protocolPayload, if_neg hmeta, hclone]
  rfl

variable {m : Merge}

/-- Each text of a merge is that of the record or that of the payload. -/
theorem merged_texts (P : Bytes → Prop) {merged : PhrasePayload} (h : m.merged = .ok merged) :
    ((∀ old, m.existing = some old → P old.text) → P m.payload.text → P merged.text) ∧
    ((∀ old, m.existing = some old → P old.pinyin) → P m.payload.pinyin → P merged.pinyin) ∧
    ((∀ old, m.existing = some old → P old.source) → P m.payload.source → P merged.source) := by
  unfold Merge.merged at h
  split at h
  · rename_i old hold
    obtain ⟨_, ht, hp, hs, _⟩ := mergePhrasePayload_ok h
    rw [ht, hp, hs]
    exact ⟨fun he => chooseStableString_ind P (he old hold),
      fun he => chooseStableString_ind P (he old hold),
      fun he => chooseStableString_ind P (he old hold)⟩
  · cases h
    exact ⟨fun _ hp => hp, fun _ hp => hp, fun _ hp => hp⟩

theorem merge_record_good (hp : m.payload.state.Good m.id) (hv : m.payload.validText = true)
    (hex : ∀ old, m.existing = some old → old.Sound x D store m.id)
    (h : m.record x store = .ok record) : record.Good x store m.id := by
  obtain ⟨merged, hmerged, hrec, hgood, hid, _, _⟩ := merge_record_ok hp h
  obtain ⟨htext, hpinyin, hsource⟩ := merged_texts (validUTF8 · = true) hmerged
  simp only [PhrasePayload.validText, Bool.and_eq_true] at hv
  rw [hrec] at hgood hid ⊢
  exact ⟨hid, hgood, rfl, htext (fun old ho => (hex old ho).text) hv.1.1.1.1.1.1,
    hpinyin (fun old ho => (hex old ho).pinyin) hv.1.1.1.1.1.2,
    hsource (fun old ho => (hex old ho).source) hv.1.1.1.1.2⟩

def LocalDB.Migrated (db : LocalDB) : Prop :=
  ∀ id p, db.phrases.find? id = some p → p.crdt.objectID ≠ []

theorem StoreSound.migrated (h : StoreSound x D store db) : db.Migrated :=
  fun id p hp => (h.records id p hp).state.objectID_ne_nil

theorem LocalDB.Migrated.migrate_eq (h : db.Migrated) (store : Store) (now : Reading)
    (hread : m.existing = db.phrases.find? m.id) (db' : LocalDB) :
    m.migrate store now db' = (.ok m, db') := by
  unfold Merge.migrate
  split
  · rfl
  · rename_i old hold
    rw [if_neg (h m.id old (hread ▸ hold))]

theorem LocalDB.Migrated.mergeRemotePayload_eq (h : db.Migrated) (now : Reading)
    {payload : PhrasePayload} (hload : mergeLoad x store payload db = .ok m)
    (hrec : m.record x store = .ok record) :
    mergeRemotePayload x store now payload db =
      (.ok (), (observeHLC (latestClock record) db).write m.id (jsonPhrase record) false) := by
  obtain ⟨hpay, _, hgood, hread, hexist⟩ := mergeLoad_ok hload
  obtain ⟨_, _, _, _, hid, _, _⟩ := merge_record_ok (hpay ▸ hgood) hrec
  unfold mergeRemotePayload
  simp only [hload, h.migrate_eq store now (hexist.trans hread), hrec, upsert, hid]

theorem LocalDB.Migrated.mergeRemotePayload_cases (h : db.Migrated) (x : Externals) (store : Store)
    (now : Reading) (payload : PhrasePayload) :
    (∃ e, mergeRemotePayload x store now payload db = (.error e, db)) ∨
    ∃ m record, mergeLoad x store payload db = .ok m ∧ m.record x store = .ok record ∧
      mergeRemotePayload x store now payload db =
        (.ok (), (observeHLC (latestClock record) db).write m.id (jsonPhrase record) false) := by
  cases hload : mergeLoad x store payload db with
  | error e => exact .inl ⟨e, by simp only [mergeRemotePayload, hload]⟩
  | ok m =>
    cases hrec : m.record x store with
    | error e =>
      obtain ⟨_, _, _, hread, hexist⟩ := mergeLoad_ok hload
      refine .inl ⟨e, ?_⟩
      simp only [mergeRemotePayload, hload, h.migrate_eq store now (hexist.trans hread), hrec]
    | ok record =>
      exact .inr ⟨m, record, rfl, hrec, h.mergeRemotePayload_eq now hload hrec⟩

theorem StoreSound.mergeRemotePayload (h : StoreSound x D store db) (now : Reading)
    {payload : PhrasePayload} (hv : payload.validText = true) :
    StoreSound x D store (YunPin.mergeRemotePayload x store now payload db).2 := by
  rcases h.migrated.mergeRemotePayload_cases x store now payload with
    ⟨e, he⟩ | ⟨m, record, hload, hrec, he⟩
  · rw [he]
    exact h
  · rw [he]
    obtain ⟨hpay, _, hgood, hread, hexist⟩ := mergeLoad_ok hload
    have hrecord := merge_record_good (hpay ▸ hgood) (hpay ▸ hv)
      (fun old hold => h.records m.id old ((hexist.trans hread) ▸ hold)) hrec
    dsimp only
    rw [hrecord.json]
    exact (h.sameRows (observeHLC_sameRows _ db)).write false (.of_sync hrecord)

end YunPin
