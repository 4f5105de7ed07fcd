import YunPin.SampleSystem

/-! Deletion wins over concurrent use. Every operation and every merge moves the presence
of a record in one of a few ways: a deletion makes it absent, a merge takes the larger of
two, and only `SaveExplicit` on an absent record opens a new generation. As long as nobody
opens one, an absent record stays absent whatever it is merged with. All of it needs that
a record is rewritten under its own object. -/
namespace YunPin
open ByteText List Option

theorem Presence.absent_of_le {a b : Presence} (h : a.view ≤ b.view) (ha : a.present = false)
    (hg : b.generation ≤ a.generation) : b.present = false := by
  rw [Presence.view_le_iff, ha] at h
  rw [UInt64.le_iff_toNat_le] at hg
  rcases h with hlt | ⟨_, hlt | ⟨he, _⟩⟩
  · omega
  · cases hb : b.present with
    | false => rfl
    | true =>
      rw [hb] at hlt
      exact absurd hlt (by decide)
  · simpa using he.symm

theorem le_choosePresence (a b : Presence) :
    a.view ≤ (choosePresence a b).view ∧ a.generation ≤ (choosePresence a b).generation := by
  have hle : a.view ≤ (choosePresence a b).view := by
    rw [choosePresence_view]
    exact le_sup_left
  refine ⟨hle, ?_⟩
  rw [Presence.view_le_iff] at hle
  rw [UInt64.le_iff_toNat_le]
  omega

def Mutation.presenceAfter (p : Presence) : Mutation → Bool × UInt64
  | .save _ => (true, if p.present then p.generation else p.generation+1)
  | .select _ _ => (p.present, p.generation)
  | .delete _ _ => (false, p.generation)

def PhraseState.Of (id : ObjectID) (s : PhraseState) : Prop :=
  s.objectID = hexEncode id.val ∧ s.presence.generation ≠ 0

structure Ensured (id : ObjectID) (p q : Phrase) : Prop where
  text : q.text = p.text
  pinyin : q.pinyin = p.pinyin
  state : q.crdt.Of id
  presence : p.crdt.Of id → q.crdt.presence.present = p.crdt.presence.present ∧
    q.crdt.presence.generation = p.crdt.presence.generation

variable (p : Phrase) (store : Store) {x : Externals} {idKey : Bytes} {db db' : LocalDB}

theorem migrateGeneration_presence : (migrateGeneration p).crdt.presence.generation ≠ 0 ∧
      (p.crdt.presence.generation ≠ 0 → (migrateGeneration p).crdt.presence = p.crdt.presence) := by
  unfold migrateGeneration
  split_ifs with hzero
  · exact ⟨by simp, fun h => absurd hzero h⟩
  · exact ⟨hzero, fun _ => rfl⟩

theorem stampClocks_presence (clock : HLC) :
    (stampClocks p clock).crdt.presence.present = p.crdt.presence.present ∧
      (stampClocks p clock).crdt.presence.generation = p.crdt.presence.generation := by
  unfold stampClocks
  dsimp only
  split_ifs <;> exact ⟨rfl, rfl⟩

/-- The steps after the adoption: they give a generation to a record that has none and
stamp the clocks. -/
theorem migrated_ensured (id : ObjectID) (p : Phrase) (deviceID : Bytes) (clock : HLC)
    (h : p.crdt.objectID = hexEncode id.val) : Ensured id p (materializePhrase
      (stampClocks (migrateGeneration (migrateCounts p deviceID)) clock)) := by
  obtain ⟨hgen, hsame⟩ := migrateGeneration_presence (migrateCounts p deviceID)
  obtain ⟨hpresent, hgeneration⟩ := stampClocks_presence
    (migrateGeneration (migrateCounts p deviceID)) clock
  have hkept : (migrateGeneration (migrateCounts p deviceID)).text = p.text ∧
      (migrateGeneration (migrateCounts p deviceID)).pinyin = p.pinyin ∧
      (migrateGeneration (migrateCounts p deviceID)).crdt.objectID = p.crdt.objectID := by
    unfold migrateGeneration
    split_ifs <;> exact ⟨rfl, rfl, rfl⟩
  refine ⟨hkept.1, hkept.2.1, ⟨hkept.2.2.trans h, ?_⟩, fun hp => ⟨?_, ?_⟩⟩
  · rw [← hgeneration] at hgen
    exact hgen
  · refine hpresent.trans ?_
    rw [hsame hp.2]
    rfl
  · refine hgeneration.trans ?_
    rw [hsame hp.2]
    rfl

variable {clock : HLC} {existing : Option Phrase} {id : ObjectID} {phrase : Phrase}

theorem ensurePhraseState_ensured {q : Phrase} {deviceID : Bytes}
    (h : ensurePhraseState p id deviceID clock = .ok q) : Ensured id p q := by
  unfold ensurePhraseState adoptState at h
  split_ifs at h with hnone hother
  · cases h
    have hadopted := migrated_ensured id { p with crdt := {
      objectID := hexEncode id.val
      counts := some ∅
      pinned := ⟨p.pinned, clock⟩
      presence := ⟨!p.deleted, clock, 1⟩ } } deviceID clock rfl
    refine ⟨hadopted.text, hadopted.pinyin, hadopted.state, ?_⟩
    intro hp
    rw [hp.1] at hnone
    exact absurd hnone (objectID_hex_ne_nil id)
  · cases h
    exact migrated_ensured id p deviceID clock (not_not.mp hother)

theorem ensurePhraseState_some (deviceID : Bytes) (clock : HLC) (h : p.crdt.Of id) :
    ∃ q, ensurePhraseState p id deviceID clock = .ok q := by
  unfold ensurePhraseState adoptState
  rw [if_neg (by rw [h.1]; exact objectID_hex_ne_nil id), if_neg (not_not.mpr h.1)]
  exact ⟨_, rfl⟩

structure ObjectWrite (id : ObjectID) (m : Mutation) (existing : Option Phrase) (record : Phrase) :
    Prop where
  text : (record.text = m.text ∧ record.pinyin = m.pinyin) ∨ ∃ old, existing = some old ∧
    record.text = old.text ∧ record.pinyin = old.pinyin
  state : record.crdt.Of id
  presence : ∀ old, existing = some old → old.crdt.Of id →
    (record.crdt.presence.present, record.crdt.presence.generation) =
      m.presenceAfter old.crdt.presence ∧
    old.crdt.presence.generation ≤ record.crdt.presence.generation

theorem generation_succ {g : UInt64} (h : g ≠ maxUint64) : g < g+1 ∧ g+1 ≠ 0 := by
  have hadd := toNat_succ_of_ne_max h
  refine ⟨UInt64.lt_iff_toNat_lt.mpr (by omega), ?_⟩
  intro he
  rw [he] at hadd
  simp at hadd

theorem explicitRecord_write {source : Bytes} {record : Phrase}
    (h : explicitRecord store { phrase with source := source } id clock existing = .ok record) :
    (record.text = phrase.text ∧ record.pinyin = phrase.pinyin ∧ record.deleted = false) ∧
      ObjectWrite id (.save phrase) existing record := by
  unfold explicitRecord at h
  split at h
  · simp at h
  rename_i base hbase
  have hensured := ensurePhraseState_ensured _ hbase
  split at h
  · simp at h
  rename_i present hpresent
  split at h
  · simp at h
  rename_i raised hraised
  cases h
  -- Neither the pin nor the total touch text and presence.
  have hraise : raised.text = present.text ∧ raised.pinyin = present.pinyin ∧
      raised.crdt.objectID = present.crdt.objectID ∧
      raised.crdt.presence = present.crdt.presence := by
    unfold raiseTotal setPinned at hraised
    dsimp only at hraised
    split_ifs at hraised <;> obtain rfl := Except.ok.inj hraised <;> exact ⟨rfl, rfl, rfl, rfl⟩
  have hreadd : present.text = base.text ∧ present.pinyin = base.pinyin ∧ present.crdt.Of id ∧
      present.crdt.presence.present = true ∧ present.crdt.presence.generation =
        (if base.crdt.presence.present then base.crdt.presence.generation
          else base.crdt.presence.generation+1) ∧
      base.crdt.presence.generation ≤ present.crdt.presence.generation := by
    unfold readd at hpresent
    split_ifs at hpresent with habsent hmax
    · cases hpresent
      exact ⟨rfl, rfl, hensured.state, habsent, by rw [if_pos habsent], UInt64.le_refl _⟩
    · cases hpresent
      obtain ⟨hlt, hne⟩ := generation_succ hmax
      exact ⟨rfl, rfl, ⟨hensured.state.1, hne⟩, rfl, by rw [if_neg habsent], UInt64.le_of_lt hlt⟩
  obtain ⟨htext, hpinyin, hstate, hpres, hgen, hle⟩ := hreadd
  obtain ⟨htext', hpinyin', hobj', hpres'⟩ := hraise
  have htexts : raised.text = phrase.text ∧ raised.pinyin = phrase.pinyin := by
    rw [htext', hpinyin', htext, hpinyin, hensured.text, hensured.pinyin]
    cases existing <;> exact ⟨rfl, rfl⟩
  refine ⟨⟨htexts.1, htexts.2, ?_⟩, .inl htexts, ?_, ?_⟩
  · change (!raised.crdt.presence.present) = false
    rw [hpres', hpres, Bool.not_true]
  · change raised.crdt.Of id
    unfold PhraseState.Of
    rw [hobj', hpres']
    exact hstate
  · rintro old rfl hold
    obtain ⟨hsame, hsamegen⟩ := hensured.presence hold
    change (raised.crdt.presence.present, raised.crdt.presence.generation) = _ ∧
      old.crdt.presence.generation ≤ raised.crdt.presence.generation
    have hsame' : base.crdt.presence.present = old.crdt.presence.present := hsame
    have hsamegen' : base.crdt.presence.generation = old.crdt.presence.generation := hsamegen
    rw [hpres', hpres, hgen, hsame', hsamegen']
    refine ⟨rfl, ?_⟩
    rw [hgen, hsame', hsamegen'] at hle
    exact hle

variable {now : Reading} {w : Write}

theorem selectionPlan_write {learning : LearningContext} {plan : Plan LearnResult}
    (h : selectionPlan store now phrase id clock existing = .ok plan) (hw : plan.write = some w) :
    (w.record.text = (selectionBase existing phrase).text ∧
      w.record.pinyin = (selectionBase existing phrase).pinyin) ∧
      ObjectWrite id (.select phrase learning) existing w.record := by
  unfold selectionPlan at h
  split at h
  · simp at h
  rename_i base hbase
  have hensured := ensurePhraseState_ensured _ hbase
  split_ifs at h with hpresent
  · split at h
    · simp at h
    rename_i counted hcounted
    cases h
    cases hw
    unfold countSelection at hcounted
    dsimp only at hcounted
    split_ifs at hcounted
    cases hcounted
    refine ⟨⟨hensured.text, hensured.pinyin⟩, ?_, hensured.state, ?_⟩
    · cases existing with
      | none => exact .inl ⟨hensured.text, hensured.pinyin⟩
      | some old => exact .inr ⟨old, rfl, hensured.text, hensured.pinyin⟩
    · rintro old rfl hold
      obtain ⟨hsame, hsamegen⟩ := hensured.presence hold
      exact ⟨Prod.ext hsame hsamegen, hsamegen ▸ UInt64.le_refl _⟩
  · cases h
    simp at hw

variable {text pinyin : Bytes}

theorem deletionPlan_write {plan : Plan Unit}
    (h : deletionPlan store text pinyin id clock existing = .ok plan) (hw : plan.write = some w) :
    (w.record.text = (deletionBase existing text pinyin).text ∧
      w.record.pinyin = (deletionBase existing text pinyin).pinyin) ∧
      ObjectWrite id (.delete text pinyin) existing w.record := by
  unfold deletionPlan at h
  split at h
  · simp at h
  rename_i base hbase
  have hensured := ensurePhraseState_ensured _ hbase
  cases h
  cases hw
  refine ⟨⟨hensured.text, hensured.pinyin⟩, ?_, hensured.state, ?_⟩
  · cases existing with
    | none => exact .inl ⟨hensured.text, hensured.pinyin⟩
    | some old => exact .inr ⟨old, rfl, hensured.text, hensured.pinyin⟩
  · rintro old rfl hold
    obtain ⟨_, hsamegen⟩ := hensured.presence hold
    exact ⟨Prod.ext rfl hsamegen, hsamegen ▸ UInt64.le_refl _⟩

theorem save_write (h : (Mutation.save phrase).write? store now id clock existing = some w) :
    (w.record.text = phrase.text ∧ w.record.pinyin = phrase.pinyin ∧ w.record.deleted = false) ∧
      ObjectWrite id (.save phrase) existing w.record := by
  obtain ⟨plan, hplan, hw⟩ := toOption_bind_write h
  unfold explicitPlan at hplan
  split at hplan
  · simp at hplan
  rename_i record hrecord
  cases hplan
  cases hw
  exact explicitRecord_write store hrecord

theorem Mutation.objectWrite (m : Mutation) (h : m.write? store now id clock existing = some w) :
    (w.record.text = (m.content now existing).1 ∧ w.record.pinyin = (m.content now existing).2.1) ∧
      ObjectWrite id m existing w.record := by
  cases m with
  | save phrase =>
    obtain ⟨⟨htext, hpinyin, _⟩, hwrite⟩ := save_write store h
    refine ⟨?_, hwrite⟩
    cases existing <;> exact ⟨htext, hpinyin⟩
  | select phrase learning =>
    simp only [Mutation.write?] at h
    split_ifs at h
    obtain ⟨plan, hplan, hw⟩ := toOption_bind_write h
    exact selectionPlan_write store hplan hw
  | delete text pinyin =>
    obtain ⟨plan, hplan, hw⟩ := toOption_bind_write h
    exact deletionPlan_write store hplan hw

def objectOf (x : Externals) (idKey text pinyin : Bytes) : Except String ObjectID :=
  Store.objectID x ⟨idKey, [], false⟩ text pinyin

theorem Store.objectID_eq (x : Externals) {store : Store} (h : store.idKey = idKey)
    (text pinyin : Bytes) :
    store.objectID x text pinyin = objectOf x idKey text pinyin := by
  simp only [objectOf, Store.objectID, h]

/-- A record that is filed under the object of its own text, with a state of the object. -/
structure Phrase.Filed (x : Externals) (idKey : Bytes) (id : ObjectID) (p : Phrase) : Prop where
  identity : objectOf x idKey p.text p.pinyin = .ok id
  text : validUTF8 p.text = true
  pinyin : validUTF8 p.pinyin = true
  state : p.crdt.Of id

theorem jsonPhrase_filed {p : Phrase} (hs : p.crdt.Of id)
    (hid : objectOf x idKey (toValidUTF8 p.text) (toValidUTF8 p.pinyin) = .ok id) :
    (jsonPhrase p).Filed x idKey id := by
  refine ⟨hid, validUTF8_toValidUTF8 _, validUTF8_toValidUTF8 _, ?_, hs.2⟩
  change toValidUTF8 p.crdt.objectID = _
  rw [hs.1, toValidUTF8_of_valid _ (validUTF8_hexEncode _)]

def LocalDB.presence? (db : LocalDB) (o : ObjectID) : Option Presence :=
  (db.phrases.find? o).map (·.crdt.presence)

/-- All records are filed, and no row of the outbox is of a later generation than its
record. -/
structure LocalDB.Filed (x : Externals) (idKey : Bytes) (db : LocalDB) : Prop where
  records : ∀ id p, db.phrases.find? id = some p → p.Filed x idKey id
  rows : ∀ r ∈ db.outbox, ∃ q, db.presence? r.objectID = some q ∧
    r.phrase.crdt.presence.generation ≤ q.generation

theorem LocalDB.Filed.sameRows (h : db.Filed x idKey) (hp : db'.phrases = db.phrases)
    (ho : db'.outbox = db.outbox) :
    db'.Filed x idKey := by
  refine ⟨by rw [hp]; exact h.records, ?_⟩
  unfold LocalDB.presence?
  rw [hp, ho]
  exact h.rows

theorem LocalDB.SameRows.presence? (h : db.SameRows db') (o : ObjectID) :
    db'.presence? o = db.presence? o := by
  unfold LocalDB.presence?
  rw [h.phrases]

theorem write_presence (hrows : db.SameRows db') (id : ObjectID) (p : Phrase) (enqueue : Bool)
    (o : ObjectID) : (db'.write id p enqueue).presence? o =
      if o = id then some p.crdt.presence else db.presence? o := by
  unfold LocalDB.presence?
  rw [write_phrases, hrows.phrases, SortedMap.find?_insert]
  split_ifs <;> rfl

theorem LocalDB.Filed.write (h : db.Filed x idKey) (hrows : db.SameRows db') {p : Phrase}
    (enqueue : Bool) (hp : p.Filed x idKey id)
    (hgen : ∀ q, db.presence? id = some q → q.generation ≤ p.crdt.presence.generation) :
    (db'.write id p enqueue).Filed x idKey := by
  refine ⟨?_, ?_⟩
  · intro id' p' hp'
    rw [write_phrases, hrows.phrases, SortedMap.find?_insert] at hp'
    split_ifs at hp' with hid
    · cases hp'
      rw [hid]
      exact hp
    · exact h.records id' p' hp'
  · intro r hr
    rw [write_presence hrows]
    rcases mem_write_outbox hr with hold | ⟨hid, hphrase⟩
    · rw [hrows.outbox] at hold
      obtain ⟨q, hq, hle⟩ := h.rows r hold
      split_ifs with hid
      · exact ⟨_, rfl, UInt64.le_trans hle (hgen q (hid ▸ hq))⟩
      · exact ⟨q, hq, hle⟩
    · rw [if_pos hid, hphrase]
      exact ⟨_, rfl, UInt64.le_refl _⟩

def Mutation.Moves (x : Externals) (idKey : Bytes) (m : Mutation) (o : ObjectID)
    (before after : Option Presence) : Prop :=
  after = before ∨ (objectOf x idKey m.text m.pinyin = .ok o ∧ ∃ q, after = some q ∧
    ∀ p, before = some p → (q.present, q.generation) = m.presenceAfter p ∧
      p.generation ≤ q.generation)

theorem LocalDB.Filed.mutation (h : db.Filed x idKey) {store : Store} (hkey : store.idKey = idKey)
    {m : Mutation} (hm : m.KeepsObject x store) {r : Option Write × LocalDB}
    (hr : MutationMove x store now m db r) :
    r.2.Filed x idKey ∧ ∀ o, m.Moves x idKey o (db.presence? o) (r.2.presence? o) := by
  have hrows := nextHLC_sameRows store now db
  cases hr with
  | nothing => exact ⟨h, fun o => .inl rfl⟩
  | tick => exact ⟨h.sameRows hrows.phrases hrows.outbox, fun o => .inl (hrows.presence? o)⟩
  | write id w id' hid hw hid' =>
    have hwrite := (m.objectWrite store hw).2
    unfold Mutation.KeepsObject at hm
    rw [Store.objectID_eq x hkey] at hid hid'
    rw [Store.objectID_eq x hkey, Store.objectID_eq x hkey] at hm
    -- Text and reading are the operation's own or those of the record: the same object.
    have hobject : objectOf x idKey w.record.text w.record.pinyin = .ok id ∧
        objectOf x idKey (toValidUTF8 w.record.text) (toValidUTF8 w.record.pinyin) = .ok id := by
      rcases hwrite.text with ⟨ht, hp⟩ | ⟨old, hold, ht, hp⟩
      · rw [ht, hp, hm]
        exact ⟨hid, hid⟩
      · have hfiled := h.records id old hold
        rw [ht, hp, toValidUTF8_of_valid _ hfiled.text, toValidUTF8_of_valid _ hfiled.pinyin]
        exact ⟨hfiled.identity, hfiled.identity⟩
    obtain rfl : id' = id := Except.ok.inj (hid'.symm.trans hobject.1)
    have hmoved (q : Presence) (hq : db.presence? id' = some q) :
        (w.record.crdt.presence.present, w.record.crdt.presence.generation) =
          m.presenceAfter q ∧ q.generation ≤ w.record.crdt.presence.generation := by
      obtain ⟨old, hold, rfl⟩ := map_eq_some_iff.mp hq
      exact hwrite.presence old hold (h.records id' old hold).state
    refine ⟨h.write hrows _ (jsonPhrase_filed hwrite.state hobject.2)
      (fun q hq => (hmoved q hq).2), ?_⟩
    intro o
    rw [write_presence hrows]
    split_ifs with ho
    · exact .inr ⟨by rw [ho]; exact hid, _, rfl, fun q hq => hmoved q (ho ▸ hq)⟩
    · exact .inl rfl

def PhrasePayload.Moves (payload : PhrasePayload) (o : ObjectID) (before after : Option Presence) :
    Prop :=
  after = before ∨ (payload.state.objectID = hexEncode o.val ∧ ∃ q, after = some q ∧
    ∀ p, before = some p → q = choosePresence p payload.state.presence)

theorem LocalDB.Filed.merge (h : db.Filed x idKey) {store : Store} (hkey : store.idKey = idKey)
    (now : Reading) {payload : PhrasePayload} (ht : validUTF8 payload.text = true)
    (hp : validUTF8 payload.pinyin = true) :
    (mergeRemotePayload x store now payload db).2.Filed x idKey ∧
      ∀ o, payload.Moves o (db.presence? o)
        ((mergeRemotePayload x store now payload db).2.presence? o) := by
  have hmigrated : db.Migrated := by
    intro id p hfind
    rw [(h.records id p hfind).state.1]
    exact objectID_hex_ne_nil id
  rcases hmigrated.mergeRemotePayload_cases x store now payload with
    ⟨e, he⟩ | ⟨m, record, hload, hrec, he⟩
  · rw [he]
    exact ⟨h, fun o => .inl rfl⟩
  rw [he]
  obtain ⟨hpay, _, hgood, hread, hexist⟩ := mergeLoad_ok hload
  obtain ⟨merged, hmerged, hrecord, hstate, hid, _, _⟩ :=
    merge_record_ok (hpay ▸ hgood) hrec
  rw [Store.objectID_eq x hkey] at hid
  have hrows := observeHLC_sameRows (latestClock record) db
  obtain ⟨htext, hpinyin, _⟩ := merged_texts (validUTF8 · = true) hmerged
  have hfound (old : Phrase) (hold : m.existing = some old) : old.Filed x idKey m.id :=
    h.records m.id old ((hexist.trans hread) ▸ hold)
  have hmoved (q : Presence) (hq : db.presence? m.id = some q) :
      record.crdt.presence = choosePresence q payload.state.presence := by
    obtain ⟨old, hold, rfl⟩ := map_eq_some_iff.mp hq
    rw [← hread, ← hexist] at hold
    simp only [Merge.merged, hold] at hmerged
    obtain ⟨hmerge, _⟩ := mergePhrasePayload_ok hmerged
    obtain ⟨_, hdef⟩ := (mergePhrase_ok_iff _ _ _).mp hmerge
    rw [hrecord]
    change merged.state.presence = _
    rw [hdef, hpay]
    rfl
  have hjson : (jsonPhrase record).crdt = record.crdt := hstate.json
  have hfiled : (jsonPhrase record).Filed x idKey m.id := by
    apply jsonPhrase_filed ⟨hstate.objectID, hstate.generation⟩
    rw [hrecord] at hid ⊢
    change objectOf x idKey (toValidUTF8 merged.text) (toValidUTF8 merged.pinyin) = _
    rw [toValidUTF8_of_valid _ (htext (fun old ho => (hfound old ho).text) (hpay ▸ ht)),
      toValidUTF8_of_valid _ (hpinyin (fun old ho => (hfound old ho).pinyin) (hpay ▸ hp))]
    exact hid
  refine ⟨h.write hrows false hfiled ?_, ?_⟩
  · intro q hq
    rw [hjson, hmoved q hq]
    exact (le_choosePresence q _).2
  · intro o
    dsimp only
    rw [write_presence hrows]
    split_ifs with ho
    · refine .inr ⟨by rw [ho]; exact hgood.objectID, _, rfl, ?_⟩
      intro q hq
      rw [hjson]
      exact hmoved q (ho ▸ hq)
    · exact .inl rfl

theorem delete_exec {store : Store} (now : Reading) {p : Phrase}
    (hid : store.objectID x text pinyin = .ok id) (hp : db.phrases.find? id = some p)
    (hs : p.crdt.Of id) :
    ∃ q, q.deleted = true ∧ q.crdt.presence.present = false ∧
      ((Mutation.delete text pinyin).exec x store now db).2.phrases =
        match store.objectID x p.text p.pinyin with
        | .error _ => db.phrases
        | .ok id' => db.phrases.insert id' q := by
  obtain ⟨record, hrecord⟩ := ensurePhraseState_some p store.deviceID (nextHLC store now db).1 hs
  have hensured := ensurePhraseState_ensured p hrecord
  refine ⟨jsonPhrase (bury record (nextHLC store now db).1), rfl, rfl, ?_⟩
  have hexec : ((Mutation.delete text pinyin).exec x store now db).2 =
      (upsert x store (bury record (nextHLC store now db).1) true (nextHLC store now db).2).2 := by
    simp only [Mutation.exec, deletePhrase, mutate, hid, hp, deletionPlan, deletionBase,
      getD_some, hrecord]
    split
    all_goals
      rename_i heq
      split at heq <;> cases heq
      rename_i hup
      rw [hup]
  rw [hexec, upsert]
  change (match store.objectID x record.text record.pinyin with
    | .error e => (Except.error e, (nextHLC store now db).2)
    | .ok id => (.ok (), (nextHLC store now db).2.write id _ true)).2.phrases = _
  rw [hensured.text, hensured.pinyin]
  split
  · rfl
  · rw [write_phrases]
    rfl

theorem LocalDB.Filed.delete (h : db.Filed x idKey) {store : Store} (hkey : store.idKey = idKey)
    (now : Reading) {o : ObjectID} (ho : objectOf x idKey text pinyin = .ok o) {p : Phrase}
    (hp : db.phrases.find? o = some p) :
    ∃ q, ((Mutation.delete text pinyin).exec x store now db).2.presence? o = some q ∧
      q.present = false := by
  have hfiled := h.records o p hp
  rw [← Store.objectID_eq x hkey] at ho
  obtain ⟨q, _, hno, hexec⟩ := delete_exec now ho hp hfiled.state
  rw [Store.objectID_eq x hkey, hfiled.identity] at hexec
  refine ⟨q.crdt.presence, ?_, hno⟩
  rw [LocalDB.presence?, hexec, SortedMap.find?_insert_self]
  rfl

section
variable {κ : Type}

def Fleet.presence? (s : Fleet κ) (k : κ) (o : ObjectID) : Option Presence :=
  (s.replicas k).db.presence? o

def Filing (x : Externals) (s : Fleet κ) : FleetAction κ → Prop
  | .mutate k handle m _ => ∀ store ∈ (s.replicas k).handles[handle]?, m.KeepsObject x store
  | .merge _ _ payload _ => validUTF8 payload.text = true ∧ validUTF8 payload.pinyin = true
  | _ => True

instance (x : Externals) (s : Fleet κ) (a : FleetAction κ) : Decidable (Filing x s a) := by
  unfold Filing
  cases a <;> infer_instance

def FleetAction.Moves (x : Externals) (idKey : Bytes) (k : κ) (o : ObjectID)
    (before after : Option Presence) : FleetAction κ → Prop
  | .mutate k' _ m _ => after = before ∨ (k' = k ∧ m.Moves x idKey o before after)
  | .merge k' _ payload _ => after = before ∨ (k' = k ∧ payload.Moves o before after)
  | _ => after = before

variable {o : ObjectID} {k : κ} {a : FleetAction κ}

theorem FleetAction.Moves.same {before : Option Presence} :
    a.Moves x idKey k o before before := by
  cases a with
  | mutate | merge => exact .inl rfl
  | _ => rfl

theorem FleetAction.Moves.le {p : Presence} {after : Option Presence}
    (h : a.Moves x idKey k o (some p) after) :
    ∃ q, after = some q ∧ p.generation ≤ q.generation := by
  cases a with
  | mutate k' handle m now =>
    rcases h with h | ⟨_, h | ⟨_, q, hq, hmove⟩⟩
    · exact ⟨p, h, UInt64.le_refl _⟩
    · exact ⟨p, h, UInt64.le_refl _⟩
    · exact ⟨q, hq, (hmove p rfl).2⟩
  | merge k' handle payload now =>
    rcases h with h | ⟨_, h | ⟨_, q, hq, hmove⟩⟩
    · exact ⟨p, h, UInt64.le_refl _⟩
    · exact ⟨p, h, UInt64.le_refl _⟩
    · exact ⟨q, hq, by rw [hmove p rfl]; exact (le_choosePresence p _).2⟩
  | _ => exact ⟨p, h, UInt64.le_refl _⟩

/-- All replicas are filed, and what was sent is not of a later generation than the
record of the replica that has sent it. -/
structure FileInv (x : Externals) (idKey : Bytes) (s : Fleet κ) : Prop where
  filed : ∀ k, (s.replicas k).db.Filed x idKey
  handles : ∀ k, ∀ store ∈ (s.replicas k).handles, store.idKey = idKey
  sent : ∀ p ∈ s.sent, ∃ o k q, p.state.objectID = hexEncode o.val ∧ s.presence? k o = some q ∧
    p.state.presence.generation ≤ q.generation

theorem Fleet.new_fileInv (x : Externals) : FileInv x idKey (Fleet.new κ) :=
  ⟨fun k => ⟨by simp [Fleet.new, LocalDB.empty], by simp [Fleet.new, LocalDB.empty]⟩,
    by simp [Fleet.new], by simp [Fleet.new]⟩

variable {dataKey : Bytes} {s : Fleet κ}

theorem FileInv.step [DecidableEq κ] {s' : Fleet κ} (hi : FileInv x idKey s) (hc : Filing x s a)
    (h : s.step x dataKey idKey a = some s') :
    FileInv x idKey s' ∧
      ∀ k o, a.Moves x idKey k o (s.presence? k o) (s'.presence? k o) := by
  -- What was sent stays below its record, because presence only moves up.
  have hsent (s' : Fleet κ) (hmoves : ∀ k o, a.Moves x idKey k o (s.presence? k o)
      (s'.presence? k o)) (p : PhrasePayload) (hp : p ∈ s.sent) : ∃ o k q,
      p.state.objectID = hexEncode o.val ∧ s'.presence? k o = some q ∧
        p.state.presence.generation ≤ q.generation := by
    obtain ⟨o, k, q, hobj, hq, hle⟩ := hi.sent p hp
    have hmove := hmoves k o
    rw [hq] at hmove
    obtain ⟨q', hq', hle'⟩ := hmove.le
    exact ⟨o, k, q', hobj, hq', UInt64.le_trans hle hle'⟩
  -- A step on one replica, whatever else it logs.
  have hset (k : κ) (r : Replica) (saved : List (ObjectID × Bool)) (hr : r.db.Filed x idKey)
      (hh : ∀ store ∈ r.handles, store.idKey = idKey)
      (hmove : ∀ o, a.Moves x idKey k o ((s.replicas k).db.presence? o) (r.db.presence? o)) :
      FileInv x idKey { s.setReplica k r with saved := saved } ∧ ∀ k' o, a.Moves x idKey k' o
        (s.presence? k' o) (Fleet.presence? { s.setReplica k r with saved := saved } k' o) := by
    have hmoves : ∀ k' o, a.Moves x idKey k' o (s.presence? k' o)
        (Fleet.presence? { s.setReplica k r with saved := saved } k' o) :=
      s.setReplica_ind (fun k' r' => ∀ o, a.Moves x idKey k' o (s.presence? k' o)
        (r'.db.presence? o)) k r hmove (fun k' o => .same)
    refine ⟨⟨?_, ?_, hsent _ hmoves⟩, hmoves⟩
    · exact s.setReplica_ind (fun _ r => r.db.Filed x idKey) k r hr hi.filed
    · exact s.setReplica_ind (fun _ r => ∀ store ∈ r.handles, store.idKey = idKey) k r hh hi.handles
  cases Fleet.step_cases h with
  | opened _ k db' handles ho =>
    refine hset k _ s.saved ((hi.filed k).sameRows ho.phrases ho.outbox) ?_ ?_
    · intro store hs
      rcases mem_append.mp hs with hs | hs
      · exact hi.handles k store hs
      · exact (ho.handles store hs).1
    · intro o
      rw [LocalDB.presence?, LocalDB.presence?, ho.phrases]
      exact .same
  | mutate k handle m now store hs r hm =>
    have hkey := hi.handles k store (mem_of_getElem? hs)
    obtain ⟨hfiled, hmove⟩ := (hi.filed k).mutation hkey (hc store hs) hm
    exact hset k _ _ hfiled (hi.handles k) (fun o => .inr ⟨rfl, hmove o⟩)
  | send k handle limit store hs =>
    refine ⟨⟨hi.filed, hi.handles, ?_⟩, fun k o => rfl⟩
    intro p hp
    rcases mem_append.mp hp with hp | hp
    · exact hi.sent p hp
    · obtain ⟨row, hrow, hobj, rfl⟩ := sentPayloads_row hp
      obtain ⟨q, hq, hle⟩ := (hi.filed k).rows row hrow
      exact ⟨row.objectID, k, q, hobj, hq, hle⟩
  | merge k handle payload now store hs =>
    have hkey := hi.handles k store (mem_of_getElem? hs)
    obtain ⟨hfiled, hmove⟩ := (hi.filed k).merge hkey now hc.1 hc.2
    exact hset k _ s.saved hfiled (hi.handles k) (fun o => .inr ⟨rfl, hmove o⟩)

theorem FileInv.run [DecidableEq κ] {actions : List (FleetAction κ)}
    (h : Runs.run (Runs.restrict (Filing x) (Fleet.step x dataKey idKey)) (Fleet.new κ) actions =
      some s) : FileInv x idKey s := by
  apply Runs.run_invariant (FileInv x idKey) ?_ (Fleet.new_fileInv x) h
  intro u a u' hu hstep
  obtain ⟨hc, hstep⟩ := Runs.restrict_some hstep
  exact (hu.step hc hstep).1

/-- `SaveExplicit` of the object on this replica, or a merge of a later generation. -/
def FleetAction.Revives (x : Externals) (idKey : Bytes) (k : κ) (o : ObjectID)
    (generation : UInt64) : FleetAction κ → Prop
  | .mutate k' _ (.save phrase) _ => k' = k ∧ objectOf x idKey phrase.text phrase.pinyin = .ok o
  | .merge k' _ payload _ => k' = k ∧ payload.state.objectID = hexEncode o.val ∧
      generation < payload.state.presence.generation
  | _ => False

theorem FleetAction.Moves.revives {p q : Presence} (h : a.Moves x idKey k o (some p) (some q))
    (hp : p.present = false) (hq : q.present = true) :
    a.Revives x idKey k o p.generation := by
  have hne : some q ≠ some p := by
    intro he
    rw [some.inj he, hp] at hq
    exact Bool.false_ne_true hq
  cases a with
  | mutate k' handle m now =>
    rcases h with h | ⟨hk, h | ⟨hobj, q', hq', hmove⟩⟩
    · exact absurd h hne
    · exact absurd h hne
    · cases hq'
      have hafter := congrArg Prod.fst (hmove p rfl).1
      -- A selection leaves the record absent and a deletion makes it so.
      cases m with
      | save phrase => exact ⟨hk, hobj⟩
      | select phrase learning =>
        change q.present = p.present at hafter
        rw [hp, hq] at hafter
        exact absurd hafter (by decide)
      | delete text pinyin =>
        change q.present = false at hafter
        rw [hq] at hafter
        exact absurd hafter (by decide)
  | merge k' handle payload now =>
    rcases h with h | ⟨hk, h | ⟨hobj, q', hq', hmove⟩⟩
    · exact absurd h hne
    · exact absurd h hne
    · cases hq'
      refine ⟨hk, hobj, ?_⟩
      by_contra hgen
      have hchoice := hmove p rfl
      rcases choosePresence_cases p payload.state.presence with hc | hc
      · exact hne (by rw [hchoice, hc])
      · have habsent := Presence.absent_of_le (le_choosePresence p payload.state.presence).1 hp
          (by rw [hc]; exact UInt64.not_lt.mp hgen)
        rw [← hchoice, hq] at habsent
        exact absurd habsent (by decide)
  | _ => exact absurd h hne

/-- The runs in question: what is merged was sent by one of the stores, and nobody saves
the object on a store where it is absent. -/
def DeletionScope (x : Externals) (o : ObjectID) (s : Fleet κ) : FleetAction κ → Prop
  | .mutate k handle (.save phrase) _ => ∀ store ∈ (s.replicas k).handles[handle]?,
      store.objectID x phrase.text phrase.pinyin = .ok o →
        ∀ p ∈ (s.replicas k).db.phrases.find? o, p.crdt.presence.present = true
  | .merge _ _ payload _ => payload ∈ s.sent
  | _ => True

instance (x : Externals) (o : ObjectID) (s : Fleet κ) (a : FleetAction κ) :
    Decidable (DeletionScope x o s a) := by
  unfold DeletionScope
  cases a with
  | mutate k handle m now => cases m <;> infer_instance
  | _ => infer_instance

def KeepsDeletion (x : Externals) (o : ObjectID) (s : Fleet κ) (a : FleetAction κ) : Prop :=
  DeletionScope x o s a ∧ Filing x s a

instance (x : Externals) (o : ObjectID) (s : Fleet κ) (a : FleetAction κ) :
    Decidable (KeepsDeletion x o s a) :=
  inferInstanceAs (Decidable (_ ∧ _))

structure OneGeneration (x : Externals) (idKey : Bytes) (o : ObjectID) (g : UInt64)
    (s : Fleet κ) : Prop where
  file : FileInv x idKey s
  records : ∀ k, ∃ q, s.presence? k o = some q ∧ q.generation = g

def Fleet.Absent (s : Fleet κ) (k : κ) (o : ObjectID) : Prop :=
  ∃ q, s.presence? k o = some q ∧ q.present = false

theorem OneGeneration.step [DecidableEq κ] {g : UInt64} {s' : Fleet κ}
    (hi : OneGeneration x idKey o g s) (hc : KeepsDeletion x o s a)
    (h : s.step x dataKey idKey a = some s') :
    OneGeneration x idKey o g s' ∧ ∀ k, s.Absent k o → s'.Absent k o := by
  obtain ⟨hfile, hmoves⟩ := hi.file.step hc.2 h
  -- On every store: the generation is still g, and absent stays absent.
  have hstep (k : κ) (p : Presence) (hp : s.presence? k o = some p) (hg : p.generation = g) :
      ∃ q, s'.presence? k o = some q ∧ q.generation = g ∧ (p.present = false → q.present = false) := by
    have hmove := hmoves k o
    rw [hp] at hmove
    obtain ⟨q, hq, hle⟩ := hmove.le
    rw [hq] at hmove
    refine ⟨q, hq, ?_⟩
    have hsame (he : some q = some p) :
        q.generation = g ∧ (p.present = false → q.present = false) := by
      rw [some.inj he]
      exact ⟨hg, id⟩
    cases a with
    | mutate k' handle m now =>
      rcases hmove with he | ⟨rfl, he | ⟨hobj, q', hq', hafter⟩⟩
      · exact hsame he
      · exact hsame he
      · cases hq'
        obtain ⟨hpresent, hgeneration⟩ := Prod.mk.inj (hafter p rfl).1
        cases m with
        | save phrase =>
          -- The handle exists, or the step would not have been possible.
          have hwas : p.present = true := by
            simp only [Fleet.step] at h
            split at h
            · simp at h
            rename_i store hs
            have hkey := hi.file.handles k' store (mem_of_getElem? hs)
            obtain ⟨old, hold, rfl⟩ := map_eq_some_iff.mp hp
            exact hc.1 store hs (by rw [Store.objectID_eq x hkey]; exact hobj) old hold
          rw [hwas] at hgeneration
          refine ⟨hgeneration.trans hg, ?_⟩
          intro hno
          rw [hwas] at hno
          exact absurd hno (by decide)
        | select phrase learning => exact ⟨hgeneration.trans hg, fun hno => hpresent.trans hno⟩
        | delete text pinyin => exact ⟨hgeneration.trans hg, fun _ => hpresent⟩
    | merge k' handle payload now =>
      rcases hmove with he | ⟨rfl, he | ⟨hobj, q', hq', hafter⟩⟩
      · exact hsame he
      · exact hsame he
      · cases hq'
        -- The payload was sent by a store of the same generation.
        have hsent : payload.state.presence.generation ≤ g := by
          obtain ⟨o', k, r, hobj', hr, hle'⟩ := hi.file.sent payload hc.1
          obtain rfl : o = o' := ObjectID.hex_injective (hobj.symm.trans hobj')
          obtain ⟨r', hr', hgr⟩ := hi.records k
          obtain rfl := some.inj (hr.symm.trans hr')
          rw [← hgr]
          exact hle'
        have hchoice := hafter p rfl
        have hupper : q.generation ≤ g := by
          rw [hchoice]
          rcases choosePresence_cases p payload.state.presence with hc' | hc' <;> rw [hc']
          · rw [hg]
            exact UInt64.le_refl _
          · exact hsent
        refine ⟨UInt64.le_antisymm hupper (hg ▸ hle), ?_⟩
        intro hno
        rw [hchoice] at hupper ⊢
        exact Presence.absent_of_le (le_choosePresence p _).1 hno (by rw [hg]; exact hupper)
    | _ => exact hsame hmove
  refine ⟨⟨hfile, ?_⟩, ?_⟩
  · intro k
    obtain ⟨p, hp, hg⟩ := hi.records k
    obtain ⟨q, hq, hgq, _⟩ := hstep k p hp hg
    exact ⟨q, hq, hgq⟩
  · rintro k ⟨p, hp, hno⟩
    obtain ⟨p', hp', hg⟩ := hi.records k
    obtain rfl := some.inj (hp.symm.trans hp')
    obtain ⟨q, hq, _, habsent⟩ := hstep k p hp hg
    exact ⟨q, hq, habsent hno⟩

theorem OneGeneration.run [DecidableEq κ] {g : UInt64} {t : Fleet κ}
    {actions : List (FleetAction κ)} (hi : OneGeneration x idKey o g s)
    (h : Runs.run (Runs.restrict (KeepsDeletion x o) (Fleet.step x dataKey idKey)) s actions =
      some t) : OneGeneration x idKey o g t ∧ ∀ k, s.Absent k o → t.Absent k o := by
  apply Runs.run_invariant
    (fun u => OneGeneration x idKey o g u ∧ ∀ k, s.Absent k o → u.Absent k o) ?_
    ⟨hi, fun _ => id⟩ h
  rintro u a u' ⟨hu, habsent⟩ hstep
  obtain ⟨hc, hstep⟩ := Runs.restrict_some hstep
  obtain ⟨hu', habsent'⟩ := hu.step hc hstep
  exact ⟨hu', fun k hk => habsent' k (habsent k hk)⟩

theorem OneGeneration.merged_absent {g : UInt64} (hi : OneGeneration x idKey o g s)
    (hk : s.Absent k o) {ks : List κ} (hks : k ∈ ks) :
    ∃ merged, mergeStates (s.states ks o) = .ok merged ∧
      merged.presence.present = false := by
  have hstate : ∀ u ∈ s.states ks o, u.objectID = hexEncode o.val ∧
      u.presence.generation = g := by
    intro u hu
    obtain ⟨k', _, hu⟩ := mem_filterMap.mp hu
    obtain ⟨p, hp, rfl⟩ := map_eq_some_iff.mp hu
    obtain ⟨q, hq, hg⟩ := hi.records k'
    rw [Fleet.presence?, LocalDB.presence?, hp] at hq
    exact ⟨((hi.file.filed k').records o p hp).state.1, by rw [← hg, ← some.inj hq]⟩
  obtain ⟨q, hq, hno⟩ := hk
  obtain ⟨p, hp, rfl⟩ := map_eq_some_iff.mp hq
  have hmem : p.crdt ∈ s.states ks o := mem_filterMap.mpr ⟨k, hks, by rw [hp]; rfl⟩
  obtain ⟨merged, hm, _, hub, _⟩ := mergeStates_ok (objectID_hex_ne_nil o)
    (ne_nil_of_mem hmem) (fun u hu => (hstate u hu).1)
  obtain ⟨u, hu, hpres⟩ := mergeStates_presence merged hm
  refine ⟨merged, hm, Presence.absent_of_le (hub p.crdt hmem).2.2 hno ?_⟩
  rw [hpres, (hstate u hu).2, (hstate p.crdt hmem).2]
  exact UInt64.le_refl _

structure DeletionWins (κ : Type) [DecidableEq κ] (x : Externals) (dataKey idKey : Bytes) :
    Prop where
  /-- Stores that have come to hold the same record, and a run on them with a deletion. -/
  merged : ∀ (before : List (FleetAction κ)) (s : Fleet κ),
    Runs.run (Runs.restrict (Filing x) (Fleet.step x dataKey idKey)) (Fleet.new κ) before = some s →
    ∀ o p, (∀ k, (s.replicas k).db.phrases.find? o = some p) →
    ∀ (actions : List (FleetAction κ)) (t : Fleet κ),
    Runs.run (Runs.restrict (KeepsDeletion x o) (Fleet.step x dataKey idKey)) s actions = some t →
    ∀ k handle text pinyin now,
    FleetAction.mutate k handle (.delete text pinyin) now ∈ actions →
    objectOf x idKey text pinyin = .ok o →
    ∀ ks : List κ, (∀ k, k ∈ ks) → ∃ merged, mergeStates (t.states ks o) = .ok merged ∧
      merged.presence.present = false
  /-- What a step that makes an absent record present can be. -/
  revived : ∀ (actions : List (FleetAction κ)) (s : Fleet κ),
    Runs.run (Runs.restrict (Filing x) (Fleet.step x dataKey idKey)) (Fleet.new κ) actions =
      some s →
    ∀ a s', Runs.restrict (Filing x) (Fleet.step x dataKey idKey) s a = some s' →
    ∀ k o p p', (s.replicas k).db.phrases.find? o = some p → p.crdt.presence.present = false →
      (s'.replicas k).db.phrases.find? o = some p' → p'.crdt.presence.present = true →
      a.Revives x idKey k o p.crdt.presence.generation

/-- In every run that meets the condition, deletion wins. -/
theorem deletion_wins [DecidableEq κ] (x : Externals) (dataKey idKey : Bytes) :
    DeletionWins κ x dataKey idKey := by
  refine ⟨?_, ?_⟩
  · intro before s hbefore o p hall actions t hrun k handle text pinyin now hmem hobj ks hks
    have hfile := FileInv.run hbefore
    have hstart : OneGeneration x idKey o p.crdt.presence.generation s :=
      ⟨hfile, fun k => ⟨_, by rw [Fleet.presence?, LocalDB.presence?, hall k]; rfl, rfl⟩⟩
    -- The run up to the deletion, the deletion, and the rest.
    obtain ⟨first, second, rfl⟩ := append_of_mem hmem
    obtain ⟨u, hu, hrest⟩ := Runs.run_append hrun
    obtain ⟨v, hv, hrest⟩ := Runs.run_cons hrest
    obtain ⟨hiu, _⟩ := hstart.run hu
    obtain ⟨hc, hv⟩ := Runs.restrict_some hv
    obtain ⟨hiv, _⟩ := hiu.step hc hv
    have hdeleted : v.Absent k o := by
      simp only [Fleet.step] at hv
      split at hv
      · simp at hv
      rename_i store hs
      cases hv
      obtain ⟨q, hq, _⟩ := hiu.records k
      obtain ⟨old, hold, _⟩ := map_eq_some_iff.mp hq
      have hkey := hiu.file.handles k store (mem_of_getElem? hs)
      obtain ⟨q', hq', hno⟩ := (hiu.file.filed k).delete hkey now hobj hold
      refine ⟨q', ?_, hno⟩
      unfold Fleet.presence?
      dsimp only
      rw [Fleet.setReplica_self]
      exact hq'
    obtain ⟨hit, hkeep⟩ := hiv.run hrest
    exact hit.merged_absent (hkeep k hdeleted) (hks k)
  · intro actions s hrun a s' ha k o p p' hp hno hp' hyes
    have hfile := FileInv.run hrun
    obtain ⟨hc, ha⟩ := Runs.restrict_some ha
    have hmove := (hfile.step hc ha).2 k o
    unfold Fleet.presence? LocalDB.presence? at hmove
    rw [hp, hp'] at hmove
    exact hmove.revives hno hyes

end

def invalidSave : List (FleetAction Unit) :=
  [sampleOpen () false, .mutate () 0 (.save invalidPhrase) sampleReading]

def invalidDelete : List (FleetAction Unit) :=
  [.mutate () 0 (.delete [0x61, 0xFF] (lit "ni")) sampleReading]

/-- The record of a phrase that ends in an invalid byte reads U+FFFD, so its deletion is
written for another object and the phrase is still there. -/
theorem deletion_lost_by_repair : ∃ s o p t merged,
    Runs.run sampleFleetStep (Fleet.new Unit) invalidSave = some s ∧
    (∀ k, (s.replicas k).db.phrases.find? o = some p) ∧
    Runs.run (Runs.restrict (DeletionScope sampleExternals o) sampleFleetStep) s invalidDelete =
      some t ∧
    objectOf sampleExternals sampleKey [0x61, 0xFF] (lit "ni") = .ok o ∧
    mergeStates (t.states [()] o) = .ok merged ∧ merged.presence.present = true := by
  obtain ⟨s, hs, o, ho, p, hp, t, ht, merged, hm, hyes⟩ :
      ∃ s ∈ Runs.run sampleFleetStep (Fleet.new Unit) invalidSave,
      ∃ o ∈ (objectOf sampleExternals sampleKey [0x61, 0xFF] (lit "ni")).toOption,
      ∃ p ∈ (s.replicas ()).db.phrases.find? o,
      ∃ t ∈ Runs.run (Runs.restrict (DeletionScope sampleExternals o) sampleFleetStep) s
        invalidDelete,
      ∃ merged ∈ (mergeStates (t.states [()] o)).toOption, merged.presence.present = true := by
    decide +kernel
  exact ⟨s, o, p, t, merged, hs, fun _ => hp, ht, toOption_eq_some ho, toOption_eq_some hm, hyes⟩

def savedPayload : PhrasePayload :=
  samplePayload "a" "manual" ⟨1, 0, hexEncode (sampleDevice false)⟩

def sharedSave : List (FleetAction Bool) :=
  [sampleOpen false false, sampleOpen true true,
    .mutate false 0 (.save (samplePhrase "a")) sampleReading, .send false 0 1,
    .merge true 0 savedPayload sampleReading]

/-- One deletes it while the other one selects it and saves it again, later. -/
def concurrentUse : List (FleetAction Bool) :=
  [.mutate false 0 (.delete (lit "a") (lit "ni")) ⟨2, 2⟩,
    .mutate true 0 (.select (samplePhrase "a") ⟨false, false, false⟩) ⟨5, 5⟩,
    .mutate true 0 (.save { samplePhrase "a" with pinned := false }) ⟨6, 6⟩]

theorem deletion_wins_sample : ∃ s o p t merged,
    Runs.run (Runs.restrict (Filing sampleExternals) sampleFleetStep) (Fleet.new Bool)
      sharedSave = some s ∧
    (∀ k, (s.replicas k).db.phrases.find? o = some p) ∧
    Runs.run (Runs.restrict (KeepsDeletion sampleExternals o) sampleFleetStep) s concurrentUse =
      some t ∧
    mergeStates (t.states [false, true] o) = .ok merged ∧ merged.presence.present = false := by
  obtain ⟨s, hs, o, ho, p, hp, hp', t, ht, -⟩ : ∃ s ∈ Runs.run (Runs.restrict
      (Filing sampleExternals) sampleFleetStep) (Fleet.new Bool) sharedSave,
      ∃ o ∈ (objectOf sampleExternals sampleKey (lit "a") (lit "ni")).toOption,
      ∃ p ∈ (s.replicas false).db.phrases.find? o, (s.replicas true).db.phrases.find? o = some p ∧
      ∃ t ∈ Runs.run (Runs.restrict (KeepsDeletion sampleExternals o) sampleFleetStep) s
        concurrentUse, True := by
    decide +kernel
  have hall : ∀ k, (s.replicas k).db.phrases.find? o = some p := by
    intro k
    cases k with
    | false => exact hp
    | true => exact hp'
  obtain ⟨merged, hm, hno⟩ := (deletion_wins sampleExternals sampleKey sampleKey).merged
    sharedSave s hs o p hall concurrentUse t ht false 0 (lit "a") (lit "ni") ⟨2, 2⟩ mem_cons_self
    (toOption_eq_some ho) [false, true] (by decide)
  exact ⟨s, o, p, t, merged, hs, hall, ht, hm, hno⟩

end YunPin
