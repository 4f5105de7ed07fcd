import YunPin.PayloadLattice
import YunPin.PoisonUpload

/-! Delivery. Two new stores that are given the same payloads, in any order and any number
of times, show the same phrases. Every record is the least upper bound of what was
delivered for its object, so nothing else can matter. -/
namespace YunPin
open ByteText List Option

abbrev Delivery := PhrasePayload × Reading

def deliver (x : Externals) (store : Store) (db : LocalDB) (d : Delivery) : Option LocalDB :=
  match mergeRemotePayload x store d.2 d.1 db with
  | (.ok (), db') => some db'
  | (.error _, _) => none

/-- No two texts and readings of the payloads collide under the truncated HMAC. -/
def CollisionFree (x : Externals) (idKey : Bytes) (P : List PhrasePayload) : Prop :=
  ∀ p ∈ P, ∀ q ∈ P, opaqueObjectID x.crypto x.unicode idKey p.text p.pinyin =
      opaqueObjectID x.crypto x.unicode idKey q.text q.pinyin →
    canonicalPhrase x.unicode p.text = canonicalPhrase x.unicode q.text ∧
      canonicalPinyin x.unicode p.pinyin = canonicalPinyin x.unicode q.pinyin

structure Deliverable (x : Externals) (idKey : Bytes) (P : List PhrasePayload) : Prop where
  valid : ∀ p ∈ P, p.validText = true
  objects : ∀ p ∈ P, ∃ id, validatePayloadObject x p idKey = .ok id
  free : CollisionFree x idKey P

def viewsOf (done : List PhrasePayload) (o : ObjectID) : Set PayloadView :=
  {v | ∃ q ∈ done, q.state.objectID = hexEncode o.val ∧ q.view = v}

structure Delivered (x : Externals) (store : Store) (P done : List PhrasePayload) (db : LocalDB) :
    Prop where
  fit : StoreFit x store db
  found : ∀ o, (∃ p, db.phrases.find? o = some p) ↔ ∃ q ∈ done, q.state.objectID = hexEncode o.val
  lub : ∀ o p, db.phrases.find? o = some p → IsLUB (viewsOf done o) p.payload.view
  canonical : ∀ o p, db.phrases.find? o = some p → ∀ q ∈ P,
    q.state.objectID = hexEncode o.val → SameCanonical x.unicode p q

variable {x : Externals} {P : List PhrasePayload} {store : Store} {db : LocalDB}
  {done : List PhrasePayload}

theorem Deliverable.sameCanonical {idKey : Bytes} (h : Deliverable x idKey P) {p q : PhrasePayload}
    (hp : p ∈ P) (hq : q ∈ P) (hobj : p.state.objectID = q.state.objectID) :
    canonicalPhrase x.unicode p.text = canonicalPhrase x.unicode q.text ∧
      canonicalPinyin x.unicode p.pinyin = canonicalPinyin x.unicode q.pinyin := by
  have hopaque (r : PhrasePayload) (hr : r ∈ P) : ∃ id : ObjectID,
      opaqueObjectID x.crypto x.unicode idKey r.text r.pinyin = .ok id ∧
        r.state.objectID = hexEncode id.val := by
    obtain ⟨id, hid⟩ := h.objects r hr
    obtain ⟨hstore, hgood⟩ :=
      (validatePayloadObject_ok_iff x ⟨idKey, [], false⟩ r id).mp hid
    refine ⟨id, ?_, hgood.objectID⟩
    unfold Store.objectID at hstore
    split_ifs at hstore
    exact hstore
  obtain ⟨a, ha, hpa⟩ := hopaque p hp
  obtain ⟨b, hb, hqb⟩ := hopaque q hq
  have hab : a = b := ObjectID.hex_injective (by rw [← hpa, ← hqb, hobj])
  exact h.free p hp q hq (by rw [ha, hb, hab])

theorem Delivered.step (hP : Deliverable x store.idKey P) (h : Delivered x store P done db)
    {d : Delivery} (hd : d.1 ∈ P) :
    ∃ db', deliver x store db d = some db' ∧ Delivered x store P (done ++ [d.1]) db' := by
  obtain ⟨payload, now⟩ := d
  obtain ⟨id, hid⟩ := hP.objects payload hd
  obtain ⟨hobj, hgood⟩ := (validatePayloadObject_ok_iff x store payload id).mp hid
  let m : Merge := ⟨payload, id, db.phrases.find? id, db.phrases.find? id⟩
  have hload : mergeLoad x store payload db = .ok m := by simp only [mergeLoad, hid, m]
  have hcanonical : ∀ old, m.existing = some old → old.Good x store m.id ∧
      SameCanonical x.unicode old m.payload := by
    intro old hold
    exact ⟨h.fit.records id old hold, h.canonical id old hold payload hd hgood.objectID⟩
  obtain ⟨record, hrec⟩ := merge_record_some hobj hgood hcanonical
  have hrecord : record.Good x store id := merge_record_good hgood
    (hP.valid payload hd) (fun old hold => (hcanonical old hold).1) hrec
  obtain ⟨hnew, hjoin⟩ := merge_record_view hgood hrec
  have hrun := h.fit.migrated.mergeRemotePayload_eq now hload hrec
  rw [hrecord.json] at hrun
  have hrows := observeHLC_sameRows (latestClock record) db
  refine ⟨(observeHLC (latestClock record) db).write id record false, ?_, ?_⟩
  · simp only [deliver, hrun, m]
  have hfind (o : ObjectID) : ((observeHLC (latestClock record) db).write id record
      false).phrases.find? o = if o = id then some record else db.phrases.find? o := by
    rw [write_phrases, hrows.phrases, SortedMap.find?_insert]
    split_ifs <;> rfl
  -- For another object nothing is delivered, for this one the payload is.
  have hother (o : ObjectID) (ho : o ≠ id) : viewsOf (done ++ [payload]) o = viewsOf done o := by
    have hne : payload.state.objectID ≠ hexEncode o.val := by
      intro he
      exact ho (ObjectID.hex_injective (he.symm.trans hgood.objectID))
    ext v
    simp [viewsOf, hne]
  have hown : viewsOf (done ++ [payload]) id = insert payload.view (viewsOf done id) := by
    ext v
    constructor
    · rintro ⟨q, hq, hqo, rfl⟩
      rcases mem_append.mp hq with hq | hq
      · exact .inr ⟨q, hq, hqo, rfl⟩
      · rw [mem_singleton.mp hq]
        exact .inl rfl
    · rintro (rfl | ⟨q, hq, hqo, rfl⟩)
      · exact ⟨payload, by simp, hgood.objectID, rfl⟩
      · exact ⟨q, mem_append_left _ hq, hqo, rfl⟩
  refine ⟨(h.fit.sameRows hrows).write false hrecord, ?_, ?_, ?_⟩
  · intro o
    rw [hfind]
    split_ifs with ho
    · exact iff_of_true ⟨record, rfl⟩ ⟨payload, by simp, by rw [ho]; exact hgood.objectID⟩
    · rw [h.found o]
      constructor
      · rintro ⟨q, hq, hqo⟩
        exact ⟨q, mem_append_left _ hq, hqo⟩
      · rintro ⟨q, hq, hqo⟩
        rcases mem_append.mp hq with hq | hq
        · exact ⟨q, hq, hqo⟩
        · rw [mem_singleton.mp hq, hgood.objectID] at hqo
          exact absurd (ObjectID.hex_injective hqo).symm ho
  · intro o p hp
    rw [hfind] at hp
    split_ifs at hp with ho
    · cases hp
      rw [ho, hown]
      cases hold : db.phrases.find? id with
      | none =>
        -- Nothing of the object was delivered before, or it would have a record.
        have hempty : viewsOf done id = ∅ := by
          apply Set.eq_empty_of_forall_notMem
          rintro v ⟨q, hq, hqo, _⟩
          obtain ⟨p, hp⟩ := (h.found id).mpr ⟨q, hq, hqo⟩
          rw [hold] at hp
          simp at hp
        rw [hempty, hnew hold, insert_empty_eq]
        exact isLUB_singleton
      | some old =>
        rw [hjoin old hold, sup_comm]
        exact (h.lub id old hold).insert payload.view
    · rw [hother o ho]
      exact h.lub o p hp
  · intro o p hp q hq hqo
    rw [hfind] at hp
    split_ifs at hp with ho
    · cases hp
      have hsame := hP.sameCanonical hd hq (by rw [hgood.objectID, hqo, ho])
      obtain ⟨merged, hmerged, hm, _⟩ := merge_record_ok hgood hrec
      rw [hm]
      unfold Merge.merged at hmerged
      split at hmerged
      · rename_i old hold
        -- Text and reading come from either side.
        obtain ⟨_, htext, hpinyin, _, _⟩ := mergePhrasePayload_ok hmerged
        have holdq := h.canonical id old hold q hq (by rw [hqo, ho])
        refine ⟨?_, ?_⟩
        · change canonicalPhrase x.unicode merged.text = _
          rw [htext]
          exact chooseStableString_ind (canonicalPhrase x.unicode · = _) holdq.1 hsame.1
        · change canonicalPinyin x.unicode merged.pinyin = _
          rw [hpinyin]
          exact chooseStableString_ind (canonicalPinyin x.unicode · = _) holdq.2 hsame.2
      · rw [← Except.ok.inj hmerged]
        exact hsame
    · exact h.canonical o p hp q hq hqo

theorem Delivered.run (hP : Deliverable x store.idKey P) {l : List Delivery} (hl : ∀ d ∈ l, d.1 ∈ P)
    (done : List PhrasePayload) (db : LocalDB) (h : Delivered x store P done db) :
    ∃ db', Runs.run (deliver x store) db l = some db' ∧
      Delivered x store P (done ++ l.map Prod.fst) db' := by
  induction l generalizing done db with
  | nil => exact ⟨db, rfl, by simpa using h⟩
  | cons d rest ih =>
    obtain ⟨db₁, hstep, h₁⟩ := h.step hP (hl d mem_cons_self)
    obtain ⟨db', hrun, h'⟩ := ih (forall_mem_cons.mp hl).2 _ db₁ h₁
    refine ⟨db', by simp only [Runs.run, hstep, hrun], ?_⟩
    simpa using h'

structure LocalDB.IsNew (db : LocalDB) : Prop where
  phrases : db.phrases = ∅
  outbox : db.outbox = []

theorem LocalDB.IsNew.delivered (h : db.IsNew) (x : Externals) (store : Store)
    (P : List PhrasePayload) : Delivered x store P [] db := by
  have hfind (o : ObjectID) : db.phrases.find? o = none := by
    rw [h.phrases]
    rfl
  refine ⟨⟨?_, ?_⟩, ?_, ?_, ?_⟩
  · simp [hfind]
  · simp [h.outbox]
  · simp [hfind]
  · simp [hfind]
  · simp [hfind]

/-- Both databases have a record of exactly the objects of the payloads. It is the same phrase,
the least upper bound of what was delivered for it, and its use count does not depend on the order
of its counters. -/
structure SameContent (P : List PhrasePayload) (db db' : LocalDB) : Prop where
  delivered : ∀ o, (∃ q ∈ P, q.state.objectID = hexEncode o.val) →
    ∃ p p', db.phrases.find? o = some p ∧ db'.phrases.find? o = some p' ∧ SamePhrase p p' ∧
      IsLUB (viewsOf P o) p.payload.view
  others : ∀ o, (¬∃ q ∈ P, q.state.objectID = hexEncode o.val) →
    db.phrases.find? o = none ∧ db'.phrases.find? o = none
  useCounts : ∀ o p, db.phrases.find? o = some p ∨ db'.phrases.find? o = some p →
    ∀ l, l.Perm (p.crdt.counts.getD ∅).entries → addCounts 0 l = p.useCount

theorem Delivered.useCount (h : Delivered x store P done db) {o : ObjectID} {p : Phrase}
    (hp : db.phrases.find? o = some p) (l : List (Bytes × UInt64))
    (hl : l.Perm (p.crdt.counts.getD ∅).entries) : addCounts 0 l = p.useCount := by
  rw [addCounts_perm 0 hl, ((materialized_iff p).mp (h.fit.records o p hp).materialized).1]
  rfl

/-- What was delivered counts as a set. -/
theorem Delivered.same (h : Delivered x store P done db) (hdone : ∀ p, p ∈ done ↔ p ∈ P) :
    Delivered x store P P db := by
  have hviews (o : ObjectID) : viewsOf P o = viewsOf done o := by
    ext v
    simp only [viewsOf, hdone]
  refine ⟨h.fit, ?_, ?_, h.canonical⟩
  · simpa only [hdone] using h.found
  · intro o p hp
    rw [hviews]
    exact h.lub o p hp

theorem Delivered.none (h : Delivered x store P P db) {o : ObjectID}
    (hno : ¬∃ q ∈ P, q.state.objectID = hexEncode o.val) : db.phrases.find? o = none := by
  by_contra hsome
  exact hno ((h.found o).mp (ne_none_iff_exists'.mp hsome))

/-- Two sequences of deliveries over the same payloads, each with every payload at least
once, succeed on new stores and leave the same phrases. -/
theorem delivery_order_irrelevant (x : Externals) (idKey : Bytes) (P : List PhrasePayload)
    (hP : Deliverable x idKey P) (store store' : Store) (hkey : store.idKey = idKey)
    (hkey' : store'.idKey = idKey) (db₀ db₀' : LocalDB) (hnew : db₀.IsNew) (hnew' : db₀'.IsNew)
    (l l' : List Delivery) (hl : ∀ p, p ∈ l.map Prod.fst ↔ p ∈ P)
    (hl' : ∀ p, p ∈ l'.map Prod.fst ↔ p ∈ P) :
    ∃ db db', Runs.run (deliver x store) db₀ l = some db ∧
      Runs.run (deliver x store') db₀' l' = some db' ∧ SameContent P db db' := by
  obtain ⟨db, hrun, h⟩ := Delivered.run (hkey.symm ▸ hP)
    (fun d hd => (hl d.1).mp (mem_map_of_mem hd)) [] db₀ (hnew.delivered x store P)
  obtain ⟨db', hrun', h'⟩ := Delivered.run (hkey'.symm ▸ hP)
    (fun d hd => (hl' d.1).mp (mem_map_of_mem hd)) [] db₀' (hnew'.delivered x store' P)
  replace h := h.same hl
  replace h' := h'.same hl'
  refine ⟨db, db', hrun, hrun', ?_, fun o hno => ⟨h.none hno, h'.none hno⟩, ?_⟩
  · intro o hany
    -- Both records are the least upper bound of the same payloads.
    obtain ⟨p, hp⟩ := (h.found o).mpr hany
    obtain ⟨p', hp'⟩ := (h'.found o).mpr hany
    exact ⟨p, p', hp, hp', samePhrase_of_view (h.fit.records o p hp).materialized
      (h'.fit.records o p' hp').materialized ((h.lub o p hp).unique (h'.lub o p' hp')),
      h.lub o p hp⟩
  · rintro o p (hp | hp)
    · exact h.useCount hp
    · exact h'.useCount hp

def samplePayloads : List PhrasePayload :=
  [samplePayload "a" "manual" ⟨1, 0, hexEncode (sampleDevice false)⟩,
    samplePayload "a" "learned" ⟨1, 0, hexEncode (sampleDevice true)⟩,
    samplePayload "b" "" ⟨2, 0, hexEncode (sampleDevice true)⟩]

theorem samplePayloads_deliverable : Deliverable sampleExternals sampleKey samplePayloads where
  valid := by decide +kernel
  objects := by
    have h : ∀ p ∈ samplePayloads,
        (validatePayloadObject sampleExternals p sampleKey).toOption.isSome = true := by
      decide +kernel
    intro p hp
    obtain ⟨id, hid⟩ := isSome_iff_exists.mp (h p hp)
    exact ⟨id, toOption_eq_some hid⟩
  free := by
    unfold CollisionFree
    decide +kernel

def sampleDeliveries : List Delivery := samplePayloads.map (fun p => (p, sampleReading))

/-- In reverse, with each payload twice. -/
def reversedDeliveries : List Delivery :=
  (samplePayloads.reverse ++ samplePayloads.reverse).map (fun p => (p, ⟨9, 9⟩))

theorem delivery_order_irrelevant_sample : ∃ db db',
    Runs.run (deliver sampleExternals (sampleConfig false).store) .empty sampleDeliveries =
      some db ∧
    Runs.run (deliver sampleExternals (sampleConfig true).store) .empty reversedDeliveries =
      some db' ∧ SameContent samplePayloads db db' ∧
    db.phrases.entries.map (fun e => (e.2.text, e.2.source)) =
      [(lit "a", lit "learned"), (lit "b", [])] := by
  obtain ⟨db, db', hrun, hrun', hsame⟩ := delivery_order_irrelevant sampleExternals sampleKey
    samplePayloads samplePayloads_deliverable (sampleConfig false).store (sampleConfig true).store
    rfl rfl .empty .empty ⟨rfl, rfl⟩ ⟨rfl, rfl⟩ sampleDeliveries reversedDeliveries
    (by simp [sampleDeliveries, Function.comp_def]) (by simp [reversedDeliveries, Function.comp_def])
  have hrecords : (Runs.run (deliver sampleExternals (sampleConfig false).store) .empty
      sampleDeliveries).map (fun db => db.phrases.entries.map (fun e => (e.2.text, e.2.source))) =
      some [(lit "a", lit "learned"), (lit "b", [])] := by
    decide +kernel
  rw [hrun] at hrecords
  exact ⟨db, db', hrun, hrun', hsame, some.inj hrecords⟩

end YunPin
