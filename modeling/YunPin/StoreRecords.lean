import YunPin.StoreDatabase

/-! Records that are fit for replication, and what the local operations make of
them. Each operation is a sequence of small changes to the replicated state, and
each change keeps the state fit and moves it up in the order of `MergePhrase`. -/
namespace YunPin
open ByteText List Option

theorem validUTF8_of_syncDeviceID (d : Bytes) (h : validSyncDeviceID d = true) :
    validUTF8 d = true := validUTF8_of_decodeLowerHex 16 d h

theorem syncDeviceID_ne_nil (d : Bytes) (h : validSyncDeviceID d = true) : d ≠ [] := by
  rintro rfl
  simp [validSyncDeviceID, decodeLowerHex] at h

theorem toNat_succ_of_ne_max {n : UInt64} (h : n ≠ maxUint64) : (n+1).toNat = n.toNat+1 := by
  have hne : n.toNat ≠ maxUint64.toNat := fun he => h (UInt64.toNat_inj.mp he)
  have hbound := n.toNat_lt
  have hm : maxUint64.toNat = 2^64-1 := by decide
  rw [UInt64.toNat_add, UInt64.toNat_one]
  omega

/-- The names that may stand for a device in a record: all sync devices, and possibly
more. -/
structure DeviceSet where
  mem : Bytes → Prop
  sync : ∀ d, validSyncDeviceID d = true → mem d
  validUTF8 : ∀ d, mem d → validUTF8 d = true
  ne_nil : ∀ d, mem d → d ≠ []

def syncDevices : DeviceSet where
  mem d := validSyncDeviceID d = true
  sync _ h := h
  validUTF8 := validUTF8_of_syncDeviceID
  ne_nil := syncDeviceID_ne_nil

/-- A state of the object whose nodes and counters belong to the devices. -/
structure PhraseState.Sound (D : DeviceSet) (id : ObjectID) (s : PhraseState) : Prop where
  objectID : s.objectID = hexEncode id.val
  counts : ∃ c, s.counts = some c ∧ ∀ e ∈ c.entries, D.mem e.1
  generation : s.presence.generation ≠ 0
  pinned : D.mem s.pinned.clock.node
  presence : D.mem s.presence.clock.node

abbrev PhraseState.Good (id : ObjectID) (s : PhraseState) : Prop := s.Sound syncDevices id

variable {D : DeviceSet} (p : Phrase) {store : Store} {id : ObjectID} {clock : HLC}
  {s : PhraseState}

theorem PhraseState.Sound.of_sync (h : s.Good id) : s.Sound D id := by
  obtain ⟨c, hc, hkeys⟩ := h.counts
  exact ⟨h.objectID, ⟨c, hc, fun e he => D.sync _ (hkeys e he)⟩, h.generation,
    D.sync _ h.pinned, D.sync _ h.presence⟩

/-- A record as the store keeps it: it is found under its own text and reading, its
state is fit, and its plain fields are the ones the state gives. -/
structure Phrase.Sound (x : Externals) (D : DeviceSet) (store : Store) (id : ObjectID)
    (p : Phrase) : Prop where
  identity : store.objectID x p.text p.pinyin = .ok id
  state : p.crdt.Sound D id
  materialized : materializePhrase p = p
  text : validUTF8 p.text = true
  pinyin : validUTF8 p.pinyin = true
  source : validUTF8 p.source = true

abbrev Phrase.Good (x : Externals) (store : Store) (id : ObjectID) (p : Phrase) : Prop :=
  p.Sound x syncDevices store id

variable {x : Externals} {p' : Phrase}

theorem Phrase.Sound.of_sync {p : Phrase} (h : p.Good x store id) : p.Sound x D store id :=
  { h with state := .of_sync h.state }

theorem objectID_hex_ne_nil (id : ObjectID) : hexEncode id.val ≠ [] := by
  intro h
  have hlen := hexEncode_length id.val
  rw [h, id.property] at hlen
  simp at hlen

theorem PhraseState.Sound.objectID_ne_nil (h : s.Sound D id) : s.objectID ≠ [] := by
  rw [h.objectID]
  exact objectID_hex_ne_nil id

theorem PhraseState.Sound.dominated_iff {t : PhraseState} (hs : s.Sound D id) (ht : t.Sound D id) :
    Dominated s t ↔ s.view ≤ t.view := by
  rw [YunPin.dominated_iff]
  exact ⟨fun h => h.2.2, fun h => ⟨hs.objectID_ne_nil, hs.objectID.trans ht.objectID.symm, h⟩⟩

theorem materialized_iff : materializePhrase p = p ↔
    p.useCount = totalCounts (p.crdt.counts.getD ∅) ∧ p.pinned = p.crdt.pinned.value ∧
      p.deleted = !p.crdt.presence.present := by
  cases p
  simp only [materializePhrase, Phrase.mk.injEq, true_and, and_true]
  exact ⟨fun h => ⟨h.1.symm, h.2.1.symm, h.2.2.symm⟩, fun h => ⟨h.1.symm, h.2.1.symm, h.2.2.symm⟩⟩

theorem jsonCounts_valid {c : Counts} (h : ∀ e ∈ c.entries, D.mem e.1) : jsonCounts c = c := by
  have hmap : c.entries.map (fun e => (toValidUTF8 e.1, e.2)) = c.entries :=
    map_fixed (fun e he => by rw [toValidUTF8_of_valid _ (D.validUTF8 e.1 (h e he))])
  rw [jsonCounts, hmap, SortedMap.ofList_entries]

theorem PhraseState.Sound.json (h : s.Sound D id) : jsonState s = s := by
  obtain ⟨c, hc, hkeys⟩ := h.counts
  have hclock (clock : HLC) (hn : D.mem clock.node) : jsonClock clock = clock := by
    rw [jsonClock, toValidUTF8_of_valid _ (D.validUTF8 _ hn)]
  have hid : toValidUTF8 s.objectID = s.objectID := by
    rw [h.objectID, toValidUTF8_of_valid _ (validUTF8_hexEncode _)]
  rw [jsonState, hid, hclock _ h.pinned, hclock _ h.presence, hc, map_some,
    jsonCounts_valid hkeys, ← hc]

theorem Phrase.Sound.json {p : Phrase} (h : p.Sound x D store id) : jsonPhrase p = p := by
  rw [jsonPhrase, toValidUTF8_of_valid _ h.text, toValidUTF8_of_valid _ h.pinyin,
    toValidUTF8_of_valid _ h.source, h.state.json]

/-- A record with a fit state is stored as a fit record, as long as the repair of
its text does not move it to another object. -/
theorem jsonPhrase_good {p : Phrase} (hs : p.crdt.Sound D id) (hm : materializePhrase p = p)
    (hid : store.objectID x (toValidUTF8 p.text) (toValidUTF8 p.pinyin) = .ok id) :
    (jsonPhrase p).Sound x D store id where
  identity := hid
  state := by
    change (jsonState p.crdt).Sound D id
    rw [hs.json]
    exact hs
  materialized := by
    have hcrdt : (jsonPhrase p).crdt = p.crdt := hs.json
    rw [materialized_iff] at hm ⊢
    rw [hcrdt]
    exact hm
  text := validUTF8_toValidUTF8 _
  pinyin := validUTF8_toValidUTF8 _
  source := validUTF8_toValidUTF8 _

theorem validatePayloadObject_ok_iff (x : Externals) (store : Store) (payload : PhrasePayload)
    (id : ObjectID) : validatePayloadObject x payload store.idKey = .ok id ↔
      store.objectID x payload.text payload.pinyin = .ok id ∧ payload.state.Good id := by
  unfold validatePayloadObject Store.objectID
  by_cases hb : isBlank payload.text = true ∨ isBlank payload.pinyin = true
  · simp only [if_pos hb, reduceCtorEq, false_and]
  simp only [if_neg hb]
  cases ho : opaqueObjectID x.crypto x.unicode store.idKey payload.text payload.pinyin with
  | error e => simp
  | ok objectID =>
    simp only [Except.ok.injEq]
    constructor
    · intro h
      split at h
      · simp at h
      rename_i hmeta
      split at h
      · simp at h
      rename_i counts hcounts
      split_ifs at h with hkeys hnodes
      cases h
      push Not at hmeta hnodes
      refine ⟨rfl, hmeta.1, ⟨counts, hcounts, all_eq_true.mp hkeys⟩, hmeta.2, ?_, ?_⟩
      · change validSyncDeviceID payload.state.pinned.clock.node = true
        simpa using hnodes.1
      · change validSyncDeviceID payload.state.presence.clock.node = true
        simpa using hnodes.2
    · rintro ⟨rfl, hs⟩
      obtain ⟨counts, hcounts, hkeys⟩ := hs.counts
      have hall : counts.entries.all (fun e => validSyncDeviceID e.1) = true :=
        all_eq_true.mpr hkeys
      have hpinned : validSyncDeviceID payload.state.pinned.clock.node = true := hs.pinned
      have hpresence : validSyncDeviceID payload.state.presence.clock.node = true := hs.presence
      simp [hs.objectID, hs.generation, hcounts, hall, hpinned, hpresence]

/-! Migration of a record: nothing to do for a fit one, a state of its own for one
without. -/

theorem ensurePhraseState_good (deviceID : Bytes) (clock : HLC) (hs : p.crdt.Sound D id)
    (hm : materializePhrase p = p) :
    ensurePhraseState p id deviceID clock = .ok p := by
  obtain ⟨c, hc, _⟩ := hs.counts
  have hzero (k : HLC) (hn : D.mem k.node) : isZeroClock k = false := by
    simp [isZeroClock, D.ne_nil _ hn]
  have hadopt : adoptState p (hexEncode id.val) clock = .ok p := by
    simp [adoptState, hs.objectID, objectID_hex_ne_nil]
  have hcounts : migrateCounts p deviceID = p := by
    have huse := ((materialized_iff p).mp hm).1
    have hno : ¬totalCounts c < p.useCount := by simp [huse, hc]
    have hsame : migrateCounts p deviceID =
        { p with crdt := { p.crdt with counts := some c } } := by
      simp only [migrateCounts, hc, getD_some, if_neg hno]
    rw [hsame, ← hc]
  have hgen : migrateGeneration p = p := by simp [migrateGeneration, hs.generation]
  have hstamp : stampClocks p clock = p := by
    simp [stampClocks, hzero _ hs.pinned, hzero _ hs.presence]
  simp only [ensurePhraseState, hadopt, hcounts, hgen, hstamp, hm]

/-- The state of a record that had none: pin and presence as its plain fields say,
all at the event's clock. -/
def freshState (p : Phrase) (id : ObjectID) (deviceID : Bytes) (clock : HLC) : PhraseState where
  objectID := hexEncode id.val
  counts := some (if 0 < p.useCount then (∅ : Counts).insert deviceID p.useCount else ∅)
  pinned := ⟨p.pinned, clock⟩
  presence := ⟨!p.deleted, clock, 1⟩

theorem ensurePhraseState_fresh (id : ObjectID) (deviceID : Bytes) (hp : p.crdt.objectID = [])
    (hn : clock.node ≠ []) :
    ensurePhraseState p id deviceID clock =
      .ok (materializePhrase { p with crdt := freshState p id deviceID clock }) := by
  have hzero : isZeroClock clock = false := by simp [isZeroClock, hn]
  have htotal : totalCounts ∅ = 0 := rfl
  simp [ensurePhraseState, adoptState, hp, migrateCounts, migrateGeneration, stampClocks, hzero,
    htotal, freshState]

structure PhraseState.UpTo (clock : HLC) (s : PhraseState) : Prop where
  pinned : s.pinned.clock ≤ clock
  presence : s.presence.clock ≤ clock

/-- A change at `clock` of a state that is not ahead of it: still not ahead, and a
step up. -/
def PhraseState.Rises (clock : HLC) (s t : PhraseState) : Prop :=
  s.UpTo clock → t.UpTo clock ∧ s.view ≤ t.view

theorem PhraseState.Rises.refl (clock : HLC) (s : PhraseState) : s.Rises clock s :=
  fun h => ⟨h, le_rfl⟩

theorem PhraseState.Rises.trans {t u : PhraseState} (h : s.Rises clock t) (h' : t.Rises clock u) :
    s.Rises clock u := by
  intro hs
  obtain ⟨ht, hle⟩ := h hs
  obtain ⟨hu, hle'⟩ := h' ht
  exact ⟨hu, hle.trans hle'⟩

variable {deviceID : Bytes}

theorem freshState_good (hd : D.mem deviceID) (hn : D.mem clock.node) :
    (freshState p id deviceID clock).Sound D id where
  objectID := rfl
  counts := by
    refine ⟨_, rfl, ?_⟩
    split_ifs
    · intro e he
      have hk := (SortedMap.mem_keys_insertEntry deviceID e.1 p.useCount []).mp
        (mem_map_of_mem he)
      simp only [map_nil, not_mem_nil, or_false] at hk
      rw [hk]
      exact hd
    · intro e he
      exact absurd he not_mem_nil
  generation := by simp [freshState]
  pinned := hn
  presence := hn

theorem view_le_iff (s t : PhraseState) : s.view ≤ t.view ↔
    (∀ d, s.count d ≤ t.count d) ∧ s.pinned.view ≤ t.pinned.view ∧
      s.presence.view ≤ t.presence.view := by
  simp only [PhraseState.view, Prod.mk_le_mk, Pi.le_def, UInt64.le_iff_toNat_le]

theorem LWWBool.view_le_of_lt {a b : LWWBool} (h : a.clock < b.clock) : a.view ≤ b.view :=
  Prod.Lex.toLex_le_toLex.mpr (.inl h)

theorem setCount_ok (h : s.Sound D id) (clock : HLC) {n : UInt64} (hd : D.mem deviceID)
    (hn : s.count deviceID ≤ n) :
    PhraseState.Sound D id { s with counts := some ((s.counts.getD ∅).insert deviceID n) } ∧
      s.Rises clock { s with counts := some ((s.counts.getD ∅).insert deviceID n) } := by
  obtain ⟨c, hc, hkeys⟩ := h.counts
  refine ⟨{ h with counts := ⟨_, rfl, ?_⟩ }, fun hs => ⟨⟨hs.pinned, hs.presence⟩, ?_⟩⟩
  · intro e he
    have hmem := mem_map_of_mem (f := Prod.fst) he
    rcases (SortedMap.mem_keys_insertEntry deviceID e.1 n _).mp hmem with hk | hk
    · rw [hk]
      exact hd
    · obtain ⟨e', he', hee⟩ := mem_map.mp hk
      rw [hc, getD_some] at he'
      rw [← hee]
      exact hkeys e' he'
  · refine (view_le_iff _ _).mpr ⟨?_, le_rfl, le_rfl⟩
    intro d
    simp only [PhraseState.count, getD_some, SortedMap.find?_insert]
    split_ifs with hdd
    · subst hdd
      exact hn
    · exact UInt64.le_refl _

theorem setPin_ok (h : s.Sound D id) (value : Bool) (hn : D.mem clock.node) :
    PhraseState.Sound D id { s with pinned := ⟨value, clock⟩ } ∧
      (s.pinned.clock < clock → s.Rises clock { s with pinned := ⟨value, clock⟩ }) := by
  refine ⟨{ h with pinned := hn }, fun hlt hs => ⟨⟨le_rfl, hs.presence⟩, ?_⟩⟩
  exact (view_le_iff _ _).mpr ⟨fun d => UInt64.le_refl _, LWWBool.view_le_of_lt hlt, le_rfl⟩

theorem setPresence_ok (h : s.Sound D id) {present : Bool} {generation : UInt64}
    (hn : D.mem clock.node) (hgen : (s.presence.generation < generation) ∨
      (s.presence.generation = generation ∧ present = false)) :
    PhraseState.Sound D id { s with presence := ⟨present, clock, generation⟩ } ∧
      s.Rises clock { s with presence := ⟨present, clock, generation⟩ } := by
  have hne : generation ≠ 0 := by
    rcases hgen with hlt | ⟨heq, _⟩
    · rintro rfl
      exact absurd hlt (by simp)
    · rw [← heq]
      exact h.generation
  refine ⟨{ h with generation := hne, presence := hn }, fun hs => ⟨⟨hs.pinned, le_rfl⟩, ?_⟩⟩
  refine (view_le_iff _ _).mpr
    ⟨fun d => UInt64.le_refl _, le_rfl, (Presence.view_le_iff).mpr ?_⟩
  rcases hgen with hlt | ⟨heq, rfl⟩
  · exact .inl (UInt64.lt_iff_toNat_lt.mp hlt)
  · refine .inr ⟨by rw [heq], ?_⟩
    cases hp : s.presence.present with
    | true =>
      left
      change (!true) < (!false)
      decide
    | false => exact .inr ⟨rfl, hs.presence⟩

def Phrase.content (p : Phrase) : Bytes × Bytes × Bytes × ℤ :=
  (p.text, p.pinyin, p.source, p.lastUsedDay)

theorem readd_ok {p : Phrase} (hp : p.crdt.Sound D id) (hn : D.mem clock.node)
    (h : readd p clock = .ok p') :
    p'.crdt.Sound D id ∧ p.crdt.Rises clock p'.crdt ∧ p'.content = p.content ∧
      p'.crdt.pinned = p.crdt.pinned := by
  unfold readd at h
  split_ifs at h with hpresent hmax
  · cases h
    exact ⟨hp, .refl clock _, rfl, rfl⟩
  · cases h
    have hlt : p.crdt.presence.generation < p.crdt.presence.generation+1 := by
      rw [UInt64.lt_iff_toNat_lt, toNat_succ_of_ne_max hmax]
      exact Nat.lt_succ_self _
    obtain ⟨hgood, hrises⟩ := setPresence_ok hp hn (.inl hlt)
    exact ⟨hgood, hrises, rfl, rfl⟩

theorem setPinned_ok {p : Phrase} (wanted : Bool) (hp : p.crdt.Sound D id) (hn : D.mem clock.node) :
    (setPinned p wanted clock).crdt.Sound D id ∧
      (p.crdt.pinned.value = wanted ∨ p.crdt.pinned.clock < clock →
        p.crdt.Rises clock (setPinned p wanted clock).crdt) ∧
      (setPinned p wanted clock).content = p.content ∧
      (setPinned p wanted clock).crdt.pinned =
        if p.crdt.pinned.value = wanted then p.crdt.pinned else ⟨wanted, clock⟩ := by
  unfold setPinned
  by_cases hv : p.crdt.pinned.value = wanted
  · rw [if_neg (not_not.mpr hv), if_pos hv]
    exact ⟨hp, fun _ => .refl clock _, rfl, rfl⟩
  · rw [if_pos hv, if_neg hv]
    obtain ⟨hgood, hrises⟩ := setPin_ok hp wanted hn
    exact ⟨hgood, fun hlt => hrises (hlt.resolve_left hv), rfl, rfl⟩

theorem raiseTotal_ok (clock : HLC) {p : Phrase} {wanted : UInt64} (hp : p.crdt.Sound D id)
    (hd : D.mem deviceID) (h : raiseTotal p deviceID wanted = .ok p') :
    p'.crdt.Sound D id ∧ p.crdt.Rises clock p'.crdt ∧ p'.content = p.content ∧
      p'.crdt.pinned = p.crdt.pinned := by
  unfold raiseTotal at h
  simp only at h
  split_ifs at h with hmore hmax
  · cases h
    have hle : p.crdt.count deviceID ≤ p.crdt.count deviceID +
        (wanted-totalCounts (p.crdt.counts.getD ∅)) := by
      have hroom := UInt64.not_lt.mp hmax
      have hbound := (p.crdt.count deviceID).toNat_lt
      have hm : maxUint64.toNat = 2^64-1 := by decide
      rw [UInt64.le_iff_toNat_le] at hroom ⊢
      have hsub : (maxUint64-p.crdt.count deviceID).toNat =
          maxUint64.toNat-(p.crdt.count deviceID).toNat := by
        apply UInt64.toNat_sub_of_le
        rw [UInt64.le_iff_toNat_le]
        omega
      change _ ≤ (maxUint64-p.crdt.count deviceID).toNat at hroom
      rw [UInt64.toNat_add]
      omega
    obtain ⟨hgood, hrises⟩ := setCount_ok hp clock hd hle
    exact ⟨hgood, hrises, rfl, rfl⟩
  · cases h
    exact ⟨hp, .refl clock _, rfl, rfl⟩

theorem countSelection_ok {now : Reading} (clock : HLC) {p : Phrase} (hp : p.crdt.Sound D id)
    (hd : D.mem store.deviceID) (h : countSelection store now p = .ok p') :
    p'.crdt.Sound D id ∧ p.crdt.Rises clock p'.crdt ∧
      p'.content = (p.text, p.pinyin, p.source, dayOf now) ∧ materializePhrase p' = p' ∧
      p'.crdt.pinned = p.crdt.pinned := by
  unfold countSelection at h
  simp only at h
  split_ifs at h with hmax
  cases h
  have hle : p.crdt.count store.deviceID ≤ p.crdt.count store.deviceID+1 := by
    rw [UInt64.le_iff_toNat_le, @toNat_succ_of_ne_max (p.crdt.count store.deviceID) hmax]
    exact Nat.le_succ _
  obtain ⟨hgood, hrises⟩ := setCount_ok hp clock hd hle
  exact ⟨hgood, hrises, rfl, rfl, rfl⟩

theorem bury_ok {p : Phrase} (hp : p.crdt.Sound D id) (hn : D.mem clock.node) :
    (bury p clock).crdt.Sound D id ∧ p.crdt.Rises clock (bury p clock).crdt ∧
      (bury p clock).content = p.content ∧ materializePhrase (bury p clock) = bury p clock ∧
      (bury p clock).crdt.pinned = p.crdt.pinned := by
  obtain ⟨hgood, hrises⟩ := setPresence_ok hp hn
    (.inr ⟨rfl, rfl⟩)
  exact ⟨hgood, hrises, rfl, rfl, rfl⟩

def Found (D : DeviceSet) (id : ObjectID) (existing : Option Phrase) : Prop :=
  ∀ old, existing = some old → old.crdt.Sound D id ∧ materializePhrase old = old

/-- The record an operation has found is older than the operation's clock. -/
def FoundEarlier (clock : HLC) (existing : Option Phrase) : Prop :=
  ∀ old, existing = some old →
    old.crdt.pinned.clock < clock ∧ old.crdt.presence.clock < clock

/-- What every local operation writes: a fit record and, unless the stored clock has
wrapped around, one that is above the record it has found. -/
structure OpResult (D : DeviceSet) (id : ObjectID) (clock : HLC) (existing : Option Phrase)
    (record : Phrase) : Prop where
  good : record.crdt.Sound D id
  materialized : materializePhrase record = record
  rises : FoundEarlier clock existing → record.crdt.UpTo clock ∧
    ∀ old, existing = some old → old.crdt.view ≤ record.crdt.view

/-- The pin that an operation finds, or else the one that it gives to a new record. -/
def foundPin (existing : Option Phrase) (value : Bool) (clock : HLC) : LWWBool :=
  (existing.map (·.crdt.pinned)).getD ⟨value, clock⟩

variable {existing : Option Phrase} {record : Phrase}

theorem explicitRecord_ok {phrase : Phrase} (hd : D.mem store.deviceID) (hn : D.mem clock.node)
    (hex : Found D id existing) (h : explicitRecord store phrase id clock existing = .ok record) :
    OpResult D id clock existing record ∧ record.content = (explicitBase existing phrase).content ∧
      record.crdt.pinned = if (foundPin existing phrase.pinned clock).value = phrase.pinned then
        foundPin existing phrase.pinned clock else ⟨phrase.pinned, clock⟩ := by
  unfold explicitRecord at h
  -- The migrated record: the old state, or a new one that has the wanted pin.
  obtain ⟨base, hbase, hgood, hcontent, hpinned, hbefore⟩ : ∃ base,
      ensurePhraseState (explicitBase existing phrase) id store.deviceID clock = .ok base ∧
      base.crdt.Sound D id ∧ base.content = (explicitBase existing phrase).content ∧
      base.crdt.pinned = foundPin existing phrase.pinned clock ∧
      (FoundEarlier clock existing → base.crdt.UpTo clock ∧
        (base.crdt.pinned.value = phrase.pinned ∨ base.crdt.pinned.clock < clock) ∧
        ∀ old, existing = some old → old.crdt = base.crdt) := by
    cases existing with
    | none =>
      refine ⟨_, ensurePhraseState_fresh _ id _ rfl (D.ne_nil _ hn),
        freshState_good _ hd hn, rfl, rfl, fun _ => ⟨⟨le_rfl, le_rfl⟩, .inl rfl, by simp⟩⟩
    | some old =>
      obtain ⟨hgood, hmat⟩ := hex old rfl
      refine ⟨_, ensurePhraseState_good _ _ clock hgood ?_, hgood, rfl, rfl, ?_⟩
      · rw [materialized_iff] at hmat ⊢
        exact hmat
      · intro hlt
        obtain ⟨hpc, hqc⟩ := hlt old rfl
        refine ⟨⟨hpc.le, hqc.le⟩, .inr hpc, ?_⟩
        intro old' he
        rw [← some.inj he]
        rfl
  rw [hbase] at h
  simp only at h
  split at h
  · simp at h
  rename_i present hpresent
  obtain ⟨hgood1, hrise1, hc1, hp1⟩ := readd_ok hgood hn hpresent
  obtain ⟨hgood2, hrise2, hc2, hp2⟩ := setPinned_ok phrase.pinned hgood1 hn
  split at h
  · simp at h
  rename_i raised hraised
  obtain ⟨hgood3, hrise3, hc3, hp3⟩ := raiseTotal_ok clock hgood2 hd hraised
  cases h
  refine ⟨⟨hgood3, rfl, ?_⟩, (hc3.trans hc2).trans (hc1.trans hcontent), ?_⟩
  · intro hlt
    obtain ⟨hup, hpin, hold⟩ := hbefore hlt
    obtain ⟨hup', hle⟩ := (hrise1.trans ((hrise2 (hp1 ▸ hpin)).trans hrise3)) hup
    refine ⟨hup', ?_⟩
    intro old he
    rw [hold old he]
    exact hle
  · change raised.crdt.pinned = _
    rw [hp3, hp2, hp1, hpinned]

theorem ensureFound_ok {base : Phrase} (hd : D.mem deviceID) (hn : D.mem clock.node)
    (hex : Found D id existing) (hbase : base = existing.getD base)
    (hplain : existing = none → base.crdt.objectID = [])
    (h : ensurePhraseState base id deviceID clock = .ok record) :
    OpResult D id clock existing record ∧ record.content = base.content ∧
      record.crdt.pinned = foundPin existing base.pinned clock := by
  cases existing with
  | none =>
    rw [ensurePhraseState_fresh base id deviceID (hplain rfl) (D.ne_nil _ hn)] at h
    cases h
    exact ⟨⟨freshState_good base hd hn, rfl,
        fun _ => ⟨⟨le_rfl, le_rfl⟩, by simp⟩⟩, rfl, rfl⟩
  | some old =>
    obtain ⟨hgood, hmat⟩ := hex old rfl
    rw [getD_some] at hbase
    subst hbase
    rw [ensurePhraseState_good base deviceID clock hgood hmat] at h
    cases h
    refine ⟨⟨hgood, hmat, ?_⟩, rfl, rfl⟩
    intro hlt
    obtain ⟨hpc, hqc⟩ := hlt _ rfl
    refine ⟨⟨hpc.le, hqc.le⟩, ?_⟩
    intro old' he
    rw [← some.inj he]

theorem OpResult.change {record' : Phrase} (h : OpResult D id clock existing record)
    (hgood : record'.crdt.Sound D id) (hmat : materializePhrase record' = record')
    (hrises : record.crdt.Rises clock record'.crdt) : OpResult D id clock existing record' := by
  refine ⟨hgood, hmat, ?_⟩
  intro hlt
  obtain ⟨hup, hgrows⟩ := h.rises hlt
  obtain ⟨hup', hle⟩ := hrises hup
  exact ⟨hup', fun old he => (hgrows old he).trans hle⟩

theorem selectionPlan_ok {now : Reading} {phrase : Phrase} {plan : Plan LearnResult} {w : Write}
    (hd : D.mem store.deviceID) (hn : D.mem clock.node) (hex : Found D id existing)
    (hplain : existing = none → phrase.crdt.objectID = [])
    (h : selectionPlan store now phrase id clock existing = .ok plan) (hw : plan.write = some w) :
    OpResult D id clock existing w.record ∧
      w.record.content =
        ((selectionBase existing phrase).text, (selectionBase existing phrase).pinyin,
        (selectionBase existing phrase).source, dayOf now) ∧
      w.record.crdt.pinned = foundPin existing phrase.pinned clock := by
  unfold selectionPlan at h
  split at h
  · simp at h
  rename_i record hrecord
  obtain ⟨hres, hcontent, hpinned⟩ := ensureFound_ok hd hn hex
    (by cases existing <;> rfl) (by rintro rfl; exact hplain rfl) hrecord
  split_ifs at h with hpresent
  · split at h
    · simp at h
    rename_i counted hcounted
    cases h
    cases hw
    obtain ⟨hgood, hrises, hc, hmat, hpin⟩ := countSelection_ok clock hres.good hd hcounted
    refine ⟨hres.change hgood hmat hrises, ?_, ?_⟩
    · simp only [Phrase.content, Prod.mk.injEq] at hc hcontent ⊢
      exact ⟨hc.1.trans hcontent.1, hc.2.1.trans hcontent.2.1, hc.2.2.1.trans hcontent.2.2.1,
        hc.2.2.2⟩
    · rw [hpin, hpinned]
      cases existing <;> rfl
  · cases h
    simp at hw

theorem deletionPlan_ok {text pinyin : Bytes} {plan : Plan Unit} {w : Write}
    (hd : D.mem store.deviceID) (hn : D.mem clock.node) (hex : Found D id existing)
    (h : deletionPlan store text pinyin id clock existing = .ok plan) (hw : plan.write = some w) :
    OpResult D id clock existing w.record ∧
      w.record.content = (deletionBase existing text pinyin).content ∧ w.enqueue = true ∧
      w.record.crdt.pinned = foundPin existing false clock := by
  unfold deletionPlan at h
  split at h
  · simp at h
  rename_i record hrecord
  obtain ⟨hres, hcontent, hpinned⟩ := ensureFound_ok hd hn hex
    (by cases existing <;> rfl) (by rintro rfl; rfl) hrecord
  cases h
  cases hw
  obtain ⟨hgood, hrises, hc, hmat, hpin⟩ := bury_ok hres.good hn
  refine ⟨hres.change hgood hmat hrises, hc.trans hcontent, rfl, ?_⟩
  rw [hpin, hpinned]
  cases existing <;> rfl

end YunPin
