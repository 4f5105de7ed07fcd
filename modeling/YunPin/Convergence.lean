import YunPin.DownloadOrigin
import YunPin.NoLostUpdate
import YunPin.PayloadLattice
import YunPin.RelayPaging

/-! Convergence of two devices of one account. The relay's envelopes of an object have a
join. A record is above every envelope its device has merged, as long as local operations
only move records up, and it is below the join of all envelopes, as long as every local
write was enqueued and the outbox is empty. So two devices that have read everything have
the same record. -/
namespace YunPin
open ByteText List Option

/-- The operation overwrites no text, reading or source by a larger one, which a merge
would not take, and no day by an earlier one. -/
def Mutation.Ascends (now : Reading) (old : Phrase) : Mutation → Prop
  | .save phrase =>
    chooseStableString old.text (toValidUTF8 phrase.text) = toValidUTF8 phrase.text ∧
    chooseStableString old.pinyin (toValidUTF8 phrase.pinyin) = toValidUTF8 phrase.pinyin ∧
    chooseStableString old.source (toValidUTF8 (explicitSource phrase.source)) =
      toValidUTF8 (explicitSource phrase.source)
  | .select _ _ => old.lastUsedDay ≤ dayOf now
  | .delete _ _ => True

instance (now : Reading) (old : Phrase) (m : Mutation) : Decidable (m.Ascends now old) := by
  unfold Mutation.Ascends
  apply @Mutation.casesOn _ m <;> intros <;> infer_instance

theorem stableKey_le_of_choose {old new : Bytes} (h : chooseStableString old new = new) :
    stableKey new ≤ stableKey old := by
  have hkey := chooseStableString_key old new
  rw [h] at hkey
  exact inf_eq_right.mp hkey.symm

theorem payload_view_le {p q : PhrasePayload} : p.view ≤ q.view ↔
    stableKey q.text ≤ stableKey p.text ∧ stableKey q.pinyin ≤ stableKey p.pinyin ∧
      stableKey q.source ≤ stableKey p.source ∧ p.lastUsedDay ≤ q.lastUsedDay ∧
      p.state.view ≤ q.state.view := by
  simp only [PhrasePayload.view, Prod.mk_le_mk, OrderDual.toDual_le_toDual]

variable {x : Externals} {cfg : HostConfig} {relay : RelayDB}

theorem WriteFacts.payload_le {D : DeviceSet} {store : Store} {now : Reading} {m : Mutation}
    {id : ObjectID} {clock : HLC} {record old : Phrase}
    (h : WriteFacts x D store now m id clock (some old) record) (hold : old.Sound x D store id)
    (hm : m.Ascends now old) (hstate : old.crdt.view ≤ (jsonPhrase record).crdt.view) :
    old.payload.view ≤ (jsonPhrase record).payload.view := by
  have hcontent := h.content
  have hsame (b : Bytes) (hb : validUTF8 b = true) : stableKey (toValidUTF8 b) ≤ stableKey b := by
    rw [toValidUTF8_of_valid b hb]
  rw [payload_view_le]
  change stableKey (toValidUTF8 record.text) ≤ stableKey old.text ∧
    stableKey (toValidUTF8 record.pinyin) ≤ stableKey old.pinyin ∧
    stableKey (toValidUTF8 record.source) ≤ stableKey old.source ∧
    old.lastUsedDay ≤ record.lastUsedDay ∧ _
  simp only [Phrase.content] at hcontent
  cases m with
  | save phrase =>
    obtain ⟨htext, hpinyin, hsource, hday⟩ : _ ∧ _ ∧ _ ∧ _ := by
      simpa only [Mutation.content, explicitBase, Phrase.content, Prod.mk.injEq] using hcontent
    obtain ⟨ht, hp, hs⟩ := hm
    rw [htext, hpinyin, hsource, hday]
    refine ⟨stableKey_le_of_choose ht, stableKey_le_of_choose hp, stableKey_le_of_choose hs, ?_,
      hstate⟩
    split_ifs <;> omega
  | select phrase learning =>
    obtain ⟨htext, hpinyin, hsource, hday⟩ : _ ∧ _ ∧ _ ∧ _ := by
      simpa only [Mutation.content, selectionBase, getD_some, Prod.mk.injEq] using hcontent
    rw [htext, hpinyin, hsource, hday]
    exact ⟨hsame _ hold.text, hsame _ hold.pinyin, hsame _ hold.source, hm, hstate⟩
  | delete text pinyin =>
    obtain ⟨htext, hpinyin, hsource, hday⟩ : _ ∧ _ ∧ _ ∧ _ := by
      simpa only [Mutation.content, deletionBase, getD_some, Phrase.content, Prod.mk.injEq]
        using hcontent
    rw [htext, hpinyin, hsource, hday]
    exact ⟨hsame _ hold.text, hsame _ hold.pinyin, hsame _ hold.source, le_rfl, hstate⟩

def RelayDB.versions (x : Externals) (cfg : HostConfig) (db : RelayDB) (o : ObjectID) :
    Set PayloadView :=
  {v | ∃ p, db.Sent x cfg.session p ∧ cfg.store.objectID x p.text p.pinyin = .ok o ∧ p.view = v}

def LocalDB.queued (db : LocalDB) (o : ObjectID) : Set PayloadView :=
  {v | ∃ r ∈ db.outbox, r.objectID = o ∧ r.phrase.payload.view = v}

def LocalDB.Contains (x : Externals) (store : Store) (db : LocalDB) (p : PhrasePayload) : Prop :=
  ∃ o record, store.objectID x p.text p.pinyin = .ok o ∧ db.phrases.find? o = some record ∧
    p.view ≤ record.payload.view

def EveryWriteEnqueued (history : List Event) (o : ObjectID) : Prop :=
  ∀ record enqueued, Event.wrote o record enqueued ∈ history → enqueued = true

variable {history events : List Event} {db' : LocalDB} {phase' : Phase}

theorem EveryWriteEnqueued.mono {history' : List Event} {o : ObjectID}
    (h : EveryWriteEnqueued history' o) (hsub : history ⊆ history') :
    EveryWriteEnqueued history o :=
  fun record enqueued he => h record enqueued (hsub he)

structure ShareInv (x : Externals) (cfg : HostConfig) (relay : RelayDB) (h : Host Unit) : Prop where
  covered : ∀ o p, h.db.phrases.find? o = some p → EveryWriteEnqueued h.history o →
    p.payload.view ∈ lowerBounds (upperBounds (relay.versions x cfg o ∪ h.db.queued o))
  absorbed : ∀ p, Event.merged p ∈ h.history → h.db.Contains x cfg.store p

variable {h : Host Unit}

theorem ShareInv.host_step (hi : ShareInv x cfg relay h) (i : Unit)
    (hcovered : ∀ o p, db'.phrases.find? o = some p → EveryWriteEnqueued (h.history ++ events) o →
      p.payload.view ∈ lowerBounds (upperBounds (relay.versions x cfg o ∪ db'.queued o)))
    (hrise : ∀ o old, h.db.phrases.find? o = some old →
      ∃ p, db'.phrases.find? o = some p ∧ old.payload.view ≤ p.payload.view)
    (hmerged : ∀ p, Event.merged p ∈ events → db'.Contains x cfg.store p) :
    ShareInv x cfg relay ⟨db', Function.update h.phase i phase', h.history ++ events⟩ := by
  refine ⟨hcovered, ?_⟩
  intro p hp
  rcases mem_append.mp hp with hp | hp
  · obtain ⟨o, record, hid, hfind, hle⟩ := hi.absorbed p hp
    obtain ⟨record', hfind', hle'⟩ := hrise o record hfind
    exact ⟨o, record', hid, hfind', hle.trans hle'⟩
  · exact hmerged p hp

theorem ShareInv.quiet (hi : ShareInv x cfg relay h) (i : Unit)
    (hphrases : db'.phrases = h.db.phrases) (hrows : ∀ r ∈ h.db.outbox, r ∈ db'.outbox ∨
      r.phrase.payload.view ∈ relay.versions x cfg r.objectID)
    (hevents : ∀ p, Event.merged p ∉ events) :
    ShareInv x cfg relay ⟨db', Function.update h.phase i phase', h.history ++ events⟩ := by
  apply hi.host_step i ?_ ?_ (fun p hp => absurd hp (hevents p))
  · intro o p hp he
    rw [hphrases] at hp
    have hsub : relay.versions x cfg o ∪ h.db.queued o ⊆ relay.versions x cfg o ∪ db'.queued o := by
      rintro v (hv | ⟨r, hr, rfl, rfl⟩)
      · exact .inl hv
      · rcases hrows r hr with hr' | hstored
        · exact .inr ⟨r, hr', rfl, rfl⟩
        · exact .inl hstored
    exact lowerBounds_mono_set (upperBounds_mono_set hsub)
      (hi.covered o p hp (he.mono (subset_append_left _ _)))
  · intro o old hold
    exact ⟨old, by rw [hphrases]; exact hold, le_rfl⟩

theorem ShareInv.mutation (hi : ShareInv x cfg relay h) (hh : HostInv x cfg h)
    (hd : validSyncDeviceID cfg.store.deviceID = true) (hmax : h.db.hlcWall < maxInt64)
    {now : Reading} {m : Mutation} (hm : m.KeepsObject x cfg.store) (hplain : m.bringsState = false)
    (hup : ∀ id old, cfg.store.objectID x m.text m.pinyin = .ok id →
      h.db.phrases.find? id = some old → m.Ascends now old) {r : Option Write × LocalDB}
    (hr : MutationMove x cfg.store now m h.db r) (i : Unit) (phase' : Phase) :
    ShareInv x cfg relay ⟨r.2, Function.update h.phase i phase',
      h.history ++ writeEvents x cfg.store r.1⟩ := by
  cases hr with
  | nothing | tick => exact hi.quiet i rfl (fun r hr => .inl hr) (by simp [writeEvents])
  | write id w id' hid hw hid' =>
    obtain ⟨rfl, hfacts, _, hgrows⟩ := hh.store.written hd hmax hm hplain hid hw hid'
    dsimp only
    rw [writeEvents_some hid']
    apply hi.host_step i ?_ ?_ (by simp)
    · intro o p hp he
      rw [write_phrases, SortedMap.find?_insert] at hp
      split_ifs at hp with ho
      · subst ho
        cases hp
        -- The new record is among the queued ones.
        have henq : w.enqueue = true := he _ _ (mem_append_right _ (mem_singleton_self _))
        obtain ⟨row, hrow, hrid, hphrase⟩ := exists_mem_enqueue h.db o (jsonPhrase w.record)
        rw [henq]
        apply subset_lowerBounds_upperBounds
        refine .inr ⟨row, ?_, hrid, by rw [hphrase]⟩
        rw [(write_outbox (nextHLC_sameRows cfg.store now h.db) o _).1]
        exact hrow
      · -- The rows of other objects stay as they are.
        have hsub : h.db.queued o ⊆ ((nextHLC cfg.store now h.db).2.write id' (jsonPhrase w.record)
            w.enqueue).queued o := by
          rintro v ⟨row, hrow, rfl, rfl⟩
          refine ⟨row, ?_, rfl, rfl⟩
          cases w.enqueue with
          | false => exact hrow
          | true =>
            rw [(write_outbox (nextHLC_sameRows cfg.store now h.db) id' _).1]
            obtain ⟨row', hrow', _, _, ⟨_, hrid⟩ | rfl⟩ := enqueue_keeps id'
              (jsonPhrase w.record) hrow
            · exact absurd hrid ho
            · exact hrow'
        exact lowerBounds_mono_set (upperBounds_mono_set (Set.union_subset_union_right _ hsub))
          (hi.covered o p hp (he.mono (subset_append_left _ _)))
    · intro o old hold
      rw [write_phrases, SortedMap.find?_insert]
      split_ifs with ho
      · subst ho
        refine ⟨_, rfl, ?_⟩
        have hgood := hh.store.fit.records o old hold
        rw [hold] at hfacts
        exact hfacts.payload_le hgood (hup o old hid hold) (hgrows old hold)
      · exact ⟨old, hold, le_rfl⟩

theorem ShareInv.merge_write (hi : ShareInv x cfg relay h) (hh : HostInv x cfg h) {m : Merge}
    {record : Phrase} (hm : m.Ready x cfg.store h.db) (hrec : m.record x cfg.store = .ok record)
    (hsent : relay.Sent x cfg.session m.payload) (i : Unit) (phase' : Phase) :
    ShareInv x cfg relay ⟨h.db.write m.id (jsonPhrase record) false,
      Function.update h.phase i phase', h.history ++ [.merged m.payload]⟩ := by
  have hgood := merge_record_good hm.state hm.text
    (fun old hold => hh.store.fit.records m.id old (hm.read ▸ hold)) hrec
  obtain ⟨hfresh, hjoin⟩ := merge_record_view hm.state hrec
  rw [hgood.json]
  have hversion : m.payload.view ∈ relay.versions x cfg m.id :=
    ⟨m.payload, hsent, hm.identity, rfl⟩
  have habove : m.payload.view ≤ record.payload.view := by
    cases hex : m.existing with
    | none => exact (hfresh hex).ge
    | some old =>
      rw [hjoin old hex]
      exact le_sup_right
  apply hi.host_step i
  · intro o p hp he
    rw [write_phrases, SortedMap.find?_insert] at hp
    split_ifs at hp with ho
    · subst ho
      cases hp
      have hnew := subset_lowerBounds_upperBounds
        (relay.versions x cfg m.id ∪ h.db.queued m.id) (.inl hversion)
      cases hex : m.existing with
      | none =>
        rw [hfresh hex]
        exact hnew
      | some old =>
        have hold := hi.covered m.id old (hm.read ▸ hex) (he.mono (subset_append_left _ _))
        -- A join of something below the bound and a version of the relay.
        rw [hjoin old hex]
        exact fun b hb => sup_le (hold hb) (hnew hb)
    · exact hi.covered o p hp (he.mono (subset_append_left _ _))
  · intro o old hold
    rw [write_phrases, SortedMap.find?_insert]
    split_ifs with ho
    · subst ho
      refine ⟨record, rfl, ?_⟩
      rw [hjoin old (hm.read.trans hold)]
      exact le_sup_left
    · exact ⟨old, hold, le_rfl⟩
  · intro p hp
    obtain rfl : p = m.payload := by simpa using hp
    refine ⟨m.id, record, hm.identity, ?_, habove⟩
    rw [write_phrases, SortedMap.find?_insert_self]

section
variable {κ : Type}

variable {k : κ} {s : System κ Unit} {a b : HostConfig}

variable {o : ObjectID} {row : SyncState}

theorem System.HasStored.version (hx : x.Laws) {cfg : κ → HostConfig}
    (hh : HostInv x (cfg k) (s.hosts k)) {p : Phrase} (h : s.HasStored x cfg k o p)
    (hgood : p.Good x (cfg k).store o) :
    p.payload.view ∈ s.relay.db.versions x (cfg k) o := by
  obtain ⟨row, hrow, _, hdec⟩ := h.decode hx hh
  simp only [System.chainOf, RelayDB.chain, mem_filter, decide_eq_true_eq] at hrow
  exact ⟨p.payload, ⟨row, hrow.1, hrow.2.1, hdec⟩, hgood.identity, rfl⟩

theorem ShareInv.worker_step (hx : x.Laws) {cfg : κ → HostConfig}
    (hi : ShareInv x (cfg k) s.relay.db (s.hosts k)) (hu : UploadInv x cfg k row s)
    (ho : OutboxInv x (cfg k) (s.hosts k)) (hh : HostInv x (cfg k) (s.hosts k))
    (hor : OriginInv x cfg k s) {i : Unit} {a : WorkerAction} (hc : CommitsLoaded s (.worker k i a))
    (hw : WorkerMove x (cfg k) (s.hosts k).db a ((s.hosts k).phase i) db' phase' events) :
    ShareInv x (cfg k) s.relay.db
      ⟨db', Function.update (s.hosts k).phase i phase', (s.hosts k).history ++ events⟩ := by
  have hrows (r : OutboxRow) (hr : r ∈ (s.hosts k).db.outbox) : r ∈ db'.outbox ∨
      r.phrase.payload.view ∈ s.relay.db.versions x (cfg k) r.objectID := by
    rcases worker_keeps_row hu ho hc hw hr with hin | hstored
    · exact .inl hin
    · exact .inr (hstored.version hx hh (hh.store.fit.outbox r hr))
  have hready := hh.phase
  have horigin := hor.phases i
  generalize hph : (s.hosts k).phase i = phase at hw hready horigin
  cases hw with
  | write state next m record rest id hid =>
    obtain ⟨⟨hm, hrec, _⟩, _⟩ := hready
    obtain ⟨_, _, _, _, hown, _, _⟩ := merge_record_ok hm.state hrec
    obtain rfl : id = m.id := Except.ok.inj (hid.symm.trans hown)
    exact hi.merge_write hh hm hrec (horigin _ mem_cons_self) i _
  | migrateFail state next m rest now e _ hmig | migrate state next m m' rest now _ hmig =>
    have hdb := migrate_sameRows (cfg k).store now m (s.hosts k).db
    rw [hmig] at hdb
    exact hi.quiet i hdb.phrases hrows (by simp)
  | observe => exact hi.quiet i (observeHLC_sameRows _ _).phrases hrows (by simp)
  | _ => exact hi.quiet i rfl hrows (by simp)

/-- The runs in question: local operations of device `k` keep their object and move its
record up. -/
def AscendsOn [DecidableEq κ] (x : Externals) (cfg : κ → HostConfig) (k : κ) (s : System κ Unit)
    (a : Action κ Unit) : Prop :=
  KeepsObjectOn x cfg k s a ∧
    match a with
    | .mutate k' _ m now => k' = k →
        ∀ old ∈ ((cfg k).store.objectID x m.text m.pinyin).toOption.bind
          (fun id => (s.hosts k).db.phrases.find? id), m.Ascends now old
    | _ => True

instance [DecidableEq κ] (x : Externals) (cfg : κ → HostConfig) (k : κ) (s : System κ Unit)
    (a : Action κ Unit) : Decidable (AscendsOn x cfg k s a) := by
  unfold AscendsOn
  cases a <;> infer_instance

theorem ShareInv.step [DecidableEq κ] [Fintype κ] (hx : x.Laws) (cfg : κ → HostConfig)
    (hd : validSyncDeviceID (cfg k).store.deviceID = true) {s' : System κ Unit} {a : Action κ Unit}
    (ht : Traffic x cfg s) (hu : UploadInv x cfg k row s) (ho : OutboxInv x (cfg k) (s.hosts k))
    (hh : HostInv x (cfg k) (s.hosts k)) (hor : OriginInv x cfg k s) (hc : CommitsLoaded s a)
    (hp : AscendsOn x cfg k s a) (hi : ShareInv x (cfg k) s.relay.db (s.hosts k))
    (h : s.step x cfg a = some s') : ShareInv x (cfg k) s'.relay.db (s'.hosts k) := by
  have hsame (db : LocalDB) (r : OutboxRow) (hr : r ∈ db.outbox) : r ∈ db.outbox ∨
      r.phrase.payload.view ∈ s.relay.db.versions x (cfg k) r.objectID := .inl hr
  rcases System.step_cases cfg h with ⟨ra, r, hm, hr, rfl⟩ |
    ⟨k', i, db', phase', events, hm, rfl⟩ | ⟨k', i, state, request, _, _, rfl⟩
  · -- Versions on the relay stay.
    have hsub := ht.envelopes_subset hm hr
    refine ⟨?_, hi.absorbed⟩
    intro o p hfind he
    have hversions : s.relay.db.versions x (cfg k) o ⊆ r.db.versions x (cfg k) o := by
      rintro v ⟨q, hsent, hid, rfl⟩
      exact ⟨q, hsent.mono hsub, hid, rfl⟩
    exact lowerBounds_mono_set (upperBounds_mono_set (Set.union_subset_union_left _ hversions))
      (hi.covered o p hfind he)
  · by_cases hk : k = k'
    · subst hk
      rw [System.setHost_self]
      cases hm with
      | mutate m now hl =>
        have hmem : m ∈ (Action.mutate k i m now).mutationOn k := by simp [Action.mutationOn]
        refine hi.mutation hh hd hp.1.1.1 (hp.1.2 m hmem) (hp.1.1.2 m hmem) ?_
          (m.exec_move x (cfg k).store now (s.hosts k).db) i _
        intro id old hid hold
        exact hp.2 rfl old (by simp [hid, Except.toOption, hold])
      | tick now hl | giveUp | receive => exact hi.quiet i rfl (hsame _) (by simp)
      | worker wa _ _ _ hw => exact hi.worker_step hx hu ho hh hor hc hw
    · rw [System.setHost_ne s i _ _ _ hk]
      exact hi
  · by_cases hk : k = k'
    · subst hk
      simp only [System.setHost_self]
      exact hi.quiet i rfl (hsame _) (by simp)
    · simp only [System.setHost_ne s i _ _ _ hk]
      exact hi

structure HostConfig.SameAccount (a b : HostConfig) : Prop where
  account : a.session.accountID = b.session.accountID
  epochKeys : a.session.epochKeys = b.session.epochKeys
  verificationKeys : a.session.verificationKeys = b.session.verificationKeys
  idKey : a.store.idKey = b.store.idKey

theorem HostConfig.SameAccount.symm (h : a.SameAccount b) : b.SameAccount a :=
  ⟨h.account.symm, h.epochKeys.symm, h.verificationKeys.symm, h.idKey.symm⟩

theorem HostConfig.SameAccount.decodeDownload (h : a.SameAccount b) (x : Externals)
    (wire : WireEnvelope) :
    YunPin.decodeDownload x a.session wire = YunPin.decodeDownload x b.session wire := by
  unfold YunPin.decodeDownload Session.verificationKey Session.epochKey
  rw [h.account, h.epochKeys, h.verificationKeys]

theorem HostConfig.SameAccount.objectID (h : a.SameAccount b) (x : Externals)
    (text pinyin : Bytes) : a.store.objectID x text pinyin = b.store.objectID x text pinyin := by
  unfold Store.objectID
  rw [h.idKey]

theorem HostConfig.SameAccount.versions (h : a.SameAccount b) (x : Externals) (db : RelayDB)
    (o : ObjectID) : db.versions x a o ⊆ db.versions x b o := by
  rintro v ⟨p, ⟨r, hr, hacc, hdec⟩, hid, rfl⟩
  refine ⟨p, ⟨r, hr, ?_, ?_⟩, ?_, rfl⟩
  · rw [hacc, h.account]
  · rw [← h.decodeDownload]
    exact hdec
  · rw [← h.objectID]
    exact hid

structure System.Settled (cfg : κ → HostConfig) (k : κ) (s : System κ Unit) : Prop where
  outbox : (s.hosts k).db.outbox = []
  checkpoint : ∃ row, (s.hosts k).db.syncState = some row ∧ row.prepared = none ∧
    row.cursor = s.relay.db.accountMaxCursor (hexEncode (cfg k).session.accountID)

theorem versions_le_record {cfg : κ → HostConfig} (hc : CursorInv x cfg k row s)
    (hi : ShareInv x (cfg k) s.relay.db (s.hosts k)) (hs : s.Settled cfg k) {v : PayloadView}
    (hv : v ∈ s.relay.db.versions x (cfg k) o) :
    ∃ record, (s.hosts k).db.phrases.find? o = some record ∧ v ≤ record.payload.view := by
  obtain ⟨p, ⟨r, hr, hacc, hdec⟩, hid, rfl⟩ := hv
  obtain ⟨row', hrow, _, hcursor⟩ := hs.checkpoint
  obtain rfl : row' = row := some.inj (hrow.symm.trans hc.state)
  have hle : r.cursor ≤ row'.cursor := by
    rw [hcursor, ← hacc]
    exact le_accountMaxCursor hr
  have hpos := (hc.ordered.bounds r hr).1
  obtain ⟨q, hq, hmerged⟩ := hc.merged r hr hacc (by omega) hle
  obtain rfl : q = p := Except.ok.inj (hq.symm.trans hdec)
  obtain ⟨o', record, hid', hfind, hview⟩ := hi.absorbed q hmerged
  obtain rfl : o' = o := Except.ok.inj (hid'.symm.trans hid)
  exact ⟨record, hfind, hview⟩

theorem record_le_record {cfg : κ → HostConfig} {k' : κ} (hsame : (cfg k).SameAccount (cfg k'))
    (hi : ShareInv x (cfg k) s.relay.db (s.hosts k)) (hs : s.Settled cfg k)
    (hc' : CursorInv x cfg k' row s) (hi' : ShareInv x (cfg k') s.relay.db (s.hosts k'))
    (hs' : s.Settled cfg k') (he : EveryWriteEnqueued (s.hosts k).history o) (p : Phrase)
    (hp : (s.hosts k).db.phrases.find? o = some p) :
    ∃ p', (s.hosts k').db.phrases.find? o = some p' ∧ p.payload.view ≤ p'.payload.view := by
  have hcovered := hi.covered o p hp he
  have hempty : (s.hosts k).db.queued o = ∅ := by
    simp [LocalDB.queued, hs.outbox]
  rw [hempty, Set.union_empty] at hcovered
  have hread (v : PayloadView) (hv : v ∈ s.relay.db.versions x (cfg k) o) :=
    versions_le_record hc' hi' hs' (hsame.versions x _ o hv)
  rcases (s.relay.db.versions x (cfg k) o).eq_empty_or_nonempty with hnone | ⟨v, hv⟩
  · -- A record that is below everything would be below one with an earlier day.
    rw [hnone, upperBounds_empty] at hcovered
    have hday := hcovered (Set.mem_univ
      ({ p.payload with lastUsedDay := p.lastUsedDay-1 } : PhrasePayload).view)
    have hlt := ((payload_view_le).mp hday).2.2.2.1
    change p.lastUsedDay ≤ p.lastUsedDay-1 at hlt
    omega
  · obtain ⟨p', hp', _⟩ := hread v hv
    refine ⟨p', hp', hcovered ?_⟩
    intro u hu
    obtain ⟨q, hq, hle⟩ := hread u hu
    obtain rfl : q = p' := some.inj (hq.symm.trans hp')
    exact hle

structure DeviceInv (x : Externals) (cfg : κ → HostConfig) (k : κ) (s : System κ Unit) : Prop where
  outbox : OutboxInv x (cfg k) (s.hosts k)
  host : HostInv x (cfg k) (s.hosts k)
  upload : ∃ row, UploadInv x cfg k row s
  cursor : ∃ row, CursorInv x cfg k row s
  origin : OriginInv x cfg k s
  share : ShareInv x (cfg k) s.relay.db (s.hosts k)

theorem System.Initial.deviceInv {cfg : κ → HostConfig} (h : s.Initial x cfg)
    (hdb : (s.hosts k).db = .bound (cfg k).store.deviceID) :
    DeviceInv x cfg k s where
  outbox := .initial (hdb ▸ LocalDB.bound_outboxKeys _) (h.idle k) (h.history k)
  host := .initial hdb (h.idle k) (h.history k)
  upload := ⟨_, h.uploadInv k⟩
  cursor := ⟨_, h.cursorInv k⟩
  origin := h.originInv k
  share := by
    refine ⟨?_, by simp [h.history]⟩
    rw [hdb]
    simp [LocalDB.bound, LocalDB.empty]

theorem DeviceInv.step [DecidableEq κ] [Fintype κ] (hx : x.Laws) (cfg : κ → HostConfig)
    (hd : validSyncDeviceID (cfg k).store.deviceID = true)
    (hdistinct : ∀ k k', hexEncode (cfg k).session.deviceID = hexEncode (cfg k').session.deviceID →
      k = k') {s' : System κ Unit} {a : Action κ Unit} (ht : Traffic x cfg s) (hs : SlotOwned s)
    (hp : AscendsOn x cfg k s a) (hi : DeviceInv x cfg k s) (h : s.step x cfg a = some s') :
    DeviceInv x cfg k s' := by
  have hc := hs.commitsLoaded a
  obtain ⟨row, hu⟩ := hi.upload
  obtain ⟨row', hcur⟩ := hi.cursor
  obtain ⟨row'', _, hcur'⟩ := hcur.step cfg ht h
  exact {
    outbox := hi.outbox.step cfg h
    host := hi.host.step hx cfg hd hp.1 h
    upload := hu.step cfg hdistinct ht hc h
    cursor := ⟨row'', hcur'⟩
    origin := hi.origin.step cfg ht hcur h
    share := hi.share.step hx cfg hd ht hu hi.outbox hi.host hi.origin hc hp h }

def SameRecord (a b : LocalDB) (o : ObjectID) : Prop :=
  (a.phrases.find? o = none ∧ b.phrases.find? o = none) ∨
    ∃ p p', a.phrases.find? o = some p ∧ b.phrases.find? o = some p' ∧ SamePhrase p p'

/-- Settled devices agree on every object whose local writes were all enqueued. -/
def Converged (cfg : κ → HostConfig) (k k' : κ) (t : System κ Unit) : Prop :=
  t.Settled cfg k → t.Settled cfg k' → ∀ o, EveryWriteEnqueued (t.hosts k).history o →
    EveryWriteEnqueued (t.hosts k').history o → SameRecord (t.hosts k).db (t.hosts k').db o

theorem DeviceInv.converged {cfg : κ → HostConfig} {k' : κ} {t : System κ Unit}
    (hsame : (cfg k).SameAccount (cfg k')) (hi : DeviceInv x cfg k t) (hi' : DeviceInv x cfg k' t) :
    Converged cfg k k' t := by
  intro hs hs' o he he'
  obtain ⟨row, hc⟩ := hi.cursor
  obtain ⟨row', hc'⟩ := hi'.cursor
  have hle := record_le_record hsame hi.share hs hc' hi'.share hs' he
  have hge := record_le_record hsame.symm hi'.share hs' hc hi.share hs he'
  cases hp : (t.hosts k).db.phrases.find? o with
  | some p =>
    obtain ⟨p', hp', hview⟩ := hle p hp
    obtain ⟨q, hq, hview'⟩ := hge p' hp'
    obtain rfl : q = p := some.inj (hq.symm.trans hp)
    exact .inr ⟨q, p', hp, hp', samePhrase_of_view
      (hi.host.store.fit.records o q hp).materialized
      (hi'.host.store.fit.records o p' hp').materialized (le_antisymm hview hview')⟩
  | none =>
    cases hp' : (t.hosts k').db.phrases.find? o with
    | none => exact .inl ⟨hp, hp'⟩
    | some p' =>
      obtain ⟨q, hq, _⟩ := hge p' hp'
      rw [hp] at hq
      simp at hq

/-- Two devices of one account converge, in every run in which their local operations keep
their objects and move records up. -/
theorem replicas_converge [DecidableEq κ] [Fintype κ] (x : Externals) (hx : x.Laws)
    (cfg : κ → HostConfig) (s t : System κ Unit) (h0 : s.Initial x cfg) (k k' : κ)
    (hsame : (cfg k).SameAccount (cfg k')) (dataKey idKey deviceID : Bytes)
    (hopen : openForDevice dataKey idKey deviceID .empty = (.ok (cfg k).store, (s.hosts k).db))
    (dataKey' idKey' deviceID' : Bytes)
    (hopen' : openForDevice dataKey' idKey' deviceID' .empty =
      (.ok (cfg k').store, (s.hosts k').db))
    (actions : List (Action κ Unit))
    (h : Runs.run (Runs.restrict (fun u a => AscendsOn x cfg k u a ∧ AscendsOn x cfg k' u a)
      (System.step x cfg)) s actions = some t) : Converged cfg k k' t := by
  obtain ⟨hd, _, hdb⟩ := openForDevice_empty_ok hopen
  obtain ⟨hd', _, hdb'⟩ := openForDevice_empty_ok hopen'
  have hinv : Traffic x cfg t ∧ SlotOwned t ∧ DeviceInv x cfg k t ∧ DeviceInv x cfg k' t := by
    apply Runs.run_invariant (fun u => Traffic x cfg u ∧ SlotOwned u ∧ DeviceInv x cfg k u ∧
      DeviceInv x cfg k' u) ?_ ?_ h
    · rintro u a u' ⟨ht, hs, hi, hi'⟩ hstep
      obtain ⟨⟨hp, hp'⟩, hstep⟩ := Runs.restrict_some hstep
      exact ⟨ht.step cfg hstep, hs.step cfg hstep, hi.step hx cfg hd h0.distinct ht hs hp hstep,
        hi'.step hx cfg hd' h0.distinct ht hs hp' hstep⟩
    · exact ⟨h0.traffic, h0.slotOwned, h0.deviceInv hdb, h0.deviceInv hdb'⟩
  exact hinv.2.2.1.converged hsame hinv.2.2.2

end

theorem System.settled_iff {κ : Type} (cfg : κ → HostConfig) (k : κ) (s : System κ Unit) :
    s.Settled cfg k ↔ (s.hosts k).db.outbox.length = 0 ∧
      (s.hosts k).db.syncState.map (fun row => (row.prepared, row.cursor)) =
        some (none, s.relay.db.accountMaxCursor (hexEncode (cfg k).session.accountID)) := by
  constructor
  · rintro ⟨hout, row, hrow, hp, hc⟩
    exact ⟨by rw [hout, length_nil], by rw [hrow, map_some, hp, hc]⟩
  · rintro ⟨hout, hmap⟩
    obtain ⟨row, hrow, heq⟩ := map_eq_some_iff.mp hmap
    obtain ⟨hp, hc⟩ := Prod.mk.inj heq
    exact ⟨length_eq_zero_iff.mp hout, row, hrow, hp, hc⟩

instance {κ : Type} (cfg : κ → HostConfig) (k : κ) (s : System κ Unit) :
    Decidable (s.Settled cfg k) :=
  decidable_of_iff' _ (s.settled_iff cfg k)

def Event.keptBack : Event → Bool
  | .wrote _ _ enqueued => !enqueued
  | _ => false

theorem everyWriteEnqueued_of_all (h : history.all (fun e => !e.keptBack) = true) (o : ObjectID) :
    EveryWriteEnqueued history o := by
  intro record enqueued he
  have hb := all_eq_true.mp h _ he
  simpa [Event.keptBack] using hb

theorem sampleConfig_sameAccount : (sampleConfig false).SameAccount (sampleConfig true) :=
  ⟨rfl, rfl, rfl, rfl⟩

/-- A device uploads the one event of its outbox and reads one envelope back. -/
def uploadRound (k : Bool) (n : ℕ) : List (Action Bool Unit) :=
  uploadSteps k () ++ serveCall n ++ [.receive k () n] ++ mergeSteps k () ++
    [.worker k () .commit, .worker k () .advance]

def downloadRound (k : Bool) (n : ℕ) : List (Action Bool Unit) :=
  pollSteps k () ++ serveCall n ++ [.receive k () n] ++ mergeSteps k () ++
    [.worker k () .advance]

/-- The left device saves a phrase, the right one saves it again from another source, and
both read everything. -/
def savedTwice (source : String) : List (Action Bool Unit) :=
  [.mutate false () (.save (samplePhrase "a")) sampleReading] ++ uploadRound false 0 ++
    downloadRound true 1 ++
    [.mutate true () (.save { samplePhrase "a" with source := lit source }) sampleReading] ++
    uploadRound true 2 ++ downloadRound false 3

/-- The second source is the larger one: the right device has overwritten the first one by
it, and the left device keeps the smaller. -/
theorem sources_diverge : ∃ t,
    Runs.run (System.step sampleExternals sampleConfig) (sampleSystem Unit) (savedTwice "z") =
      some t ∧ ¬Converged sampleConfig false true t := by
  apply Runs.exists_some (fun t => t.Settled sampleConfig false ∧ t.Settled sampleConfig true ∧
    (t.hosts false).history.all (fun e => !e.keptBack) = true ∧
    (t.hosts true).history.all (fun e => !e.keptBack) = true ∧
    ∃ e ∈ (t.hosts false).db.phrases.entries, ∃ e' ∈ (t.hosts true).db.phrases.entries,
      e.1 = e'.1 ∧ e.2.source ≠ e'.2.source) (by decide +kernel)
  rintro t - ⟨hs, hs', he, he', e, hmem, e', hmem', hid, hne⟩ hconv
  have hfind := (SortedMap.find?_eq_some_iff _ _ _).mpr hmem
  have hfind' := (SortedMap.find?_eq_some_iff _ _ _).mpr hmem'
  rw [← hid] at hfind'
  rcases hconv hs hs' e.1 (everyWriteEnqueued_of_all he _) (everyWriteEnqueued_of_all he' _) with
    ⟨hnone, _⟩ | ⟨p, p', hp, hp', hsame⟩
  · rw [hfind] at hnone
    simp at hnone
  · obtain rfl := some.inj (hfind.symm.trans hp)
    obtain rfl := some.inj (hfind'.symm.trans hp')
    exact hne hsame.source

/-- With a smaller one both take it. -/
theorem replicas_converge_sample : ∃ t,
    Runs.run (Runs.restrict (fun u a => AscendsOn sampleExternals sampleConfig false u a ∧
      AscendsOn sampleExternals sampleConfig true u a) (System.step sampleExternals sampleConfig))
      (sampleSystem Unit) (savedTwice "b") = some t ∧
    t.Settled sampleConfig false ∧ t.Settled sampleConfig true ∧
    (t.hosts false).db.phrases.entries.length = 1 ∧ Converged sampleConfig false true t := by
  apply Runs.exists_some (fun t => t.Settled sampleConfig false ∧ t.Settled sampleConfig true ∧
    (t.hosts false).db.phrases.entries.length = 1) (by decide +kernel)
  rintro t ht ⟨hs, hs', hlen⟩
  exact ⟨hs, hs', hlen, replicas_converge sampleExternals sampleExternals_laws sampleConfig
    _ t (sampleSystem_initial Unit) false true sampleConfig_sameAccount _ _ _
    (sampleConfig_open false) _ _ _ (sampleConfig_open true) (savedTwice "b") ht⟩

end YunPin
