import YunPin.RelayRevocation

/-! The stored envelopes. The relay numbers them in the order it stores them and
only ever appends; the envelopes of one device form a chain, numbered from one and
linked by hash. -/
namespace YunPin
open ByteText List Option

/-- The relay numbers its envelopes in the order it stores them. -/
structure RelayDB.CursorsOrdered (db : RelayDB) : Prop where
  sorted : db.envelopes.Pairwise (fun r r' => r.cursor < r'.cursor)
  bounds : ∀ r ∈ db.envelopes, 1 ≤ r.cursor ∧ r.cursor ≤ db.lastCursor
  nonneg : 0 ≤ db.lastCursor

variable {db' : RelayDB}

theorem RelayDB.CursorsOrdered.same {db : RelayDB} (h : db.CursorsOrdered)
    (he : db'.envelopes = db.envelopes) (hlast : db'.lastCursor = db.lastCursor) :
    db'.CursorsOrdered := by
  refine ⟨he ▸ h.sorted, ?_, hlast ▸ h.nonneg⟩
  rw [he, hlast]
  exact h.bounds

variable (db : RelayDB) (c : Crypto) (s s' : Relay) (a : RelayAction) (identity : DeviceIdentity)
  (input : SyncRequest) (e : DecodedEnvelope)

theorem insertEnvelope_ordered (h : db.CursorsOrdered) :
    (db.insertEnvelope identity e).CursorsOrdered := by
  have hnew : (db.insertEnvelope identity e).lastCursor = db.lastCursor+1 := rfl
  have hnonneg := h.nonneg
  refine ⟨?_, ?_, by omega⟩
  · refine pairwise_append.mpr ⟨h.sorted, pairwise_singleton _ _, ?_⟩
    intro r hr r' hr'
    rw [mem_singleton.mp hr']
    exact Int.lt_add_one_iff.mpr (h.bounds r hr).2
  · intro r hr
    rcases mem_append.mp hr with hr | hr
    · have := h.bounds r hr
      omega
    · have hcursor : r.cursor = db.lastCursor+1 := by rw [mem_singleton.mp hr]; rfl
      omega

def RelayDB.Appends (db db' : RelayDB) : Prop :=
  db.lastCursor ≤ db'.lastCursor ∧ ∃ more, db'.envelopes = db.envelopes ++ more ∧
    ∀ r ∈ more, db.lastCursor < r.cursor

theorem RelayDB.Appends.of_same {db : RelayDB} (h : db'.envelopes = db.envelopes)
    (hlast : db'.lastCursor = db.lastCursor) : db.Appends db' :=
  ⟨hlast.ge, [], by rw [h, append_nil], by simp⟩

theorem RelayDB.Appends.trans {db db'' : RelayDB} (h : db.Appends db') (h' : db'.Appends db'') :
    db.Appends db'' := by
  obtain ⟨hle, more, he, hmore⟩ := h
  obtain ⟨hle', more', he', hmore'⟩ := h'
  refine ⟨hle.trans hle', more ++ more', by rw [he', he, append_assoc], ?_⟩
  intro r hr
  rcases mem_append.mp hr with hr | hr
  · exact hmore r hr
  · exact hle.trans_lt (hmore' r hr)

theorem RelayDB.Appends.envelopes {db : RelayDB} (h : db.Appends db') :
    db.envelopes <+: db'.envelopes := by
  obtain ⟨_, more, he, _⟩ := h
  exact ⟨more, he.symm⟩

theorem insertEnvelope_appends : db.Appends (db.insertEnvelope identity e) := by
  refine ⟨by simp [RelayDB.insertEnvelope], [e.row identity (db.lastCursor+1)], rfl, ?_⟩
  intro r hr
  rw [mem_singleton.mp hr]
  exact Int.lt_add_one_iff.mpr le_rfl

theorem syncEnvelopes_appends (db : RelayDB) :
    db.Appends (syncEnvelopes c identity input db).2 := by
  apply syncEnvelopes_induction c identity input (fun db' => db.Appends db') (.of_same rfl rfl)
  · intro db' e _ hd _ _
    exact hd.trans (insertEnvelope_appends db' identity e)
  · intro db' cursor hd
    exact hd

theorem syncEnvelopes_ordered {db : RelayDB} (h : db.CursorsOrdered) :
    (syncEnvelopes c identity input db).2.CursorsOrdered := by
  apply syncEnvelopes_induction c identity input (fun db' => db'.CursorsOrdered) h
  · intro db' e _ hd _ _
    exact insertEnvelope_ordered db' identity e hd
  · intro db' cursor hd
    exact ⟨hd.sorted, hd.bounds, hd.nonneg⟩

theorem foldl_max_le {l : List ℤ} (b c : ℤ) (hb : b ≤ c) (h : ∀ n ∈ l, n ≤ c) :
    l.foldl max b ≤ c := by
  induction l generalizing b with
  | nil => exact hb
  | cons n rest ih =>
    exact ih (max b n) (max_le hb (h n mem_cons_self))
      (forall_mem_cons.mp h).2

theorem accountMaxCursor_le {account : Bytes} (h : db.CursorsOrdered) :
    db.accountMaxCursor account ≤ db.lastCursor := by
  apply foldl_max_le _ _ h.nonneg
  intro n hn
  obtain ⟨r, hr, rfl⟩ := mem_map.mp hn
  exact (h.bounds r (mem_filter.mp hr).1).2

/-- A chain numbered from one, each record on top of the one before. -/
structure LinkedChain (chain : List EnvelopeRow) : Prop where
  sequences : chain.map (·.deviceSeq) = List.range' 1 chain.length
  first : ∀ row, chain[0]? = some row → row.previousHash = []
  linked : ∀ (k : ℕ) (a b : EnvelopeRow), chain[k]? = some a → chain[k+1]? = some b →
    b.previousHash = a.recordHash
  cursors : chain.Pairwise (fun a b => a.cursor < b.cursor)

theorem LinkedChain.nil : LinkedChain [] := ⟨rfl, by simp, by simp, List.Pairwise.nil⟩

variable {chain : List EnvelopeRow}

theorem LinkedChain.deviceSeq (h : LinkedChain chain) (i : ℕ) (row : EnvelopeRow)
    (hrow : chain[i]? = some row) : row.deviceSeq = i+1 := by
  have hget : (chain.map (·.deviceSeq))[i]? = some row.deviceSeq := by
    rw [getElem?_map, hrow, map_some]
  have hi : i < chain.length := (List.getElem?_eq_some_iff.mp hrow).1
  rw [h.sequences, getElem?_range' hi] at hget
  have := some.inj hget
  omega

theorem lastRecord_numbered
    (h : ∀ (i : ℕ) (row : EnvelopeRow), chain[i]? = some row → row.deviceSeq = i+1) :
    lastRecord chain = (chain.length, (chain.getLast?.map (·.recordHash)).getD []) := by
  rcases eq_nil_or_concat' chain with rfl | ⟨init, row, rfl⟩
  · rfl
  have hrow : row.deviceSeq = init.length+1 := h init.length row (by simp)
  have hmax : (init ++ [row]).argmax (fun r => r.deviceSeq) = some row := by
    rw [argmax_concat]
    cases ha : init.argmax (fun r => r.deviceSeq) with
    | none => rfl
    | some r =>
      -- Every earlier row has a smaller sequence.
      obtain ⟨i, hi, hri⟩ := mem_iff_getElem.mp (argmax_mem (mem_def.mpr ha))
      have hr : r.deviceSeq = i+1 := by
        apply h
        rw [getElem?_append_left hi, getElem?_eq_getElem hi, hri]
      simp only
      rw [if_pos (by omega)]
  simp [lastRecord, hmax, hrow]

theorem LinkedChain.concat (h : LinkedChain chain) {row : EnvelopeRow}
    (hseq : row.deviceSeq = (lastRecord chain).1+1)
    (hprev : row.previousHash = (lastRecord chain).2)
    (hcursor : ∀ r ∈ chain, r.cursor < row.cursor) : LinkedChain (chain ++ [row]) := by
  have hlast := lastRecord_numbered h.deviceSeq
  rw [hlast] at hseq hprev
  refine ⟨?_, ?_, ?_, ?_⟩
  · rw [map_append, h.sequences, length_append, length_singleton,
      range'_concat, map_singleton, hseq]
    congr 2
    omega
  · intro r hr
    cases chain with
    | nil =>
      obtain rfl : row = r := by simpa using hr
      simpa using hprev
    | cons a rest => exact h.first r (by simpa using hr)
  · intro k a b ha hb
    rcases Nat.lt_or_ge (k+1) chain.length with hk | hk
    · rw [getElem?_append_left hk] at hb
      rw [getElem?_append_left (by omega)] at ha
      exact h.linked k a b ha hb
    · -- The new row is the second of the two.
      rw [getElem?_append_right hk, getElem?_singleton] at hb
      split_ifs at hb with hz
      cases hb
      have hlen : k+1 = chain.length := by omega
      rw [getElem?_append_left (by omega)] at ha
      have hget : chain.getLast? = some a := by
        rw [getLast?_eq_getElem?, ← hlen, Nat.add_sub_cancel, ha]
      rw [hprev, hget]
      rfl
  · refine pairwise_append.mpr ⟨h.cursors, pairwise_singleton _ _, ?_⟩
    intro r hr r' hr'
    rw [mem_singleton.mp hr']
    exact hcursor r hr

theorem chain_insertEnvelope_own :
    (db.insertEnvelope identity e).chain identity.accountID identity.id =
      db.chain identity.accountID identity.id ++ [e.row identity (db.lastCursor+1)] := by
  simp [RelayDB.chain, RelayDB.insertEnvelope, filter_append, DecodedEnvelope.row]

theorem chain_insertEnvelope_ne {account device : Bytes}
    (h : ¬(identity.accountID = account ∧ identity.id = device)) :
    (db.insertEnvelope identity e).chain account device = db.chain account device := by
  simp [RelayDB.chain, RelayDB.insertEnvelope, filter_append, DecodedEnvelope.row, h]

structure RelayDB.Linked (db : RelayDB) : Prop where
  ordered : db.CursorsOrdered
  chains : ∀ account device, LinkedChain (db.chain account device)

theorem RelayDB.Linked.same {db : RelayDB} (h : db.Linked) (he : db'.envelopes = db.envelopes)
    (hlast : db'.lastCursor = db.lastCursor) : db'.Linked := by
  refine ⟨h.ordered.same he hlast, ?_⟩
  intro account device
  have hchain := h.chains account device
  unfold RelayDB.chain at hchain ⊢
  rwa [he]

theorem RelayDB.Linked.insert {db : RelayDB} (h : db.Linked) {identity : DeviceIdentity}
    {e : DecodedEnvelope}
    (hseq : e.wire.deviceSeq = (lastRecord (db.chain identity.accountID identity.id)).1+1)
    (hprev : e.previousHash = (lastRecord (db.chain identity.accountID identity.id)).2) :
    (db.insertEnvelope identity e).Linked := by
  refine ⟨insertEnvelope_ordered db identity e h.ordered, ?_⟩
  intro account device
  by_cases hown : identity.accountID = account ∧ identity.id = device
  · obtain ⟨rfl, rfl⟩ := hown
    rw [chain_insertEnvelope_own]
    apply (h.chains _ _).concat hseq hprev
    intro r hr
    exact Int.lt_add_one_iff.mpr (h.ordered.bounds r (mem_filter.mp hr).1).2
  · rw [chain_insertEnvelope_ne db identity e hown]
    exact h.chains account device

theorem syncEnvelopes_linked {db : RelayDB} (h : db.Linked) :
    (syncEnvelopes c identity input db).2.Linked := by
  apply syncEnvelopes_induction c identity input (fun db' => db'.Linked) h
  · intro db' e _ hd hseq hprev
    exact hd.insert hseq hprev
  · intro db' cursor hd
    exact hd.same rfl rfl

theorem Relay.step_envelopes (h : s.step c a = some s') :
    (s'.db.envelopes = s.db.envelopes ∧ s'.db.lastCursor = s.db.lastCursor) ∨
      ∃ f ∈ s.flights, ∃ input, f.op = .sync input ∧
        s'.db = (syncEnvelopes c f.identity input s.db).2 := by
  rcases Relay.step_cases h with ⟨_, _, _, _, hdb, _⟩ | ⟨i, moment, f, _, hf, hdb, _⟩ |
    ⟨op, moment, _, hdb, _⟩
  · exact .inl ⟨by rw [hdb], by rw [hdb]⟩
  · by_cases hsync : ∃ input, f.op = .sync input
    · obtain ⟨input, hop⟩ := hsync
      exact .inr ⟨f, mem_of_getElem? hf, input, hop, by rw [hdb, hop]; rfl⟩
    · rw [hdb]
      push Not at hsync
      exact .inl (f.op.exec_envelopes c f.identity moment s.db hsync)
  · rw [hdb]
    refine .inl ?_
    rcases op.exec_cases c moment s.db with he | ⟨_, _, _, _, _, _, he⟩ |
      ⟨_, _, _, _, _, _, _, _, _, he⟩ | ⟨_, _, _, _, _, he⟩ <;> rw [he] <;> exact ⟨rfl, rfl⟩

theorem Relay.step_appends (h : s.step c a = some s') : s.db.Appends s'.db := by
  rcases Relay.step_envelopes c s s' a h with ⟨he, hlast⟩ | ⟨f, _, input, _, hdb⟩
  · exact .of_same he hlast
  · rw [hdb]
    exact syncEnvelopes_appends c f.identity input s.db

variable {actions : List RelayAction}

theorem Relay.run_appends {t : Relay} (h : Runs.run (Relay.step c) s actions = some t) :
    s.db.Appends t.db :=
  Runs.run_relation (fun _ => True) (fun u v => u.db.Appends v.db) (fun _ => .of_same rfl rfl)
    (fun _ _ _ => .trans) (fun u a v _ h => ⟨trivial, Relay.step_appends c u v a h⟩) trivial h

theorem RelayDB.CursorsOrdered.step (hs : s.db.CursorsOrdered) (h : s.step c a = some s') :
    s'.db.CursorsOrdered := by
  rcases Relay.step_envelopes c s s' a h with ⟨he, hlast⟩ | ⟨f, _, input, _, hdb⟩
  · exact hs.same he hlast
  · rw [hdb]
    exact syncEnvelopes_ordered c f.identity input hs

theorem RelayDB.Linked.step (s' : Relay) (hs : s.db.Linked) (h : s.step c a = some s') :
    s'.db.Linked := by
  rcases Relay.step_envelopes c s s' a h with ⟨he, hlast⟩ | ⟨f, _, input, _, hdb⟩
  · exact hs.same he hlast
  · rw [hdb]
    exact syncEnvelopes_linked c f.identity input hs

theorem RelayDB.Linked.empty : RelayDB.empty.Linked :=
  ⟨⟨List.Pairwise.nil, by simp [RelayDB.empty], le_rfl⟩, fun _ _ => .nil⟩

theorem RelayDB.Linked.run {c : Crypto} {s t : Relay} (hs : s.db.Linked)
    (h : Runs.run (Relay.step c) s actions = some t) : t.db.Linked :=
  Runs.run_invariant (fun u => u.db.Linked) (RelayDB.Linked.step c) hs h

/-- The row is an upload of the device that the relay has checked against its key. -/
def EnvelopeRow.VerifiedBy (c : Crypto) (identity : DeviceIdentity) (row : EnvelopeRow) : Prop :=
  ∃ wire e header, Validated c identity wire e header ∧ row = e.row identity row.cursor

def EnvelopeRow.Verified (c : Crypto) (row : EnvelopeRow) : Prop :=
  ∃ identity, row.VerifiedBy c identity

/-- What the relay stores for a request is verified by the identity of that request. -/
theorem syncEnvelopes_rows (P : EnvelopeRow → Prop) (hnew : ∀ r, r.VerifiedBy c identity → P r)
    {db : RelayDB} (h : ∀ r ∈ db.envelopes, P r) :
    ∀ r ∈ (syncEnvelopes c identity input db).2.envelopes, P r := by
  apply syncEnvelopes_induction c identity input (fun db' => ∀ r ∈ db'.envelopes, P r) h
  · rintro db' e ⟨wire, _, hwire⟩ hd _ _ r hr
    rcases mem_append.mp hr with hr | hr
    · exact hd r hr
    · obtain ⟨header, hv⟩ := validateEnvelope_ok c hwire
      rw [mem_singleton.mp hr]
      exact hnew _ ⟨wire, e, header, hv, rfl⟩
  · intro db' cursor hd
    exact hd

theorem syncEnvelopes_verified {db : RelayDB} (h : ∀ r ∈ db.envelopes, r.Verified c) :
    ∀ r ∈ (syncEnvelopes c identity input db).2.envelopes, r.Verified c :=
  syncEnvelopes_rows c identity input (·.Verified c) (fun _ hr => ⟨identity, hr⟩) h

theorem verified_run {t : Relay} (hs : ∀ r ∈ s.db.envelopes, r.Verified c)
    (h : Runs.run (Relay.step c) s actions = some t) : ∀ r ∈ t.db.envelopes, r.Verified c := by
  refine Runs.run_invariant (fun u => ∀ r ∈ u.db.envelopes, r.Verified c) ?_ hs h
  intro u a u' hu hstep
  rcases Relay.step_envelopes c u u' a hstep with ⟨he, _⟩ | ⟨f, _, input, _, hdb⟩
  · rw [he]
    exact hu
  · rw [hdb]
    exact syncEnvelopes_verified c f.identity input hu

/-- The identity is that of a row of the devices table. -/
def RelayDB.Knows (db : RelayDB) (identity : DeviceIdentity) : Prop :=
  ∃ d ∈ db.devices, d.identity = identity

theorem RelayDB.Knows.step {c : Crypto} {s s' : Relay} {a : RelayAction}
    (h : s.step c a = some s') {identity : DeviceIdentity} (hk : s.db.Knows identity) :
    s'.db.Knows identity := by
  obtain ⟨g, added, hdevices, hfixed, _, _⟩ := Relay.step_devices h
  obtain ⟨d, hd, rfl⟩ := hk
  -- No column of the identity is ever rewritten.
  have hid : (g d).fixed.identity = d.fixed.identity := by rw [hfixed]
  exact ⟨g d, hdevices ▸ mem_append_left _ (mem_map_of_mem hd), hid⟩

/-- Requests in flight and stored rows are those of devices of the table. -/
structure SignedRows (c : Crypto) (s : Relay) : Prop where
  flights : ∀ f ∈ s.flights, s.db.Knows f.identity
  rows : ∀ r ∈ s.db.envelopes, ∃ identity, s.db.Knows identity ∧ r.VerifiedBy c identity

theorem SignedRows.step (s' : Relay) (hs : SignedRows c s) (h : s.step c a = some s') :
    SignedRows c s' := by
  have hkept : ∀ f ∈ s.flights, s'.db.Knows f.identity := fun f hf => (hs.flights f hf).step h
  have hrows : ∀ r ∈ s.db.envelopes,
      ∃ identity, s'.db.Knows identity ∧ r.VerifiedBy c identity := by
    intro r hr
    obtain ⟨identity, hk, hv⟩ := hs.rows r hr
    exact ⟨identity, hk.step h, hv⟩
  refine ⟨?_, ?_⟩
  · intro f hf
    rcases Relay.step_cases h with ⟨_, _, _, _, _, hfl⟩ | ⟨_, _, _, _, _, _, hfl⟩ |
      ⟨_, _, _, _, hfl⟩
    · rcases hfl with hfl | ⟨identity, hauth, hfl⟩
      · exact hkept f (hfl ▸ hf)
      · rw [hfl] at hf
        rcases mem_append.mp hf with hf | hf
        · exact hkept f hf
        · rw [mem_singleton.mp hf]
          obtain ⟨_, _, row, hrow, _, _, hid⟩ := authenticate_ok hauth
          exact RelayDB.Knows.step h ⟨row, hrow, hid⟩
    · exact hkept f (mem_of_mem_eraseIdx (hfl ▸ hf))
    · exact hkept f (hfl ▸ hf)
  · rcases Relay.step_envelopes c s s' a h with ⟨he, _⟩ | ⟨f, hf, input, _, hdb⟩
    · rw [he]
      exact hrows
    · intro r hr
      rw [hdb] at hr
      exact syncEnvelopes_rows c f.identity input
        (fun r => ∃ identity, s'.db.Knows identity ∧ r.VerifiedBy c identity)
        (fun r hv => ⟨f.identity, hkept f hf, hv⟩) hrows r hr

structure RelayChains (c : Crypto) (s : Relay) : Prop where
  chains : ∀ account device, LinkedChain (s.db.chain account device)
  /-- A stored row is never changed or removed. -/
  kept : ∀ actions t, Runs.run (Relay.step c) s actions = some t →
    s.db.envelopes <+: t.db.envelopes
  /-- A sync request that is answered with an error changes no table. -/
  errors : ∀ i moment f input s' code, s.flights[i]? = some f → f.op = .sync input →
    s.step c (.run i moment) = some s' →
    (f.op.exec c f.identity moment s.db).1.body = .error code → s'.db = s.db
  /-- Neither does one that is not let in. -/
  arrivals : ∀ header op call s', s.step c (.arrive header op call) = some s' → s'.db = s.db

theorem relay_chain_invariant (c : Crypto) (actions : List RelayAction) (s : Relay)
    (hs : Runs.run (Relay.step c) .empty actions = some s) : RelayChains c s := by
  have hlinked : s.db.Linked := RelayDB.Linked.empty.run hs
  refine ⟨hlinked.chains, ?_, ?_, ?_⟩
  · intro actions t ht
    exact (Relay.run_appends c s ht).envelopes
  · intro i moment f input s' code hf hop hstep hcode
    have hdb : s'.db = (syncEnvelopes c f.identity input s.db).2 := by
      simp only [Relay.step, hf, some.injEq] at hstep
      rw [← hstep, Relay.post_db, hop]
      rfl
    rcases syncEnvelopes_cases c f.identity input s.db with ⟨_, _, he⟩ |
      ⟨response, _, _, _, he, _⟩
    · rw [hdb, he]
    · -- A served request is answered with a page.
      rw [hop] at hcode
      change (syncEnvelopes c f.identity input s.db).1.body = _ at hcode
      rw [he] at hcode
      simp at hcode
  · intro header op call s' hstep
    rcases Relay.step_cases hstep with ⟨_, _, _, _, hdb, _⟩ | ⟨_, _, _, ha, _⟩ | ⟨_, _, ha, _⟩
    · exact hdb
    · simp at ha
    · simp at ha

/-- An envelope on top of that of `sampleUpload`. -/
def sampleUploadNext : SyncRequest := { sampleUpload with
  envelopes := sampleUpload.envelopes.map (fun w => { w with
    deviceSeq := 2
    previousHash := base64Encode (fit 32 (putUint32 1 ++ (sampleMoment 0).random.read 16 16 ++
      List.replicate 16 9)) }) }

/-- Two uploads, the second on top of the first. -/
def sampleUploads : List RelayAction := sampleSetup ++
  [.arrive firstHeader (.sync sampleUpload) none, .run 0 (sampleMoment 0),
    .arrive firstHeader (.sync sampleUploadNext) none, .run 0 (sampleMoment 0)]

/-- Both are stored; one more upload, at a cursor that does not exist, is not. -/
theorem relay_chain_invariant_sample : ∃ s : Relay,
    Runs.run (Relay.step sampleCrypto) .empty (sampleUploads ++
      [.arrive firstHeader (.sync { sampleUpload with cursor := 9 }) none,
        .run 0 (sampleMoment 0)]) = some s ∧
    s.db.envelopes.map (fun r => (r.deviceSeq, decide (r.previousHash = []))) =
      [(1, true), (2, false)] ∧ RelayChains sampleCrypto s := by
  apply Runs.exists_some (fun s => s.db.envelopes.map (fun r =>
    (r.deviceSeq, decide (r.previousHash = []))) = [(1, true), (2, false)]) (by decide +kernel)
  intro s hs h
  exact ⟨h, relay_chain_invariant sampleCrypto _ s hs⟩

/-- The envelopes of all accounts as one log. -/
structure RelayLog (c : Crypto) (s : Relay) : Prop where
  ordered : s.db.CursorsOrdered
  /-- Every row is an envelope that its device has signed: the relay has checked the
  signature against the key of the device and account that the row names. -/
  verified : ∀ r ∈ s.db.envelopes, ∃ d ∈ s.db.devices, d.id = r.deviceID ∧
    d.accountID = r.accountID ∧ r.VerifiedBy c d.identity
  /-- What is stored later has cursors above every cursor that was handed out. -/
  appended : ∀ actions t, Runs.run (Relay.step c) s actions = some t → s.db.Appends t.db

theorem relay_log_appended (c : Crypto) (actions : List RelayAction) (s : Relay)
    (hs : Runs.run (Relay.step c) .empty actions = some s) : RelayLog c s where
  ordered := (RelayDB.Linked.empty.run hs).ordered
  verified := by
    have hsigned : SignedRows c s := Runs.run_invariant (SignedRows c) (SignedRows.step c)
      ⟨by simp [Relay.empty], by simp [Relay.empty, RelayDB.empty]⟩ hs
    intro r hr
    obtain ⟨_, ⟨d, hd, rfl⟩, hv⟩ := hsigned.rows r hr
    obtain ⟨wire, e, header, hvalid, hrow⟩ := hv
    exact ⟨d, hd, by rw [hrow]; rfl, by rw [hrow]; rfl, wire, e, header, hvalid, hrow⟩
  appended more t ht := Relay.run_appends c s ht

theorem relay_log_appended_sample : ∃ s : Relay,
    Runs.run (Relay.step sampleCrypto) .empty sampleUploads = some s ∧
    s.db.envelopes.length = 2 ∧ RelayLog sampleCrypto s := by
  apply Runs.exists_some (fun s => s.db.envelopes.length = 2) (by decide +kernel)
  intro s hs h
  exact ⟨h, relay_log_appended sampleCrypto _ s hs⟩

end YunPin
