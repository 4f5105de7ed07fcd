import YunPin.CursorSafety

/-! Two agents that merge into one database. A merge reads a record, computes, and
writes later; in between another process may write the same record. The cursor is
guarded by a compare-and-swap, the record is not. -/
namespace YunPin
open ByteText Option

/-- The merge in hand is about its own object, and it starts from the record it has
read unless that one had no state. -/
structure Merge.Sound (m : Merge) : Prop where
  payload : m.payload.state.Good m.id
  existing : ∀ old, m.read = some old → old.crdt.objectID ≠ [] → m.existing = some old

def Phase.MergeSound (x : Externals) (store : Store) : Phase → Prop
  | .inMerge _ _ (.loaded m) _ => m.Sound
  | .inMerge _ _ (.migrated m) _ => m.Sound
  | .inMerge _ _ (.observed m record) _ => m.Sound ∧ m.record x store = .ok record
  | _ => True

def LocalDB.Absorbed (db : LocalDB) (p : PhrasePayload) : Prop :=
  ∃ id record, p.state.objectID = hexEncode id.val ∧ db.phrases.find? id = some record ∧
    Dominated p.state record.crdt

structure MergeInv (x : Externals) (store : Store) {ι : Type} (h : Host ι) : Prop where
  absorbed : ∀ p, Event.merged p ∈ h.history → h.db.Absorbed p
  phases : ∀ i, (h.phase i).MergeSound x store

/-- A merge that finds the record it has read still in place keeps everything
absorbed that was absorbed before, and absorbs its payload. -/
theorem write_absorbs {x : Externals} {store : Store} {db : LocalDB} {m : Merge} {record : Phrase}
    (hm : m.Sound) (hr : m.record x store = .ok record)
    (hread : db.phrases.find? m.id = m.read) {p : PhrasePayload}
    (hp : p = m.payload ∨ db.Absorbed p) :
    (db.write m.id (jsonPhrase record) false).Absorbed p := by
  obtain ⟨merged, _, _, hgood, _, hle, hold⟩ := merge_record_ok hm.payload hr
  have hcrdt : (jsonPhrase record).crdt = record.crdt := hgood.json
  have hself : (db.write m.id (jsonPhrase record) false).phrases.find? m.id =
      some (jsonPhrase record) := by
    rw [write_phrases, SortedMap.find?_insert_self]
  rcases hp with rfl | ⟨id, old, hobj, hfind, hdom⟩
  · refine ⟨m.id, _, hm.payload.objectID, hself, ?_⟩
    rw [hcrdt]
    exact (hm.payload.dominated_iff hgood).mpr hle
  · by_cases hid : id = m.id
    · subst hid
      refine ⟨m.id, _, hobj, hself, ?_⟩
      -- The old record had a state, so the merge started from it.
      obtain ⟨hne, hsame, _⟩ := (dominated_iff _ _).mp hdom
      have hex : m.existing = some old := hm.existing old (hread.symm.trans hfind)
        (by rw [← hsame]; exact hne)
      obtain ⟨hoid, hview⟩ := hold old hex
      rw [hcrdt]
      refine hdom.trans ((dominated_iff _ _).mpr ⟨?_, ?_, ?_⟩)
      · rw [← hsame]
        exact hne
      · rw [hoid, hgood.objectID]
      · rw [hview]
        exact le_sup_left
    · refine ⟨id, old, hobj, ?_, hdom⟩
      rw [write_phrases, SortedMap.find?_insert_ne _ _ _ _ hid]
      exact hfind

section
variable {κ ι : Type}

def MergesRead (s : System κ ι) : Action κ ι → Prop
  | .worker k i .mergeWrite =>
    match (s.hosts k).phase i with
    | .inMerge _ _ (.observed m _) _ => (s.hosts k).db.phrases.find? m.id = m.read
    | _ => True
  | _ => True

instance (s : System κ ι) (a : Action κ ι) : Decidable (MergesRead s a) := by
  unfold MergesRead
  split
  · split <;> infer_instance
  · infer_instance

def Action.mutatesOn [DecidableEq κ] (k : κ) : Action κ ι → Bool
  | .mutate k' _ _ _ => k' = k
  | _ => false

variable {x : Externals} {h : Host ι}

variable {store : Store} {db' : LocalDB} {phase' : Phase} {events : List Event}

theorem MergeInv.host_step [DecidableEq ι] (hi : MergeInv x store h) (i : ι)
    (habs : ∀ p, h.db.Absorbed p → db'.Absorbed p)
    (hnew : ∀ p, Event.merged p ∈ events → db'.Absorbed p) (hphase : phase'.MergeSound x store) :
    MergeInv x store ⟨db', Function.update h.phase i phase', h.history ++ events⟩ := by
  refine ⟨?_, ?_⟩
  · intro p hp
    rcases List.mem_append.mp hp with hp | hp
    · exact habs p (hi.absorbed p hp)
    · exact hnew p hp
  · intro j
    by_cases hj : j = i
    · subst hj
      simp only [Function.update_self]
      exact hphase
    · simp only [Function.update_of_ne hj]
      exact hi.phases j

theorem MergeInv.quiet [DecidableEq ι] (hi : MergeInv x store h) (i : ι)
    (hdb : db'.phrases = h.db.phrases) (hev : ∀ p, Event.merged p ∉ events)
    (hphase : phase'.MergeSound x store) :
    MergeInv x store ⟨db', Function.update h.phase i phase', h.history ++ events⟩ := by
  apply hi.host_step i ?_ (fun p hp => absurd hp (hev p)) hphase
  rintro p ⟨id, record, hobj, hfind, hdom⟩
  exact ⟨id, record, hobj, by rw [hdb]; exact hfind, hdom⟩

theorem MergeInv.worker_step [DecidableEq ι] {cfg : HostConfig} (hi : MergeInv x cfg.store h)
    {i : ι} {a : WorkerAction} (hm : WorkerMove x cfg h.db a (h.phase i) db' phase' events)
    (hread : ∀ state next m record rest, a = .mergeWrite →
      h.phase i = .inMerge state next (.observed m record) rest →
      h.db.phrases.find? m.id = m.read) :
    MergeInv x cfg.store ⟨db', Function.update h.phase i phase', h.history ++ events⟩ := by
  have hsound := hi.phases i
  generalize hph : h.phase i = phase at hm hsound hread
  cases hm with
  | mergeLoad state next payload rest m hload =>
    obtain ⟨hpay, _, hgood, hrd, hexist⟩ := mergeLoad_ok hload
    refine hi.quiet i rfl (by simp) ⟨by rw [hpay]; exact hgood, ?_⟩
    intro old hold _
    rw [hexist, hold]
  | migrateFail state next m rest now e db' hmig =>
    have hdb := migrate_sameRows cfg.store now m h.db
    rw [hmig] at hdb
    exact hi.quiet i hdb.phrases (by simp) trivial
  | migrate state next m m' rest now db' hmig =>
    have hdb := migrate_sameRows cfg.store now m h.db
    rw [hmig] at hdb
    obtain ⟨hpay, hid, hrd, hexist⟩ := migrate_ok hmig
    refine hi.quiet i hdb.phrases (by simp) ⟨by rw [hpay, hid]; exact hsound.payload, ?_⟩
    intro old hold hne
    have hsame := hsound.existing old (hrd ▸ hold) hne
    rcases hexist with he | ⟨old', he, hlegacy⟩
    · rw [he, hsame]
    · -- A record with a state is not migrated.
      obtain rfl : old = old' := some.inj (hsame.symm.trans he)
      exact absurd hlegacy hne
  | observe state next m record rest hrec =>
    exact hi.quiet i (observeHLC_sameRows _ _).phrases (by simp) ⟨hsound, hrec⟩
  | write state next m record rest id hid =>
    -- The only case that writes, and the only one that needs what the merge read to be current.
    obtain ⟨hm, hrec⟩ := hsound
    obtain ⟨_, _, _, _, hown, _⟩ := merge_record_ok hm.payload hrec
    obtain rfl : id = m.id := Except.ok.inj (hid.symm.trans hown)
    have hin := hread state next m record rest rfl rfl
    apply hi.host_step
    · intro p hp
      exact write_absorbs hm hrec hin (.inr hp)
    · intro p hp
      obtain rfl : p = m.payload := by simpa using hp
      exact write_absorbs hm hrec hin (.inl rfl)
    · trivial
  | commit | advance | stage | stop | load | keep | seal_ | restage | reload =>
    exact hi.quiet i rfl (by simp) trivial

theorem MergeInv.step [DecidableEq κ] [Fintype κ] [DecidableEq ι] (cfg : κ → HostConfig) {k : κ}
    {s s' : System κ ι} {a : Action κ ι} (hi : MergeInv x (cfg k).store (s.hosts k))
    (hlocal : a.mutatesOn k = false) (hread : MergesRead s a) (h : s.step x cfg a = some s') :
    MergeInv x (cfg k).store (s'.hosts k) := by
  apply System.host_preserved h (MergeInv x (cfg k).store) hi
  · intro i db' phase' events hm
    cases hm with
    | mutate => simp [Action.mutatesOn] at hlocal
    | tick => exact hi.quiet i rfl (by simp) (hi.phases i)
    | worker wa _ _ _ hw =>
      apply hi.worker_step hw
      rintro state next m record rest rfl hph
      simpa only [MergesRead, hph] using hread
    | giveUp => exact hi.quiet i rfl (by simp) trivial
    | receive n state call reply _ _ =>
      apply hi.quiet i rfl (by simp)
      rcases onReply_cases x (cfg k).session state reply with he | ⟨_, _, _, _, _, he⟩ <;>
        rw [he] <;> trivial
  · intro i state _
    exact hi.quiet i rfl (by simp) trivial

/-- Any number of sync loops on one database: the stored records are above every
envelope at or below the persisted cursor, in every run without local operations in
which each merge writes over the record it has read. -/
theorem concurrent_merges_absorbed [DecidableEq κ] [Fintype κ] [DecidableEq ι] (x : Externals)
    (cfg : κ → HostConfig) (s t : System κ ι) (h0 : s.Initial x cfg) (k : κ)
    (actions : List (Action κ ι))
    (h : Runs.run (Runs.restrict (fun u a => a.mutatesOn k = false ∧ MergesRead u a)
      (System.step x cfg)) s actions = some t) :
    ∃ row, (t.hosts k).db.syncState = some row ∧
      ∀ r ∈ t.relay.db.envelopes, r.accountID = hexEncode (cfg k).session.accountID →
        r.cursor ≤ row.cursor → ∃ p, decodeDownload x (cfg k).session r.outgoing = .ok p ∧
          (t.hosts k).db.Absorbed p := by
  have hinv : Traffic x cfg t ∧ MergeInv x (cfg k).store (t.hosts k) ∧
      ∃ row, CursorInv x cfg k row t := by
    apply Runs.run_invariant (fun u => Traffic x cfg u ∧ MergeInv x (cfg k).store (u.hosts k) ∧
      ∃ row, CursorInv x cfg k row u) ?_ ?_ h
    · rintro u a u' ⟨ht, hm, row, hc⟩ hu
      obtain ⟨⟨hlocal, hread⟩, hu⟩ := Runs.restrict_some hu
      obtain ⟨row', _, hc'⟩ := hc.step cfg ht hu
      exact ⟨ht.step cfg hu, hm.step cfg hlocal hread hu, row', hc'⟩
    · refine ⟨h0.traffic, ⟨by simp [h0.history], ?_⟩, _, h0.cursorInv k⟩
      intro i
      rw [h0.idle]
      trivial
  obtain ⟨_, hm, row, hc⟩ := hinv
  refine ⟨row, hc.state, ?_⟩
  intro r hr hacc hhi
  have hpos := (hc.ordered.bounds r hr).1
  obtain ⟨p, hp, hmerged⟩ := hc.merged r hr hacc (by omega) hhi
  exact ⟨p, hp, hm.absorbed p hmerged⟩

end

/-- The left device pins a phrase and later unpins it. On the right one, the first
agent is about to write the pin when the second one merges both and advances. -/
def overtakenMerge : List (Action Bool Bool) :=
  [.mutate false false (.save (samplePhrase "a")) sampleReading] ++ uploadSteps false false ++
    serveCall 0 ++ pollSteps true false ++ serveCall 1 ++ [.receive false false 0] ++
    mergeSteps false false ++ [.worker false false .commit, .worker false false .advance,
    .mutate false false (.save { samplePhrase "a" with pinned := false }) sampleReading] ++
    uploadSteps false false ++ serveCall 2 ++ pollSteps true true ++ serveCall 3 ++
    [.receive true false 1, .worker true false .mergeLoad,
    .worker true false (.mergeMigrate sampleReading), .worker true false .mergeObserve,
    .receive true true 3] ++ mergeSteps true true ++ mergeSteps true true ++
    [.worker true true .advance]

theorem not_dominated_of_pin {s t : PhraseState}
    (h : t.pinned.clock.compare s.pinned.clock < 0) : ¬Dominated s t := by
  intro hd
  have hpin := ((view_le_iff s t).mp ((dominated_iff s t).mp hd).2.2).2.1
  have hlt : t.pinned.view < s.pinned.view :=
    Prod.Lex.toLex_lt_toLex.mpr (.inl ((HLC.compare_neg_iff).mp h))
  exact absurd hpin (not_le.mpr hlt)

/-- Whether the record of the payload's object has an older pin than the payload. -/
def LocalDB.lacksPin (db : LocalDB) (p : PhrasePayload) : Bool :=
  db.phrases.entries.any (fun e => p.state.objectID = hexEncode e.1.val ∧
    e.2.crdt.pinned.clock.compare p.state.pinned.clock < 0)

theorem not_absorbed_of_lacksPin {db : LocalDB} {p : PhrasePayload} (h : db.lacksPin p = true) :
    ¬db.Absorbed p := by
  rintro ⟨id, record, hobj, hfind, hdom⟩
  obtain ⟨e, he, hlt⟩ := List.any_eq_true.mp h
  obtain ⟨hid, hpin⟩ := of_decide_eq_true hlt
  obtain rfl : e.1 = id := ObjectID.hex_injective (hid.symm.trans hobj)
  obtain rfl : e.2 = record := some.inj
    (((SortedMap.find?_eq_some_iff _ _ _).mpr he).symm.trans hfind)
  exact not_dominated_of_pin hpin hdom

/-- The late write of the first agent undoes the merge of the second one, below the
cursor. -/
theorem merge_lost_below_cursor : ∃ t,
    Runs.run (System.step sampleExternals sampleConfig) (sampleSystem Bool)
      (overtakenMerge ++ [.worker true false .mergeWrite]) = some t ∧
    (∀ a ∈ overtakenMerge ++ [.worker true false .mergeWrite], a.mutatesOn true = false) ∧
    ∃ row, (t.hosts true).db.syncState = some row ∧ ∃ r ∈ t.relay.db.envelopes,
      r.accountID = hexEncode (sampleSession true).accountID ∧ r.cursor ≤ row.cursor ∧
      ∃ p, decodeDownload sampleExternals (sampleSession true) r.outgoing = .ok p ∧
        ¬(t.hosts true).db.Absorbed p := by
  apply Runs.exists_some (fun t => ∃ row ∈ (t.hosts true).db.syncState,
    ∃ r ∈ t.relay.db.envelopes, r.accountID = hexEncode (sampleSession true).accountID ∧
      r.cursor ≤ row.cursor ∧
      ∃ p ∈ (decodeDownload sampleExternals (sampleSession true) r.outgoing).toOption,
        (t.hosts true).db.lacksPin p = true) (by decide +kernel)
  rintro t - ⟨row, hrow, r, hr, hacc, hle, p, hp, hpin⟩
  exact ⟨by decide, row, hrow, r, hr, hacc, hle, p, toOption_eq_some hp,
    not_absorbed_of_lacksPin hpin⟩

/-- Before that write all is well. -/
theorem concurrent_merges_absorbed_sample : ∃ t,
    Runs.run (Runs.restrict (fun u a => a.mutatesOn true = false ∧ MergesRead u a)
      (System.step sampleExternals sampleConfig)) (sampleSystem Bool) overtakenMerge = some t ∧
    (t.hosts true).db.syncState.map (·.cursor) = some 2 ∧
    ∃ row, (t.hosts true).db.syncState = some row ∧
      ∀ r ∈ t.relay.db.envelopes, r.accountID = hexEncode (sampleSession true).accountID →
        r.cursor ≤ row.cursor →
        ∃ p, decodeDownload sampleExternals (sampleSession true) r.outgoing = .ok p ∧
          (t.hosts true).db.Absorbed p := by
  apply Runs.exists_some (fun t => (t.hosts true).db.syncState.map (·.cursor) = some 2)
    (by decide +kernel)
  intro t ht h
  exact ⟨h, concurrent_merges_absorbed sampleExternals sampleConfig _ t (sampleSystem_initial Bool)
    true overtakenMerge ht⟩

end YunPin
