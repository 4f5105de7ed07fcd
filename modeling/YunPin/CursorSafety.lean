import YunPin.SampleSystem
import YunPin.StoreMerge

/-! The download cursor. Pages are cut by two limits, other devices upload between
pages, and download, merge and cursor write are separate steps; still everything at
or below the persisted cursor has been merged. -/
namespace YunPin
open ByteText List

def RelayDB.Grows (db db' : RelayDB) : Prop :=
  db.lastCursor ≤ db'.lastCursor ∧
    ∀ r ∈ db'.envelopes, r ∈ db.envelopes ∨ db.lastCursor < r.cursor

variable {db db' : RelayDB}

theorem RelayDB.Appends.grows (h : db.Appends db') : db.Grows db' := by
  obtain ⟨hle, more, he, hmore⟩ := h
  refine ⟨hle, ?_⟩
  intro r hr
  rw [he] at hr
  rcases mem_append.mp hr with hr | hr
  · exact .inl hr
  · exact .inr (hmore r hr)

def PageCovers (db : RelayDB) (account : Bytes) (cursor next : ℤ) (page : List WireEnvelope) :
    Prop :=
  next ≤ db.lastCursor ∧ ∀ r ∈ db.envelopes, r.accountID = account → cursor < r.cursor →
    r.cursor ≤ next → r.outgoing ∈ page

theorem PageCovers.grows {account : Bytes} {cursor next : ℤ} {page : List WireEnvelope}
    (h : PageCovers db account cursor next page) (hg : db.Grows db') :
    PageCovers db' account cursor next page := by
  refine ⟨h.1.trans hg.1, ?_⟩
  intro r hr hacc hlo hhi
  rcases hg.2 r hr with hr | hnew
  · exact h.2 r hr hacc hlo hhi
  · exact absurd (hhi.trans h.1) (not_le.mpr hnew)

theorem page_complete {rows page : List EnvelopeRow} {cursor : ℤ}
    (hsorted : rows.Pairwise (fun r r' => r.cursor < r'.cursor))
    (habove : ∀ r ∈ rows, cursor < r.cursor) (hpage : page <+: rows) {r : EnvelopeRow}
    (hr : r ∈ rows) (hle : r.cursor ≤ nextCursor cursor page) : r ∈ page := by
  obtain ⟨rest, rfl⟩ := hpage
  rcases mem_append.mp hr with hin | hafter
  · exact hin
  rcases eq_nil_or_concat' page with rfl | ⟨init, last, rfl⟩
  · -- An empty page does not move the cursor.
    exact absurd (habove r hr) (not_lt.mpr hle)
  · have hlast : nextCursor cursor (init ++ [last]) = last.cursor := by simp [nextCursor]
    have hlt := (pairwise_append.mp hsorted).2.2 last (by simp) r hafter
    rw [hlast] at hle
    omega

theorem served_page_covers {c : Crypto} {identity : DeviceIdentity} {input : SyncRequest}
    (h : db.CursorsOrdered) {response : SyncResponse}
    (hbody : (syncEnvelopes c identity input db).1.body = .sync response) :
    PageCovers (syncEnvelopes c identity input db).2 identity.accountID input.cursor
      response.nextCursor response.envelopes := by
  have hord := syncEnvelopes_ordered c identity input h
  rcases syncEnvelopes_cases c identity input db with ⟨_, _, he⟩ | ⟨resp, db', _, page, he, hs⟩
  · rw [he] at hbody
    simp [writeError] at hbody
  rw [he] at hbody hord ⊢
  obtain rfl : resp = response := by simpa using hbody
  have hmem (r : EnvelopeRow) : r ∈ db'.above identity.accountID input.cursor ↔
      r ∈ db'.envelopes ∧ r.accountID = identity.accountID ∧ input.cursor < r.cursor := by
    simp [RelayDB.above, mem_filter]
  refine ⟨?_, ?_⟩
  · rw [hs.next]
    unfold nextCursor
    split
    · exact hs.cursor_le.trans (accountMaxCursor_le db' hord)
    · rename_i row hlast
      have hin := hs.page_initial.subset (mem_of_getLast? hlast)
      exact (hord.bounds row ((hmem row).mp hin).1).2
  · intro r hr hacc hlo hhi
    rw [hs.envelopes]
    apply mem_map_of_mem
    apply page_complete
      (hord.sorted.sublist filter_sublist) (fun r hr => ((hmem r).mp hr).2.2) hs.page_initial
      ((hmem r).mpr ⟨hr, hacc, hlo⟩)
    rw [← hs.next]
    exact hhi

def DoneBetween (x : Externals) (session : Session) (db : RelayDB) (lo hi : ℤ)
    (done : PhrasePayload → Prop) : Prop :=
  ∀ r ∈ db.envelopes, r.accountID = hexEncode session.accountID → lo < r.cursor → r.cursor ≤ hi →
    ∃ p, decodeDownload x session r.outgoing = .ok p ∧ done p

variable {x : Externals} {session : Session}

theorem DoneBetween.mono {lo hi : ℤ} {done done' : PhrasePayload → Prop}
    (h : DoneBetween x session db lo hi done) (hg : db.Grows db') (hhi : hi ≤ db.lastCursor)
    (hd : ∀ p, done p → done' p) :
    DoneBetween x session db' lo hi done' := by
  intro r hr hacc hlo hle
  rcases hg.2 r hr with hr | hnew
  · obtain ⟨p, hp, hdone⟩ := h r hr hacc hlo hle
    exact ⟨p, hp, hd p hdone⟩
  · exact absurd (hle.trans hhi) (not_le.mpr hnew)

def MergeStage.payload : MergeStage → PhrasePayload
  | .loaded m | .migrated m | .observed m _ => m.payload

/-- Between its reply and its cursor write a worker has merged the page or holds the
rest of it. `asked` tells the cursor of a call of this device. -/
def Phase.Covers (x : Externals) (session : Session) (db : RelayDB) (history : List Event)
    (asked : ℕ → ℤ → Prop) : Phase → Prop
  | .waiting state call => asked call state.cursor
  | .merging state next payloads => next ≤ db.lastCursor ∧
      DoneBetween x session db state.cursor next
        (fun p => p ∈ payloads ∨ Event.merged p ∈ history)
  | .inMerge state next stage rest => next ≤ db.lastCursor ∧
      DoneBetween x session db state.cursor next
        (fun p => p = stage.payload ∨ p ∈ rest ∨ Event.merged p ∈ history)
  | .committed state next => next ≤ db.lastCursor ∧
      DoneBetween x session db state.cursor next (fun p => Event.merged p ∈ history)
  | _ => True

theorem Phase.Covers.mono {history history' : List Event} {asked asked' : ℕ → ℤ → Prop}
    {phase : Phase} (h : phase.Covers x session db history asked) (hg : db.Grows db')
    (hsub : history ⊆ history') (ha : ∀ n c, asked n c → asked' n c) :
    phase.Covers x session db' history' asked' := by
  cases phase with
  | waiting state call => exact ha _ _ h
  | merging state next payloads =>
    exact ⟨h.1.trans hg.1, h.2.mono hg h.1 (fun p hp => hp.imp id (fun hm => hsub hm))⟩
  | inMerge state next stage rest =>
    exact ⟨h.1.trans hg.1, h.2.mono hg h.1
      (fun p hp => hp.imp id (fun hp => hp.imp id (fun hm => hsub hm)))⟩
  | committed state next => exact ⟨h.1.trans hg.1, h.2.mono hg h.1 (fun p hm => hsub hm)⟩
  | _ => trivial

section
variable {κ ι : Type}

def System.AskedAt (s : System κ ι) (k : κ) (n : ℕ) (cursor : ℤ) : Prop :=
  ∃ request, s.calls[n]? = some (k, request) ∧ request.cursor = cursor

structure CursorInv (x : Externals) (cfg : κ → HostConfig) (k : κ) (row : SyncState)
    (s : System κ ι) : Prop where
  ordered : s.relay.db.CursorsOrdered
  state : (s.hosts k).db.syncState = some row
  bound : row.cursor ≤ s.relay.db.lastCursor
  merged : DoneBetween x (cfg k).session s.relay.db 0 row.cursor
    (fun p => Event.merged p ∈ (s.hosts k).history)
  replies : ∀ (n : ℕ) (reply : Reply) (response : SyncResponse), (n, reply) ∈ s.relay.replies →
    reply.body = .sync response → ∃ k' request, s.calls[n]? = some (k', request) ∧
      (k' = k → PageCovers s.relay.db (hexEncode (cfg k).session.accountID) request.cursor
        response.nextCursor response.envelopes)
  phases : ∀ i, ((s.hosts k).phase i).Covers x (cfg k).session s.relay.db (s.hosts k).history
    (s.AskedAt k)

variable {cfg : κ → HostConfig} {s : System κ ι} {row : SyncState}

theorem System.Initial.cursorInv (h : s.Initial x cfg) (k : κ) :
    CursorInv x cfg k ⟨(cfg k).store.deviceID, 0, 1, [], none⟩ s where
  ordered := h.cursors
  state := h.checkpoint k
  bound := h.cursors.nonneg
  merged := fun r _ _ hlo hhi => absurd hlo (not_lt.mpr hhi)
  replies := by simp [h.replies]
  phases := by
    intro i
    rw [h.idle]
    trivial

theorem CursorInv.relay_step (cfg : κ → HostConfig) {k : κ} (ht : Traffic x cfg s)
    (hi : CursorInv x cfg k row s) {a : RelayAction} {r : Relay} (hm : RelayMove x cfg s a)
    (h : s.relay.step x.crypto a = some r) : CursorInv x cfg k row { s with relay := r } := by
  have hg := (Relay.step_appends x.crypto s.relay r a h).grows
  have hord := hi.ordered.step x.crypto s.relay r a h
  refine ⟨hord, hi.state, hi.bound.trans hg.1, hi.merged.mono hg hi.bound (fun _ hp => hp), ?_, ?_⟩
  · intro n reply response hmem hbody
    rcases ht.reply_cases hm h hmem hbody with hold | ⟨k', request, identity, hcall, _, hacc, hdb,
      hanswer⟩
    · obtain ⟨k', request, hcall, hrest⟩ := hi.replies n reply response hold hbody
      exact ⟨k', request, hcall, fun hk => (hrest hk).grows hg⟩
    · refine ⟨k', request, hcall, ?_⟩
      rintro rfl
      have hpage := served_page_covers hi.ordered
        hanswer
      rwa [hacc, ← hdb] at hpage
  · intro i
    exact (hi.phases i).mono hg (List.Subset.refl _) (fun _ _ hn => hn)

variable {k : κ}

theorem CursorInv.congr {s' : System κ ι} (hi : CursorInv x cfg k row s)
    (hhost : s'.hosts k = s.hosts k) (hrelay : s'.relay = s.relay) (hcalls : s.calls <+: s'.calls) :
    CursorInv x cfg k row s' := by
  have hkeep (n : ℕ) (c : κ × SyncRequest) (h : s.calls[n]? = some c) : s'.calls[n]? = some c := by
    obtain ⟨more, hmore⟩ := hcalls
    rw [← hmore]
    exact getElem?_append_of_some h
  refine ⟨hrelay ▸ hi.ordered, hhost ▸ hi.state, hrelay ▸ hi.bound, ?_, ?_, ?_⟩
  · rw [hrelay, hhost]
    exact hi.merged
  · rw [hrelay]
    intro n reply response hmem hbody
    obtain ⟨k', request, hcall, hrest⟩ := hi.replies n reply response hmem hbody
    exact ⟨k', request, hkeep n _ hcall, hrest⟩
  · intro i
    rw [hrelay, hhost]
    exact (hi.phases i).mono ⟨le_rfl, fun r hr => .inl hr⟩ (List.Subset.refl _)
      (fun n c ⟨request, hn, hc⟩ => ⟨request, hkeep n _ hn, hc⟩)

variable {phase' : Phase} {events : List Event}

theorem CursorInv.setHost [DecidableEq κ] [DecidableEq ι] (hi : CursorInv x cfg k row s) (i : ι)
    {db' : LocalDB} {row' : SyncState} (hstate : db'.syncState = some row')
    (hbound : row'.cursor ≤ s.relay.db.lastCursor)
    (hmerged : DoneBetween x (cfg k).session s.relay.db 0 row'.cursor
      (fun p => Event.merged p ∈ (s.hosts k).history ++ events))
    (hphase : phase'.Covers x (cfg k).session s.relay.db ((s.hosts k).history ++ events)
      (s.AskedAt k)) : CursorInv x cfg k row' (s.setHost k i db' phase' events) := by
  refine ⟨hi.ordered, ?_, hbound, ?_, hi.replies, ?_⟩
  · rw [System.setHost_self]
    exact hstate
  · rw [System.setHost_self]
    exact hmerged
  · intro j
    rw [System.setHost_self]
    by_cases hj : j = i
    · subst hj
      simp only [Function.update_self]
      exact hphase
    · simp only [Function.update_of_ne hj]
      exact (hi.phases j).mono ⟨le_rfl, fun r hr => .inl hr⟩ (subset_append_left _ _)
        (fun _ _ hn => hn)

theorem CursorInv.quiet [DecidableEq κ] [DecidableEq ι] (hi : CursorInv x cfg k row s) (i : ι)
    {db' : LocalDB} (hstate : db'.syncState = (s.hosts k).db.syncState)
    (hphase : phase'.Covers x (cfg k).session s.relay.db ((s.hosts k).history ++ events)
      (s.AskedAt k)) : CursorInv x cfg k row (s.setHost k i db' phase' events) := by
  apply hi.setHost i (hstate.trans hi.state) hi.bound ?_ hphase
  exact hi.merged.mono ⟨le_rfl, fun r hr => .inl hr⟩ hi.bound
    (fun p hp => mem_append_left _ hp)

theorem CursorInv.worker_step [DecidableEq κ] [DecidableEq ι] (hi : CursorInv x cfg k row s) {i : ι}
    {a : WorkerAction} {db' : LocalDB}
    (hm : WorkerMove x (cfg k) (s.hosts k).db a ((s.hosts k).phase i) db' phase' events) :
    ∃ row', row.cursor ≤ row'.cursor ∧ CursorInv x cfg k row' (s.setHost k i db' phase' events) := by
  have hcovers := hi.phases i
  have hsub : (s.hosts k).history ⊆ (s.hosts k).history ++ events := subset_append_left _ _
  have hrow (row' : SyncState) (h : (s.hosts k).db.syncState = some row') : row' = row :=
    Option.some.inj (h.symm.trans hi.state)
  generalize hph : (s.hosts k).phase i = phase at hm hcovers
  cases hm with
  | stage event u row' hr =>
    obtain rfl := hrow row' hr
    refine ⟨{ row' with prepared := some u }, le_rfl, hi.setHost i rfl hi.bound ?_ trivial⟩
    exact hi.merged.mono ⟨le_rfl, fun r hr => .inl hr⟩ hi.bound (fun p hp => hsub hp)
  | mergeLoad state next payload rest m h =>
    refine ⟨row, le_rfl, hi.quiet i rfl ⟨hcovers.1, ?_⟩⟩
    refine hcovers.2.mono ⟨le_rfl, fun r hr => .inl hr⟩ hcovers.1 ?_
    rintro p (hp | hp)
    · rcases mem_cons.mp hp with rfl | hp
      · exact .inl (mergeLoad_ok h).1.symm
      · exact .inr (.inl hp)
    · exact .inr (.inr (hsub hp))
  | migrateFail state next m rest now e db' h =>
    have hdb := migrate_sameRows (cfg k).store now m (s.hosts k).db
    rw [h] at hdb
    exact ⟨row, le_rfl, hi.quiet i hdb.syncState trivial⟩
  | migrate state next m m' rest now db' h =>
    have hdb := migrate_sameRows (cfg k).store now m (s.hosts k).db
    rw [h] at hdb
    refine ⟨row, le_rfl, hi.quiet i hdb.syncState ⟨hcovers.1, ?_⟩⟩
    refine hcovers.2.mono ⟨le_rfl, fun r hr => .inl hr⟩ hcovers.1 ?_
    rintro p (hp | hp)
    · exact .inl (hp.trans (migrate_ok h).1.symm)
    · exact .inr (hp.imp id (fun hm => hsub hm))
  | observe state next m record rest h =>
    refine ⟨row, le_rfl, hi.quiet i (observeHLC_sameRows _ _).syncState ⟨hcovers.1, ?_⟩⟩
    exact hcovers.2.mono ⟨le_rfl, fun r hr => .inl hr⟩ hcovers.1
      (fun p hp => hp.imp id (fun hp => hp.imp id (fun hm => hsub hm)))
  | write state next m record rest id h =>
    refine ⟨row, le_rfl, hi.quiet i (write_syncState) ⟨hcovers.1, ?_⟩⟩
    refine hcovers.2.mono ⟨le_rfl, fun r hr => .inl hr⟩ hcovers.1 ?_
    rintro p (rfl | hp | hp)
    · exact .inr (mem_append_right _ (mem_singleton_self _))
    · exact .inl hp
    · exact .inr (hsub hp)
  | commit state next loaded upload row' hl hr hp =>
    obtain rfl := hrow row' hr
    refine ⟨_, ?_, hi.setHost i rfl hi.bound ?_ ⟨hcovers.1, ?_⟩⟩
    · exact le_rfl
    · exact hi.merged.mono ⟨le_rfl, fun r hr => .inl hr⟩ hi.bound (fun p hp => hsub hp)
    · refine hcovers.2.mono ⟨le_rfl, fun r hr => .inl hr⟩ hcovers.1 ?_
      rintro p (hp | hp)
      · simp at hp
      · exact hsub hp
  | advance state next ph row' hph' hc hr he =>
    obtain rfl := hrow row' hr
    -- The page was merged from this very cursor on.
    obtain ⟨hnext, hdone⟩ : next ≤ s.relay.db.lastCursor ∧ DoneBetween x (cfg k).session
        s.relay.db state.cursor next (fun p => Event.merged p ∈ (s.hosts k).history) := by
      rcases hph' with ⟨rfl, _⟩ | rfl
      · refine ⟨hcovers.1, hcovers.2.mono ⟨le_rfl, fun r hr => .inl hr⟩ hcovers.1 ?_⟩
        rintro p (hp | hp)
        · simp at hp
        · exact hp
      · exact hcovers
    refine ⟨{ row' with cursor := next }, he ▸ hc.2, hi.setHost i rfl hnext ?_ trivial⟩
    rw [append_nil]
    intro r hr hacc hlo hhi
    rcases le_or_gt r.cursor row'.cursor with hle | hgt
    · exact hi.merged r hr hacc hlo hle
    · exact hdone r hr hacc (he ▸ hgt) hhi
  | load state | keep | seal_ | restage | reload | stop =>
    exact ⟨row, le_rfl, hi.quiet i rfl trivial⟩

theorem CursorInv.onReply_covers (hi : CursorInv x cfg k row s) {state : SyncState} {call : ℕ}
    {reply : Reply} (hasked : s.AskedAt k call state.cursor)
    (hr : (call, reply) ∈ s.relay.replies) :
    (onReply x (cfg k).session state reply).Covers x (cfg k).session s.relay.db
      (s.hosts k).history (s.AskedAt k) := by
  rcases onReply_cases x (cfg k).session state reply with h | ⟨response, payloads, hres, _, hdec, h⟩
  · rw [h]
    trivial
  rw [h]
  obtain ⟨request, hcall, hcursor⟩ := hasked
  obtain ⟨k', request', hcall', hrest⟩ := hi.replies call reply response hr
    (clientResponse_ok hres).2
  obtain ⟨rfl, rfl⟩ := Prod.mk.inj (Option.some.inj (hcall'.symm.trans hcall))
  obtain ⟨hnext, hpage⟩ := hrest rfl
  refine ⟨hnext, ?_⟩
  intro r hmem hacc hlo hhi
  obtain ⟨p, hp, hd⟩ := decodeDownloads_mem hdec (hpage r hmem hacc (hcursor ▸ hlo) hhi)
  exact ⟨p, hd, .inl hp⟩

theorem CursorInv.step [DecidableEq κ] [Fintype κ] [DecidableEq ι] (cfg : κ → HostConfig)
    {s' : System κ ι} {a : Action κ ι} (ht : Traffic x cfg s) (hi : CursorInv x cfg k row s)
    (h : s.step x cfg a = some s') :
    ∃ row', row.cursor ≤ row'.cursor ∧ CursorInv x cfg k row' s' := by
  rcases System.step_cases cfg h with ⟨ra, r, hm, hr, rfl⟩ |
    ⟨k', i, db', phase', events, hm, rfl⟩ | ⟨k', i, state, request, hph, hreq, rfl⟩
  · exact ⟨row, le_rfl, hi.relay_step cfg ht hm hr⟩
  · by_cases hk : k = k'
    · subst hk
      have hphase (events : List Event) : ((s.hosts k).phase i).Covers x (cfg k).session
          s.relay.db ((s.hosts k).history ++ events) (s.AskedAt k) :=
        (hi.phases i).mono ⟨le_rfl, fun r hr => .inl hr⟩ (subset_append_left _ _)
          (fun _ _ hn => hn)
      cases hm with
      | mutate m now _ =>
        exact ⟨row, le_rfl, hi.quiet i (m.exec_move x _ now _).syncState (hphase _)⟩
      | tick => exact ⟨row, le_rfl, hi.quiet i rfl (hphase _)⟩
      | worker wa _ _ _ hw => exact hi.worker_step hw
      | giveUp => exact ⟨row, le_rfl, hi.quiet i rfl trivial⟩
      | receive n state call reply hph hr =>
        have hw := hi.phases i
        rw [hph] at hw
        refine ⟨row, le_rfl, hi.quiet i rfl ?_⟩
        rw [append_nil]
        exact hi.onReply_covers hw hr
    · exact ⟨row, le_rfl, hi.congr (System.setHost_ne s i db' phase' events hk) rfl
        (prefix_rfl)⟩
  · by_cases hk : k = k'
    · subst hk
      have hcalls : CursorInv x cfg k row { s with calls := s.calls ++ [(k, request)] } :=
        hi.congr rfl rfl (prefix_append _ _)
      refine ⟨row, le_rfl, hcalls.quiet i rfl ?_⟩
      exact ⟨request, by simp, (syncRequest_ok hreq).1⟩
    · exact ⟨row, le_rfl, hi.congr (System.setHost_ne s i _ _ _ hk) rfl
        (prefix_append _ _)⟩

/-- Everything of the account at or below the persisted cursor of a device was passed
to `MergeRemotePayload` there with success, in every state of every run, and the
cursor never moves back. -/
theorem cursor_safety [DecidableEq κ] [Fintype κ] [DecidableEq ι] (x : Externals)
    (cfg : κ → HostConfig) (s t u : System κ ι) (h0 : s.Initial x cfg)
    (actions more : List (Action κ ι)) (h : Runs.run (System.step x cfg) s actions = some t)
    (h' : Runs.run (System.step x cfg) t more = some u) (k : κ) :
    ∃ row row', (t.hosts k).db.syncState = some row ∧ (u.hosts k).db.syncState = some row' ∧
      row.cursor ≤ row'.cursor ∧
      ∀ r ∈ t.relay.db.envelopes, r.accountID = hexEncode (cfg k).session.accountID →
        r.cursor ≤ row.cursor → ∃ p, decodeDownload x (cfg k).session r.outgoing = .ok p ∧
          Event.merged p ∈ (t.hosts k).history := by
  have hstep (c : ℤ) (v : System κ ι) (a : Action κ ι) (v' : System κ ι)
      (hv : Traffic x cfg v ∧ ∃ row, c ≤ row.cursor ∧ CursorInv x cfg k row v)
      (ha : v.step x cfg a = some v') :
      Traffic x cfg v' ∧ ∃ row, c ≤ row.cursor ∧ CursorInv x cfg k row v' := by
    obtain ⟨ht, row, hc, hi⟩ := hv
    obtain ⟨row', hle, hi'⟩ := hi.step cfg ht ha
    exact ⟨ht.step cfg ha, row', hc.trans hle, hi'⟩
  obtain ⟨ht, row, _, hi⟩ := Runs.run_invariant _ (hstep 0)
    ⟨h0.traffic, _, le_rfl, h0.cursorInv k⟩ h
  obtain ⟨_, row', hle, hi'⟩ := Runs.run_invariant _ (hstep row.cursor) ⟨ht, row, le_rfl, hi⟩ h'
  refine ⟨row, row', hi.state, hi'.state, hle, ?_⟩
  intro r hr hacc hhi
  have hpos := (hi.ordered.bounds r hr).1
  exact hi.merged r hr hacc (by omega) hhi

end

/-- The right device gets the upload of the left one, dies in the middle of the page
and starts over. -/
def interruptedDownload : List (Action Bool Unit) :=
  [.mutate false () (.save (samplePhrase "a")) sampleReading] ++ uploadSteps false () ++
    serveCall 0 ++ pollSteps true () ++ serveCall 1 ++ [.receive true () 1] ++
    mergeSteps true () ++ [.worker true () .crash] ++ pollSteps true () ++ serveCall 2 ++
    [.receive true () 2] ++ mergeSteps true () ++ [.worker true () .advance]

theorem cursor_safety_interrupted : ∃ t,
    Runs.run (System.step sampleExternals sampleConfig) (sampleSystem Unit) interruptedDownload =
      some t ∧
    (t.hosts true).db.syncState.map (·.cursor) = some 1 ∧ t.relay.db.envelopes.length = 1 ∧
    ∃ row row', (t.hosts true).db.syncState = some row ∧ (t.hosts true).db.syncState = some row' ∧
      row.cursor ≤ row'.cursor ∧
      ∀ r ∈ t.relay.db.envelopes, r.accountID = hexEncode (sampleSession true).accountID →
        r.cursor ≤ row.cursor → ∃ p, decodeDownload sampleExternals (sampleSession true) r.outgoing =
          .ok p ∧ Event.merged p ∈ (t.hosts true).history := by
  apply Runs.exists_some (fun t => (t.hosts true).db.syncState.map (·.cursor) = some 1 ∧
    t.relay.db.envelopes.length = 1) (by decide +kernel)
  rintro t ht ⟨hcursor, hlen⟩
  exact ⟨hcursor, hlen, cursor_safety sampleExternals sampleConfig _ t t
    (sampleSystem_initial Unit) interruptedDownload [] ht rfl true⟩

end YunPin
