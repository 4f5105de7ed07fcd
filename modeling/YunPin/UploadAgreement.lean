import YunPin.SampleSystem
import YunPin.UploadChain

/-! Agreement of a device with the relay about its upload chain, along every run. -/
namespace YunPin
open ByteText List Option

/-- How a checkpoint stands to the staged uploads and to the number of them that
the relay has stored: either everything is stored and acknowledged, or one upload
is staged and the relay may have it or not. -/
inductive Checkpoint (uploads : List PreparedUpload) (stored : ℕ) (row : SyncState) : Prop
  | settled (hp : row.prepared = none) (hn : row.nextDeviceSequence = uploads.length+1)
      (hh : row.previousHash = hashAt uploads uploads.length) (hs : stored = uploads.length)
  | staged (init : List PreparedUpload) (u : PreparedUpload) (hu : uploads = init ++ [u])
      (hp : row.prepared = some u) (hn : row.nextDeviceSequence = init.length+1)
      (hh : row.previousHash = hashAt uploads init.length) (hs : init.length ≤ stored)

variable {uploads : List PreparedUpload} {row : SyncState}

theorem Checkpoint.length_le {stored : ℕ} (h : Checkpoint uploads stored row) :
    uploads.length ≤ stored+1 := by
  cases h with
  | settled _ _ _ hs => omega
  | staged init u hu _ _ _ hs => simp [hu, hs]

theorem Checkpoint.mono {stored stored' : ℕ} (h : Checkpoint uploads stored row)
    (hle : stored ≤ stored') (hmax : stored' ≤ uploads.length) :
    Checkpoint uploads stored' row := by
  cases h with
  | settled hp hn hh hs => exact .settled hp hn hh (by omega)
  | staged init u hu hp hn hh hs => exact .staged init u hu hp hn hh (by omega)

theorem Checkpoint.prepared_mem {stored : ℕ} (h : Checkpoint uploads stored row)
    (u : PreparedUpload) (hu : row.prepared = some u) :
    u ∈ uploads := by
  cases h with
  | settled hp => simp [hp] at hu
  | staged init v hv hp =>
    obtain rfl : v = u := some.inj (hp.symm.trans hu)
    simp [hv]

def SyncState.NotAfter (row row' : SyncState) : Prop :=
  row.nextDeviceSequence ≤ row'.nextDeviceSequence ∧
    (row.nextDeviceSequence = row'.nextDeviceSequence → row.previousHash = row'.previousHash)

theorem SyncState.NotAfter.trans {a b c : SyncState} (hab : a.NotAfter b) (hbc : b.NotAfter c) :
    a.NotAfter c := by
  refine ⟨hab.1.trans hbc.1, ?_⟩
  intro h
  have hb : a.nextDeviceSequence = b.nextDeviceSequence := le_antisymm hab.1 (h ▸ hbc.1)
  exact (hab.2 hb).trans (hbc.2 (hb ▸ h))

/-- What a worker holds in its hands is consistent with the chain, even when the
database has moved on. `mine` tells which calls are this device's. -/
def Phase.Follows (x : Externals) (session : Session) (uploads : List PreparedUpload) (stored : ℕ)
    (row : SyncState) (mine : ℕ → Prop) : Phase → Prop
  | .idle | .staged => True
  | .loaded state => state.NotAfter row ∧ ∀ u, state.prepared = some u → u ∈ uploads
  | .sealed _ u => ∃ previous, SealedOn x session previous u ∧
      u.deviceSequence ≤ row.nextDeviceSequence ∧
      (u.deviceSequence = row.nextDeviceSequence → previous = row.previousHash)
  | .ready state => ∀ u, state.prepared = some u → u ∈ uploads
  | .waiting state call => (∀ u, state.prepared = some u → u ∈ uploads) ∧ mine call
  | .merging state _ _ | .inMerge state _ _ _ | .committed state _ =>
      ∀ u, state.prepared = some u → u ∈ uploads ∧ u.deviceSequence ≤ stored

theorem Phase.Follows.mono {x : Externals} {session : Session} {uploads' : List PreparedUpload}
    {stored stored' : ℕ} {row' : SyncState} {mine mine' : ℕ → Prop} {phase : Phase}
    (h : phase.Follows x session uploads stored row mine) (hu : uploads ⊆ uploads')
    (hs : stored ≤ stored') (hr : row.NotAfter row') (hm : ∀ n, mine n → mine' n) :
    phase.Follows x session uploads' stored' row' mine' := by
  cases phase with
  | idle => trivial
  | staged => trivial
  | loaded state => exact ⟨h.1.trans hr, fun u hp => hu (h.2 u hp)⟩
  | sealed event u =>
    obtain ⟨previous, hsealed, hle, heq⟩ := h
    refine ⟨previous, hsealed, hle.trans hr.1, ?_⟩
    intro he
    have hnext : u.deviceSequence = row.nextDeviceSequence := le_antisymm hle (he ▸ hr.1)
    exact (heq hnext).trans (hr.2 (hnext ▸ he))
  | ready state => exact fun u hp => hu (h u hp)
  | waiting state call => exact ⟨fun u hp => hu (h.1 u hp), hm _ h.2⟩
  | merging state next payloads | inMerge state next stage rest | committed state next =>
    exact fun u hp => ⟨hu (h u hp).1, (h u hp).2.trans hs⟩

section
variable {κ ι : Type}

def System.chainOf (cfg : κ → HostConfig) (s : System κ ι) (k : κ) : List EnvelopeRow :=
  s.relay.db.chain (hexEncode (cfg k).session.accountID) (hexEncode (cfg k).session.deviceID)

def System.CallOf (s : System κ ι) (k : κ) (n : ℕ) : Prop :=
  ∃ request, s.calls[n]? = some (k, request)

/-- The invariant that ties the checkpoint of device `k`, its workers, its requests
and the replies to them to the chain on the relay. -/
structure UploadInv (x : Externals) (cfg : κ → HostConfig) (k : κ) (row : SyncState)
    (s : System κ ι) : Prop where
  state : (s.hosts k).db.syncState = some row
  chained : Chained x (cfg k).session (s.hosts k).uploads
  holds : HoldsInitial (s.chainOf cfg k) (s.hosts k).uploads
  checkpoint : Checkpoint (s.hosts k).uploads (s.chainOf cfg k).length row
  calls : ∀ (n : ℕ) (request : SyncRequest), s.calls[n]? = some (k, request) →
    request.envelopes = [] ∨ ∃ u ∈ (s.hosts k).uploads, request.envelopes = [u.wire]
  replies : ∀ (n : ℕ) (reply : Reply) (response : SyncResponse), (n, reply) ∈ s.relay.replies →
    reply.body = .sync response → ∃ k' request, s.calls[n]? = some (k', request) ∧
      (k' = k → response.rejectedSequences = [] ∧
        ∀ q ∈ response.acceptedSequences, q ≤ (s.chainOf cfg k).length)
  committed : ∀ u, Event.committed u ∈ (s.hosts k).history →
    u ∈ (s.hosts k).uploads ∧ u.deviceSequence ≤ (s.chainOf cfg k).length
  phases : ∀ i, ((s.hosts k).phase i).Follows x (cfg k).session (s.hosts k).uploads
    (s.chainOf cfg k).length row (s.CallOf k)

variable {x : Externals} {cfg : κ → HostConfig} {k : κ} {s : System κ ι}

theorem System.Initial.uploadInv (h : s.Initial x cfg) (k : κ) :
    UploadInv x cfg k ⟨(cfg k).store.deviceID, 0, 1, [], none⟩ s where
  state := h.checkpoint k
  chained := by simp [Host.uploads, h.history, Chained]
  holds := by simp [System.chainOf, h.chain, HoldsInitial]
  checkpoint := .settled rfl (by simp [Host.uploads, h.history]) (by
    simp [Host.uploads, h.history, hashAt]) (by
    simp [System.chainOf, h.chain, Host.uploads, h.history])
  calls := by simp [h.calls]
  replies := by simp [h.replies]
  committed := by simp [h.history]
  phases := by
    intro i
    rw [h.idle]
    trivial

/-- A relay step keeps the invariant: the chain changes only through the device's
own requests, and those carry uploads of the chain. -/
theorem UploadInv.relay_step (cfg : κ → HostConfig)
    (hdist : ∀ k k', hexEncode (cfg k).session.deviceID = hexEncode (cfg k').session.deviceID →
      k = k') (ht : Traffic x cfg s) (hi : UploadInv x cfg k row s) {a : RelayAction} {r : Relay}
    (hm : RelayMove x cfg s a) (h : s.relay.step x.crypto a = some r) :
    UploadInv x cfg k row { s with relay := r } := by
  -- A request of the device itself carries nothing or an upload of its chain.
  have hown (n : ℕ) (request : SyncRequest) (identity : DeviceIdentity)
      (hcall : s.calls[n]? = some (k, request))
      (hid : identity.id = hexEncode (cfg k).session.deviceID)
      (hacc : identity.accountID = hexEncode (cfg k).session.accountID)
      (hdb : r.db = (syncEnvelopes x.crypto identity request s.relay.db).2) := by
    have hown := syncEnvelopes_own hid hacc hi.chained (by rw [hid, hacc]; exact hi.holds)
      (by rw [hid, hacc]; exact hi.checkpoint.length_le) (hi.calls n request hcall)
    rw [hid, hacc, ← hdb] at hown
    exact hown
  have hchain : HoldsInitial (r.db.chain (hexEncode (cfg k).session.accountID)
        (hexEncode (cfg k).session.deviceID)) (s.hosts k).uploads ∧
      (s.chainOf cfg k).length ≤ (r.db.chain (hexEncode (cfg k).session.accountID)
        (hexEncode (cfg k).session.deviceID)).length := by
    have hsame (he : r.db.chain (hexEncode (cfg k).session.accountID)
        (hexEncode (cfg k).session.deviceID) = s.chainOf cfg k) :
        HoldsInitial (r.db.chain (hexEncode (cfg k).session.accountID)
          (hexEncode (cfg k).session.deviceID)) (s.hosts k).uploads ∧
        (s.chainOf cfg k).length ≤ (r.db.chain (hexEncode (cfg k).session.accountID)
          (hexEncode (cfg k).session.deviceID)).length := by
      rw [he]
      exact ⟨hi.holds, le_rfl⟩
    rcases ht.relay_cases cfg hm h with ⟨⟨henv, _⟩, _⟩ | ⟨identity, input, hid, hdb, _⟩ |
      ⟨n, k', request, identity, hcall, hid, hacc, hdb, _⟩
    · apply hsame
      simp only [System.chainOf, RelayDB.chain, henv]
    · apply hsame
      rw [hdb]
      exact syncEnvelopes_chain_other (hid k)
    · by_cases hk : k' = k
      · subst hk
        obtain ⟨hh, hle, _⟩ := hown n request identity hcall hid hacc hdb
        exact ⟨hh, hle⟩
      · -- Device ids are distinct, so the chain of `k` is another one.
        have hne : identity.id ≠ hexEncode (cfg k).session.deviceID := by
          rw [hid]
          exact fun he => hk (hdist k' k he)
        apply hsame
        rw [hdb]
        exact syncEnvelopes_chain_other hne
  obtain ⟨hh, hle⟩ := hchain
  refine ⟨hi.state, hi.chained, hh, hi.checkpoint.mono hle hh.length_le, hi.calls, ?_,
    fun u hu => ⟨(hi.committed u hu).1, (hi.committed u hu).2.trans hle⟩, ?_⟩
  · intro n reply response hmem hbody
    rcases ht.reply_cases hm h hmem hbody with hold | ⟨k', request, identity, hcall, hid, hacc, hdb,
      hanswer⟩
    · obtain ⟨k', request, hcall, hrest⟩ := hi.replies n reply response hold hbody
      exact ⟨k', request, hcall, fun hk =>
        ⟨(hrest hk).1, fun q hq => ((hrest hk).2 q hq).trans hle⟩⟩
    · refine ⟨k', request, hcall, ?_⟩
      rintro rfl
      exact (hown n request identity hcall hid hacc hdb).2.2 response hanswer
  · intro i
    exact (hi.phases i).mono (List.Subset.refl _) hle ⟨le_rfl, fun _ => rfl⟩ (fun _ hn => hn)

theorem UploadInv.congr {s' : System κ ι} (hi : UploadInv x cfg k row s)
    (hhost : s'.hosts k = s.hosts k) (hrelay : s'.relay = s.relay)
    (hcalls : ∃ more : List (κ × SyncRequest), s'.calls = s.calls ++ more ∧ ∀ c ∈ more, c.1 ≠ k) :
    UploadInv x cfg k row s' := by
  obtain ⟨more, hcalls, hmore⟩ := hcalls
  have hkeep (n : ℕ) (c : κ × SyncRequest) (h : s.calls[n]? = some c) : s'.calls[n]? = some c := by
    rw [hcalls]
    exact getElem?_append_of_some h
  have hchain : s'.chainOf cfg k = s.chainOf cfg k := by rw [System.chainOf, hrelay, System.chainOf]
  refine ⟨hhost ▸ hi.state, hhost ▸ hi.chained, ?_, ?_, ?_, ?_, ?_, ?_⟩
  · rw [hchain, hhost]
    exact hi.holds
  · rw [hchain, hhost]
    exact hi.checkpoint
  · intro n request hn
    rw [hcalls] at hn
    rw [hhost]
    rcases Nat.lt_or_ge n s.calls.length with hlt | hge
    · rw [getElem?_append_left hlt] at hn
      exact hi.calls n request hn
    · rw [getElem?_append_right hge] at hn
      exact absurd rfl (hmore _ (mem_of_getElem? hn))
  · intro n reply response hmem hbody
    rw [hrelay] at hmem
    obtain ⟨k', request, hcall, hrest⟩ := hi.replies n reply response hmem hbody
    rw [hchain]
    exact ⟨k', request, hkeep n _ hcall, hrest⟩
  · rw [hchain, hhost]
    exact hi.committed
  · intro i
    rw [hchain, hhost]
    exact (hi.phases i).mono (List.Subset.refl _) le_rfl ⟨le_rfl, fun _ => rfl⟩
      (fun n ⟨request, hn⟩ => ⟨request, hkeep n _ hn⟩)

variable {db' : LocalDB}

/-- A step of the device keeps the invariant if the new checkpoint fits the new
uploads and the worker's next phase follows them. -/
theorem UploadInv.setHost [DecidableEq κ] [DecidableEq ι] (hi : UploadInv x cfg k row s) (i : ι)
    (phase' : Phase) (events : List Event) {row' : SyncState} (hstate : db'.syncState = some row')
    (hrow : row.NotAfter row')
    (hchained : Chained x (cfg k).session ((s.hosts k).uploads ++ events.filterMap Event.upload?))
    (hcheck : Checkpoint ((s.hosts k).uploads ++ events.filterMap Event.upload?)
      (s.chainOf cfg k).length row') (hcommitted : ∀ u, Event.committed u ∈ events →
      u ∈ (s.hosts k).uploads ∧ u.deviceSequence ≤ (s.chainOf cfg k).length)
    (hphase : phase'.Follows x (cfg k).session
      ((s.hosts k).uploads ++ events.filterMap Event.upload?) (s.chainOf cfg k).length row'
      (s.CallOf k)) : UploadInv x cfg k row' (s.setHost k i db' phase' events) := by
  have hup : ((s.setHost k i db' phase' events).hosts k).uploads =
      (s.hosts k).uploads ++ events.filterMap Event.upload? := by
    rw [System.setHost_self, Host.uploads, Host.uploads, filterMap_append]
  have hsub : (s.hosts k).uploads ⊆ (s.hosts k).uploads ++ events.filterMap Event.upload? :=
    subset_append_left _ _
  refine ⟨?_, ?_, ?_, ?_, ?_, hi.replies, ?_, ?_⟩
  · rw [System.setHost_self]
    exact hstate
  · rw [hup]
    exact hchained
  · rw [hup]
    exact hi.holds.append _
  · rw [hup]
    exact hcheck
  · intro n request hn
    rw [hup]
    rcases hi.calls n request hn with hnil | ⟨u, hu, hw⟩
    · exact .inl hnil
    · exact .inr ⟨u, hsub hu, hw⟩
  · intro u hu
    rw [System.setHost_self] at hu
    rw [hup]
    rcases mem_append.mp hu with hu | hu
    · exact ⟨hsub (hi.committed u hu).1, (hi.committed u hu).2⟩
    · exact ⟨hsub (hcommitted u hu).1, (hcommitted u hu).2⟩
  · intro j
    rw [hup, System.setHost_self]
    by_cases hj : j = i
    · subst hj
      simp only [Function.update_self]
      exact hphase
    · -- Another loop may hold an older checkpoint, which the new row does not contradict.
      simp only [Function.update_of_ne hj]
      exact (hi.phases j).mono hsub le_rfl hrow (fun _ hn => hn)

def Event.ofChain : Event → Bool
  | .staged _ _ | .committed _ => true
  | _ => false

theorem UploadInv.quiet [DecidableEq κ] [DecidableEq ι] (hi : UploadInv x cfg k row s) (i : ι)
    {phase' : Phase} {events : List Event} (hstate : db'.syncState = (s.hosts k).db.syncState)
    (hev : ∀ e ∈ events, e.ofChain = false)
    (hphase : phase'.Follows x (cfg k).session (s.hosts k).uploads (s.chainOf cfg k).length row
      (s.CallOf k)) : UploadInv x cfg k row (s.setHost k i db' phase' events) := by
  have hnone : events.filterMap Event.upload? = [] := by
    rw [filterMap_eq_nil_iff]
    intro e he
    cases e with
    | staged u event => exact absurd (hev _ he) (by simp [Event.ofChain])
    | _ => rfl
  refine hi.setHost i phase' events (hstate.trans hi.state) ⟨le_rfl, fun _ => rfl⟩ ?_ ?_ ?_ ?_
  · rw [hnone, append_nil]
    exact hi.chained
  · rw [hnone, append_nil]
    exact hi.checkpoint
  · intro u hu
    exact absurd (hev _ hu) (by simp [Event.ofChain])
  · rw [hnone, append_nil]
    exact hphase

/-- A worker's step keeps the invariant, provided a commit clears the upload the
worker has loaded. -/
theorem UploadInv.worker_step [DecidableEq κ] [DecidableEq ι] (hi : UploadInv x cfg k row s) {i : ι}
    {a : WorkerAction} {phase' : Phase} {events : List Event}
    (hm : WorkerMove x (cfg k) (s.hosts k).db a ((s.hosts k).phase i) db' phase' events)
    (hcommit : ∀ state next, a = .commit → (s.hosts k).phase i = .merging state next [] →
      state.prepared = row.prepared) :
    ∃ row', UploadInv x cfg k row' (s.setHost k i db' phase' events) := by
  have hfollows := hi.phases i
  have hrow (row' : SyncState) (h : (s.hosts k).db.syncState = some row') : row' = row :=
    some.inj (h.symm.trans hi.state)
  generalize hph : (s.hosts k).phase i = phase at hm hfollows hcommit
  cases hm with
  | stop | restage => exact ⟨row, hi.quiet i rfl (by simp) trivial⟩
  | load state _ hload =>
    obtain rfl := hrow state (loadSyncState_ok hload).1
    exact ⟨_, hi.quiet i rfl (by simp) ⟨⟨le_rfl, fun _ => rfl⟩, hi.checkpoint.prepared_mem⟩⟩
  | keep state => exact ⟨row, hi.quiet i rfl (by simp) hfollows.2⟩
  | seal_ state event rest random upload _ _ hu =>
    obtain ⟨hsealed, hseq⟩ := sealUpload_sealedOn x hu
    refine ⟨row, hi.quiet i rfl (by simp) ⟨state.previousHash, hsealed, ?_⟩⟩
    rw [hseq]
    exact hfollows.1
  | stage event u row' hr hp hs =>
    obtain rfl := hrow row' hr
    obtain ⟨previous, hsealed, _, hprev⟩ := hfollows
    -- The slot was empty, so every upload before this one is stored.
    cases hi.checkpoint with
    | staged init v hv hp' => simp [hp] at hp'
    | settled _ hn hh hst =>
      refine ⟨_, hi.setHost i _ _ rfl ⟨le_rfl, fun _ => rfl⟩ ?_ ?_ (by simp) trivial⟩
      · rw [hprev hs.symm, hh] at hsealed
        exact hi.chained.concat (by omega) hsealed
      · refine .staged (s.hosts k).uploads u rfl rfl hn ?_ hst.ge
        exact hh.trans (hashAt_append _ _ le_rfl).symm
  | reload state hload =>
    obtain rfl := hrow state (loadSyncState_ok hload).1
    exact ⟨_, hi.quiet i rfl (by simp) hi.checkpoint.prepared_mem⟩
  | mergeLoad => exact ⟨row, hi.quiet i rfl (by simp) hfollows⟩
  | migrateFail state next m rest now e db' h =>
    refine ⟨row, hi.quiet i ?_ (by simp) trivial⟩
    have hdb := migrate_sameRows (cfg k).store now m (s.hosts k).db
    rw [h] at hdb
    exact hdb.syncState
  | migrate state next m m' rest now db' h =>
    refine ⟨row, hi.quiet i ?_ (by simp) hfollows⟩
    have hdb := migrate_sameRows (cfg k).store now m (s.hosts k).db
    rw [h] at hdb
    exact hdb.syncState
  | observe => exact ⟨row, hi.quiet i (observeHLC_sameRows _ _).syncState (by simp) hfollows⟩
  | write => exact ⟨row, hi.quiet i (write_syncState) (by simp [Event.ofChain]) hfollows⟩
  | commit state next loaded upload row' hl hr hp =>
    obtain rfl := hrow row' hr
    obtain rfl : loaded = upload := by
      have heq := hcommit state next rfl rfl
      rw [hl, hp] at heq
      exact some.inj heq
    -- The worker knows its upload to be stored, and it is the last one.
    obtain ⟨_, hstored⟩ := hfollows loaded hl
    cases hi.checkpoint with
    | settled hp' => simp [hp] at hp'
    | staged init v hv hp' hn hh =>
      obtain rfl : v = loaded := some.inj (hp'.symm.trans hp)
      have hlen : (s.hosts k).uploads.length = init.length+1 := by simp [hv]
      have hget : (s.hosts k).uploads[init.length]? = some v := by simp [hv]
      have hseq : v.deviceSequence = init.length+1 := (hi.chained _ v hget).1
      have hmax := hi.holds.length_le
      have hnone : List.filterMap Event.upload? [Event.committed v] = [] := rfl
      have hmem : v ∈ (s.hosts k).uploads := mem_of_getElem? hget
      refine ⟨_, hi.setHost i _ _ rfl ⟨by simp only; omega, fun he => ?_⟩ ?_ ?_ ?_ ?_⟩
      · simp only at he
        omega
      · rw [hnone, append_nil]
        exact hi.chained
      · rw [hnone, append_nil]
        refine .settled rfl ?_ ?_ ?_
        · rw [hlen, ← hseq]
        · rw [hlen, hashAt, hget]
          rfl
        · omega
      · intro u hu
        obtain rfl : u = v := by simpa using hu
        exact ⟨hmem, hstored⟩
      · intro u hu
        obtain rfl : v = u := some.inj (hl.symm.trans hu)
        exact ⟨mem_append_left _ hmem, hstored⟩
  | advance state next ph row' hph' hc hr he =>
    obtain rfl := hrow row' hr
    refine ⟨_, hi.setHost i _ _ rfl ⟨le_rfl, fun _ => rfl⟩ ?_ ?_ (by simp) trivial⟩
    · simpa using hi.chained
    · rw [filterMap_nil, append_nil]
      cases hi.checkpoint with
      | settled hp hn hh hs => exact .settled hp hn hh hs
      | staged init u hu hp hn hh hs => exact .staged init u hu hp hn hh hs

theorem UploadInv.onReply_follows (hi : UploadInv x cfg k row s) {state : SyncState} {call : ℕ}
    {reply : Reply} (hw : (Phase.waiting state call).Follows x (cfg k).session (s.hosts k).uploads
      (s.chainOf cfg k).length row (s.CallOf k)) (hr : (call, reply) ∈ s.relay.replies) :
    (onReply x (cfg k).session state reply).Follows x (cfg k).session (s.hosts k).uploads
      (s.chainOf cfg k).length row (s.CallOf k) := by
  rcases onReply_cases x (cfg k).session state reply with h | ⟨response, payloads, hres, hcheck, _, h⟩
  · rw [h]
    trivial
  · rw [h]
    intro u hu
    obtain ⟨hmem, request, hcall⟩ := hw
    refine ⟨hmem u hu, ?_⟩
    obtain ⟨k', request', hcall', hrest⟩ := hi.replies call reply response hr
      (clientResponse_ok hres).2
    have hk : (k', request') = (k, request) := some.inj (hcall'.symm.trans hcall)
    rw [hu] at hcheck
    exact (hrest (Prod.mk.inj hk).1).2 _ (checkUpload_accepted hcheck)

/-- Whatever is staged when this action commits was loaded by the same round. -/
def CommitsLoaded (s : System κ ι) : Action κ ι → Prop
  | .worker k i .commit =>
    match (s.hosts k).phase i with
    | .merging state _ [] => state.prepared = (s.hosts k).db.syncState.bind (·.prepared)
    | _ => True
  | _ => True

theorem UploadInv.step [DecidableEq κ] [Fintype κ] [DecidableEq ι] (cfg : κ → HostConfig)
    (hdist : ∀ k k', hexEncode (cfg k).session.deviceID = hexEncode (cfg k').session.deviceID →
      k = k') {s' : System κ ι} {a : Action κ ι} (ht : Traffic x cfg s)
    (hi : UploadInv x cfg k row s) (hc : CommitsLoaded s a) (h : s.step x cfg a = some s') :
    ∃ row', UploadInv x cfg k row' s' := by
  rcases System.step_cases cfg h with ⟨ra, r, hm, hr, rfl⟩ |
    ⟨k', i, db', phase', events, hm, rfl⟩ | ⟨k', i, state, request, hph, hreq, rfl⟩
  · exact ⟨row, hi.relay_step cfg hdist ht hm hr⟩
  · by_cases hk : k = k'
    · subst hk
      cases hm with
      | mutate m now _ =>
        refine ⟨row, hi.quiet i (m.exec_move x _ now _).syncState ?_ (hi.phases i)⟩
        rcases writeEvents_eq x (cfg k).store (m.exec x (cfg k).store now (s.hosts k).db).1 with
          he | ⟨id, record, enqueued, he⟩ <;> rw [he] <;> simp [Event.ofChain]
      | tick => exact ⟨row, hi.quiet i rfl (by simp) (hi.phases i)⟩
      | worker wa _ _ _ hw =>
        apply hi.worker_step hw
        rintro state next rfl hph
        simpa only [CommitsLoaded, hph, hi.state, bind_some] using hc
      | giveUp => exact ⟨row, hi.quiet i rfl (by simp) trivial⟩
      | receive n state call reply hph hr =>
        have hw := hi.phases i
        rw [hph] at hw
        exact ⟨row, hi.quiet i rfl (by simp) (hi.onReply_follows hw hr)⟩
    · exact ⟨row, hi.congr (System.setHost_ne s i db' phase' events hk) rfl
        ⟨[], by simp, by simp⟩⟩
  · by_cases hk : k = k'
    · subst hk
      have hready := hi.phases i
      rw [hph] at hready
      have hkeep (n : ℕ) (c : κ × SyncRequest) (hn : s.calls[n]? = some c) :
          (s.calls ++ [(k, request)])[n]? = some c := getElem?_append_of_some hn
      -- The new call first, then the worker waits for it.
      have hcalls : UploadInv x cfg k row { s with calls := s.calls ++ [(k, request)] } := by
        refine ⟨hi.state, hi.chained, hi.holds, hi.checkpoint, ?_, ?_, hi.committed, ?_⟩
        · intro n request' hn
          rcases Nat.lt_or_ge n s.calls.length with hlt | hge
          · rw [getElem?_append_left hlt] at hn
            exact hi.calls n request' hn
          · rw [getElem?_append_right hge] at hn
            have heq := mem_singleton.mp (mem_of_getElem? hn)
            obtain rfl := (Prod.mk.inj heq).2
            rw [(syncRequest_ok hreq).2]
            cases hp : state.prepared with
            | none => exact .inl rfl
            | some u => exact .inr ⟨u, hready u hp, rfl⟩
        · intro n reply response hmem hbody
          obtain ⟨k', request', hcall, hrest⟩ := hi.replies n reply response hmem hbody
          exact ⟨k', request', hkeep n _ hcall, hrest⟩
        · intro j
          exact (hi.phases j).mono (List.Subset.refl _) le_rfl ⟨le_rfl, fun _ => rfl⟩
            (fun n ⟨request', hn⟩ => ⟨request', hkeep n _ hn⟩)
      exact ⟨row, hcalls.quiet i rfl (by simp)
        ⟨hready, request, by simp⟩⟩
    · refine ⟨row, hi.congr (System.setHost_ne s i _ _ _ hk) rfl
        ⟨[(k', request)], rfl, ?_⟩⟩
      simpa using fun he => hk he.symm

theorem UploadInv.stored_once (hi : UploadInv x cfg k row s) (u : PreparedUpload)
    (hu : u ∈ (s.hosts k).uploads) :
    (∃ r, (s.chainOf cfg k).filter (fun r => r.deviceSeq = u.deviceSequence) = [r] ∧ Holds r u) ∨
    ((s.chainOf cfg k).filter (fun r => r.deviceSeq = u.deviceSequence) = [] ∧
      row.prepared = some u) := by
  obtain ⟨i, hget, hseq⟩ := hi.chained.getElem hu
  obtain ⟨hlt, _⟩ := List.getElem?_eq_some_iff.mp hget
  have hfind := filter_numbered (fun r : EnvelopeRow => r.deviceSeq) 1
    (fun j r hr => hi.holds.deviceSeq hi.chained hr) i
  rw [hseq]
  cases hrow : (s.chainOf cfg k)[i]? with
  | some r =>
    rw [hrow] at hfind
    obtain ⟨v, hv, hh⟩ := hi.holds i r hrow
    obtain rfl : u = v := some.inj (hget.symm.trans hv)
    exact .inl ⟨r, hfind, hh⟩
  | none =>
    rw [hrow] at hfind
    refine .inr ⟨hfind, ?_⟩
    -- Only the upload in the slot can be missing.
    have hge : (s.chainOf cfg k).length ≤ i := List.getElem?_eq_none_iff.mp hrow
    cases hi.checkpoint with
    | settled _ _ _ hs => omega
    | staged init v hv hp _ _ hs =>
      have hlen : (s.hosts k).uploads.length = init.length+1 := by simp [hv]
      obtain rfl : i = init.length := by omega
      have hlast : (s.hosts k).uploads[init.length]? = some v := by simp [hv]
      obtain rfl : u = v := some.inj (hget.symm.trans hlast)
      exact hp

theorem UploadInv.stored (hi : UploadInv x cfg k row s) {u : PreparedUpload}
    (hu : u ∈ (s.hosts k).uploads) (hle : u.deviceSequence ≤ (s.chainOf cfg k).length) :
    ∃ r ∈ s.chainOf cfg k, Holds r u := by
  obtain ⟨i, hget, hseq⟩ := hi.chained.getElem hu
  have hrow : (s.chainOf cfg k)[i]? = some _ := getElem?_eq_getElem (by omega)
  obtain ⟨v, hv, hh⟩ := hi.holds i _ hrow
  obtain rfl : u = v := some.inj (hget.symm.trans hv)
  exact ⟨_, mem_of_getElem? hrow, hh⟩

theorem UploadInv.agrees (hi : UploadInv x cfg k row s) :
    (row.nextDeviceSequence = (lastRecord (s.chainOf cfg k)).1+1 ∧
      row.previousHash = (lastRecord (s.chainOf cfg k)).2) ∨
    (row.nextDeviceSequence = (lastRecord (s.chainOf cfg k)).1 ∧
      ∃ u, row.prepared = some u ∧ u.deviceSequence = (lastRecord (s.chainOf cfg k)).1 ∧
        u.envelopeHash = (lastRecord (s.chainOf cfg k)).2) := by
  rw [hi.holds.lastRecord hi.chained]
  have hmax := hi.holds.length_le
  cases hi.checkpoint with
  | settled hp hn hh hs =>
    rw [← hs] at hn hh
    exact .inl ⟨hn, hh⟩
  | staged init u hu hp hn hh hs =>
    have hlen : (s.hosts k).uploads.length = init.length+1 := by simp [hu]
    have hlast : (s.hosts k).uploads[init.length]? = some u := by simp [hu]
    rcases Nat.eq_or_lt_of_le hs with heq | hlt
    · rw [heq] at hn hh
      exact .inl ⟨hn, hh⟩
    · have hfull : (s.chainOf cfg k).length = init.length+1 := by omega
      refine .inr ⟨hn.trans hfull.symm, u, hp, ?_, ?_⟩
      · rw [hfull]
        exact (hi.chained _ u hlast).1
      · simp only [hfull, hashAt, hlast, map_some, getD_some]

end

section
variable {κ : Type}

/-- The checkpoint a worker works from has the staged upload of the database. -/
def Phase.Current (row : SyncState) : Phase → Prop
  | .loaded state | .ready state | .waiting state _ | .merging state _ _ | .inMerge state _ _ _ =>
    state.prepared = row.prepared
  | _ => True

/-- Every device runs one worker at a time, and nobody else touches its slot. -/
def SlotOwned (s : System κ Unit) : Prop :=
  ∀ k, ∃ row, (s.hosts k).db.syncState = some row ∧ ((s.hosts k).phase ()).Current row

variable {x : Externals} {s : System κ Unit}

theorem System.Initial.slotOwned {cfg : κ → HostConfig} (h : s.Initial x cfg) : SlotOwned s := by
  intro k
  refine ⟨_, h.checkpoint k, ?_⟩
  rw [h.idle]
  trivial

theorem SlotOwned.commitsLoaded (h : SlotOwned s) (a : Action κ Unit) : CommitsLoaded s a := by
  unfold CommitsLoaded
  split
  · rename_i k i
    split
    · rename_i state next hph
      obtain ⟨row, hrow, hc⟩ := h k
      rw [hph] at hc
      rw [hrow]
      exact hc
    · trivial
  · trivial

theorem current_worker_step {cfg : HostConfig} {db db' : LocalDB} {a : WorkerAction}
    {phase phase' : Phase} {events : List Event}
    (hm : WorkerMove x cfg db a phase db' phase' events) (hrow : db.syncState = some row)
    (hc : phase.Current row) : ∃ row', db'.syncState = some row' ∧ phase'.Current row' := by
  cases hm with
  | stop | seal_ | restage => exact ⟨row, hrow, trivial⟩
  | load state _ hload | reload state hload => exact ⟨state, (loadSyncState_ok hload).1, rfl⟩
  | keep | mergeLoad => exact ⟨row, hrow, hc⟩
  | stage | commit | advance => exact ⟨_, rfl, trivial⟩
  | migrateFail state next m rest now e db' h =>
    have hdb := migrate_sameRows cfg.store now m db
    rw [h] at hdb
    exact ⟨row, hdb.syncState.trans hrow, trivial⟩
  | migrate state next m m' rest now db' h =>
    have hdb := migrate_sameRows cfg.store now m db
    rw [h] at hdb
    exact ⟨row, hdb.syncState.trans hrow, hc⟩
  | observe => exact ⟨row, (observeHLC_sameRows _ _).syncState.trans hrow, hc⟩
  | write => exact ⟨row, (write_syncState).trans hrow, hc⟩

theorem SlotOwned.step [DecidableEq κ] [Fintype κ] (cfg : κ → HostConfig) {s' : System κ Unit}
    {a : Action κ Unit} (hs : SlotOwned s) (h : s.step x cfg a = some s') : SlotOwned s' := by
  intro k
  obtain ⟨row, hrow, hc⟩ := hs k
  apply System.host_preserved h (fun host => ∃ row, host.db.syncState = some row ∧
    (host.phase ()).Current row) ⟨row, hrow, hc⟩
  · intro i db' phase' events hm
    simp only [Function.update_self]
    cases hm with
    | mutate m now _ =>
      exact ⟨row, (m.exec_move x (cfg k).store now (s.hosts k).db).syncState.trans hrow, hc⟩
    | tick => exact ⟨row, hrow, hc⟩
    | worker wa _ _ _ hw => exact current_worker_step hw hrow hc
    | giveUp => exact ⟨row, hrow, trivial⟩
    | receive n state call reply hph _ =>
      rw [hph] at hc
      rcases onReply_cases x (cfg k).session state reply with he | ⟨_, _, _, _, _, he⟩
      · exact ⟨row, hrow, by rw [he]; trivial⟩
      · exact ⟨row, hrow, by rw [he]; exact hc⟩
  · intro i state hph
    simp only [Function.update_self]
    rw [hph] at hc
    exact ⟨row, hrow, hc⟩

/-- What a device and the relay agree on: the checkpoint is one ahead of the stored
chain, or the relay already has the staged upload; no request of the device was
answered with a rejection; and every upload that was staged is stored in exactly
one row, unless it is still staged and not stored yet. -/
structure ChainAgreement (cfg : κ → HostConfig) (k : κ) (t : System κ Unit) (row : SyncState) :
    Prop where
  state : (t.hosts k).db.syncState = some row
  position : (row.nextDeviceSequence = (lastRecord (t.chainOf cfg k)).1+1 ∧
      row.previousHash = (lastRecord (t.chainOf cfg k)).2) ∨
    (row.nextDeviceSequence = (lastRecord (t.chainOf cfg k)).1 ∧
      ∃ u, row.prepared = some u ∧ u.deviceSequence = (lastRecord (t.chainOf cfg k)).1 ∧
        u.envelopeHash = (lastRecord (t.chainOf cfg k)).2)
  accepted : ∀ (n : ℕ) (request : SyncRequest) (reply : Reply) (response : SyncResponse),
    t.calls[n]? = some (k, request) → (n, reply) ∈ t.relay.replies →
    reply.body = .sync response → response.rejectedSequences = []
  once : ∀ u ∈ (t.hosts k).uploads,
    (∃ r, (t.chainOf cfg k).filter (fun r => r.deviceSeq = u.deviceSequence) = [r] ∧ Holds r u) ∨
    ((t.chainOf cfg k).filter (fun r => r.deviceSeq = u.deviceSequence) = [] ∧
      row.prepared = some u)

/-- The upload chain of a device with one worker at a time agrees with the relay in
every state of every run. -/
theorem upload_chain_agreement [DecidableEq κ] [Fintype κ] (x : Externals) (cfg : κ → HostConfig)
    (s t : System κ Unit) (h0 : s.Initial x cfg) (actions : List (Action κ Unit))
    (h : Runs.run (System.step x cfg) s actions = some t) (k : κ) :
    ∃ row, ChainAgreement cfg k t row := by
  -- The invariant of a run: the traffic, the owned slot, and the chain.
  have hinv : Traffic x cfg t ∧ SlotOwned t ∧ ∃ row, UploadInv x cfg k row t := by
    apply Runs.run_invariant
      (fun u => Traffic x cfg u ∧ SlotOwned u ∧ ∃ row, UploadInv x cfg k row u) ?_ ?_ h
    · rintro u a u' ⟨ht, hs, row, hi⟩ hu
      exact ⟨ht.step cfg hu, hs.step cfg hu, hi.step cfg h0.distinct ht (hs.commitsLoaded a) hu⟩
    · exact ⟨h0.traffic, h0.slotOwned, _, h0.uploadInv k⟩
  obtain ⟨_, _, row, hi⟩ := hinv
  refine ⟨row, hi.state, hi.agrees, ?_, hi.stored_once⟩
  intro n request reply response hcall hreply hbody
  obtain ⟨k', request', hcall', hrest⟩ := hi.replies n reply response hreply hbody
  have hk : (k', request') = (k, request) := some.inj (hcall'.symm.trans hcall)
  exact (hrest (Prod.mk.inj hk).1).1

/-- The upload is stored, the worker dies before it hears of it, the request is sent
again and a late copy of the first one arrives too. -/
def retriedUpload : List (Action Bool Unit) :=
  [.mutate false () (.save (samplePhrase "a")) sampleReading] ++ uploadSteps false () ++
    serveCall 0 ++ [.worker false () .crash] ++ pollSteps false () ++ serveCall 1 ++ serveCall 0

theorem upload_chain_agreement_retried : ∃ t,
    Runs.run (System.step sampleExternals sampleConfig) (sampleSystem Unit) retriedUpload = some t ∧
    t.relay.replies.length = 3 ∧ (t.chainOf sampleConfig false).length = 1 ∧
    ∃ row, ChainAgreement sampleConfig false t row := by
  apply Runs.exists_some (fun t => t.relay.replies.length = 3 ∧
    (t.chainOf sampleConfig false).length = 1) (by decide +kernel)
  rintro t ht ⟨hreplies, hchain⟩
  exact ⟨hreplies, hchain, upload_chain_agreement sampleExternals sampleConfig _ t
    (sampleSystem_initial Unit) retriedUpload ht false⟩

end

end YunPin
