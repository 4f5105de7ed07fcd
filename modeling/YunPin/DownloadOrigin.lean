import YunPin.CursorSafety
import YunPin.UploadChain

/-! Where the payloads come from that a worker merges: each of them was decrypted from an
envelope of the account that the relay has stored, and stored envelopes stay. -/
namespace YunPin
open ByteText List

/-- The relay has an envelope of the account that decrypts to the payload. -/
def RelayDB.Sent (x : Externals) (session : Session) (db : RelayDB) (p : PhrasePayload) : Prop :=
  ∃ r ∈ db.envelopes, r.accountID = hexEncode session.accountID ∧
    decodeDownload x session r.outgoing = .ok p

theorem RelayDB.Sent.mono {x : Externals} {session : Session} {db db' : RelayDB}
    {p : PhrasePayload} (h : db.Sent x session p) (hsub : db.envelopes ⊆ db'.envelopes) :
    db'.Sent x session p := by
  obtain ⟨r, hr, hrest⟩ := h
  exact ⟨r, hsub hr, hrest⟩

def Phase.payloads : Phase → List PhrasePayload
  | .merging _ _ payloads => payloads
  | .inMerge _ _ stage rest => stage.payload :: rest
  | _ => []

theorem WorkerMove.payloads_subset {x : Externals} {cfg : HostConfig} {db db' : LocalDB}
    {a : WorkerAction} {phase phase' : Phase} {events : List Event}
    (h : WorkerMove x cfg db a phase db' phase' events) : phase'.payloads ⊆ phase.payloads := by
  cases h with
  | mergeLoad state next payload rest m hload =>
    intro p hp
    simpa only [Phase.payloads, MergeStage.payload, (mergeLoad_ok hload).1] using hp
  | migrate state next m m' rest now _ hmig =>
    intro p hp
    simpa only [Phase.payloads, MergeStage.payload, (migrate_ok hmig).1] using hp
  | observe => exact List.Subset.refl _
  | write => exact subset_cons_self _ _
  | _ => exact nil_subset _

theorem served_page_stored {c : Crypto} {identity : DeviceIdentity} {input : SyncRequest}
    {db : RelayDB} {response : SyncResponse}
    (hbody : (syncEnvelopes c identity input db).1.body = .sync response) {wire : WireEnvelope}
    (hw : wire ∈ response.envelopes) :
    ∃ r ∈ (syncEnvelopes c identity input db).2.envelopes, r.accountID = identity.accountID ∧
      r.outgoing = wire := by
  rcases syncEnvelopes_cases c identity input db with ⟨_, _, he⟩ | ⟨resp, db', _, page, he, hs⟩
  · rw [he] at hbody
    simp [writeError] at hbody
  rw [he] at hbody ⊢
  obtain rfl : resp = response := by simpa using hbody
  rw [hs.envelopes] at hw
  obtain ⟨r, hr, rfl⟩ := mem_map.mp hw
  have hin := hs.page_initial.subset hr
  simp only [RelayDB.above, mem_filter, decide_eq_true_eq] at hin
  exact ⟨r, hin.1, hin.2.1, rfl⟩

section
variable {κ ι : Type}

structure OriginInv (x : Externals) (cfg : κ → HostConfig) (k : κ) (s : System κ ι) : Prop where
  replies : ∀ (n : ℕ) (reply : Reply) (response : SyncResponse) (request : SyncRequest),
    (n, reply) ∈ s.relay.replies → reply.body = .sync response →
      s.calls[n]? = some (k, request) → ∀ wire ∈ response.envelopes,
        ∃ r ∈ s.relay.db.envelopes, r.accountID = hexEncode (cfg k).session.accountID ∧
          r.outgoing = wire
  phases : ∀ i, ∀ p ∈ ((s.hosts k).phase i).payloads, s.relay.db.Sent x (cfg k).session p

variable {cfg : κ → HostConfig}

variable {x : Externals} {s : System κ ι}

theorem System.Initial.originInv (h : s.Initial x cfg) (k : κ) :
    OriginInv x cfg k s where
  replies := by simp [h.replies]
  phases := by
    intro i
    rw [h.idle]
    simp [Phase.payloads]

theorem OriginInv.relay_step {k : κ} (ht : Traffic x cfg s) (hi : OriginInv x cfg k s)
    {a : RelayAction} {r : Relay} (hm : RelayMove x cfg s a)
    (h : s.relay.step x.crypto a = some r) : OriginInv x cfg k { s with relay := r } := by
  have hsub := ht.envelopes_subset hm h
  refine ⟨?_, fun i p hp => (hi.phases i p hp).mono hsub⟩
  intro n reply response request hmem hbody hcall wire hwire
  rcases ht.reply_cases hm h hmem hbody with hold | ⟨k', request', identity, hcall', _, hacc, hdb,
    hanswer⟩
  · obtain ⟨row, hrow, hrest⟩ := hi.replies n reply response request hold hbody hcall wire hwire
    exact ⟨row, hsub hrow, hrest⟩
  · -- The page was cut from the table this very request has left.
    obtain ⟨rfl, rfl⟩ := Prod.mk.inj (Option.some.inj (hcall'.symm.trans hcall))
    have hpage := served_page_stored hanswer
      hwire
    rwa [hacc, ← hdb] at hpage

theorem OriginInv.setHost [DecidableEq κ] [DecidableEq ι] {k : κ} (hi : OriginInv x cfg k s)
    (k' : κ) (i : ι) (db' : LocalDB) (phase' : Phase) (events : List Event)
    (hphase : k' = k → ∀ p ∈ phase'.payloads, s.relay.db.Sent x (cfg k).session p) :
    OriginInv x cfg k (s.setHost k' i db' phase' events) := by
  refine ⟨hi.replies, ?_⟩
  intro j p hp
  by_cases hk : k = k'
  · subst hk
    rw [System.setHost_self] at hp
    by_cases hj : j = i
    · subst hj
      simp only [Function.update_self] at hp
      exact hphase rfl p hp
    · simp only [Function.update_of_ne hj] at hp
      exact hi.phases j p hp
  · rw [System.setHost_ne s i _ _ _ hk] at hp
    exact hi.phases j p hp

theorem OriginInv.step [DecidableEq κ] [Fintype κ] [DecidableEq ι] (cfg : κ → HostConfig) {k : κ}
    {row : SyncState} {s' : System κ ι} {a : Action κ ι} (ht : Traffic x cfg s)
    (hc : CursorInv x cfg k row s) (hi : OriginInv x cfg k s) (h : s.step x cfg a = some s') :
    OriginInv x cfg k s' := by
  rcases System.step_cases cfg h with ⟨ra, r, hm, hr, rfl⟩ |
    ⟨k', i, db', phase', events, hm, rfl⟩ | ⟨k', i, state, request, _, _, rfl⟩
  · exact hi.relay_step ht hm hr
  · apply hi.setHost
    rintro rfl p hp
    cases hm with
    | mutate | tick => exact hi.phases i p hp
    | worker wa _ _ _ hw => exact hi.phases i p (hw.payloads_subset hp)
    | giveUp => simp [Phase.payloads] at hp
    | receive n state call reply hph hr =>
      rcases onReply_cases x (cfg k').session state reply with he | ⟨response, payloads, hres, _,
        hdec, he⟩
      · simp [he, Phase.payloads] at hp
      · rw [he] at hp
        -- The worker waits for the answer to a call of its own.
        have hasked := hc.phases i
        rw [hph] at hasked
        obtain ⟨request, hcall, _⟩ := hasked
        obtain ⟨wire, hwire, hd⟩ := mem_decodeDownloads hdec hp
        obtain ⟨stored, hstored, hacc, rfl⟩ := hi.replies call reply response request hr
          (clientResponse_ok hres).2 hcall wire hwire
        exact ⟨stored, hstored, hacc, hd⟩
  · have hmid := hi.setHost k' i (s.hosts k').db (.waiting state s.calls.length) []
      (fun _ p hp => by simp [Phase.payloads] at hp)
    refine ⟨?_, hmid.phases⟩
    intro n reply response request' hmem hbody hcall
    obtain ⟨k₂, request₂, hold, _⟩ := hc.replies n reply response hmem hbody
    -- Only calls that were already made have replies.
    have hsame : some (k₂, request₂) = some (k, request') :=
      (getElem?_append_of_some hold).symm.trans hcall
    exact hi.replies n reply response request' hmem hbody (hold.trans hsame)

end

end YunPin
