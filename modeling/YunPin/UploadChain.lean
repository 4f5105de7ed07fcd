import YunPin.SyncTraffic

/-! The chain of signed uploads of a device. What the worker stages forms a chain
by sequence and hash; the relay stores an initial part of it, in order; and the
checkpoint tells how far that part reaches, up to the one upload in between. -/
namespace YunPin
open ByteText List

def Event.upload? : Event → Option PreparedUpload
  | .staged upload _ => some upload
  | _ => none

def Host.uploads {ι : Type} (h : Host ι) : List PreparedUpload := h.history.filterMap Event.upload?

/-- The hash of the `n`-th upload, which the next one has to carry; empty at the
start of the chain. -/
def hashAt (uploads : List PreparedUpload) : ℕ → Bytes
  | 0 => []
  | n+1 => (uploads[n]?.map (·.envelopeHash)).getD []

theorem hashAt_append (uploads more : List PreparedUpload) {n : ℕ} (h : n ≤ uploads.length) :
    hashAt (uploads ++ more) n = hashAt uploads n := by
  cases n with
  | zero => rfl
  | succ n => rw [hashAt, hashAt, getElem?_append_left h]

/-- The upload is an envelope of the session's device on top of `previous`. -/
def SealedOn (x : Externals) (session : Session) (previous : Bytes) (u : PreparedUpload) : Prop :=
  ∃ e : Envelope, validateHeader e.header = .ok () ∧
    validateEnvelopeBody e.ciphertext e.signature = .ok () ∧ u.wire = e.wireFields [] 0 ∧
    envelopeHash x.crypto e = .ok u.envelopeHash ∧ e.header.accountID = session.accountID ∧
    e.header.deviceID = session.deviceID ∧ e.header.deviceSeq = u.deviceSequence ∧
    e.header.previousHash = previous

variable (x : Externals) {session : Session} {identity : DeviceIdentity} {chain : List EnvelopeRow}
  {uploads : List PreparedUpload}

theorem sealUpload_sealedOn {state : SyncState} {event : PendingEvent} {random : RandomSource}
    {u : PreparedUpload} (h : sealUpload x session state event random = .ok u) :
    SealedOn x session state.previousHash u ∧ u.deviceSequence = state.nextDeviceSequence := by
  obtain ⟨e, he, hwire, hhash, _, _, hseq⟩ := sealUpload_ok h
  obtain ⟨payload, _, hseal⟩ := sealEnvelope_ok he
  obtain ⟨_, _, _, _, hheader, _, _⟩ := protocolSeal_facts hseal
  obtain ⟨hv, hb, _⟩ := (toWire_ok_iff e u.wire).mp hwire
  refine ⟨⟨e, hv, hb, toWire_eq_wireFields hwire, hhash, ?_, ?_, ?_, ?_⟩, hseq⟩
  · rw [hheader]
    rfl
  · rw [hheader]
    rfl
  · rw [hheader, hseq]
    rfl
  · rw [hheader]
    rfl

def Chained (x : Externals) (session : Session) (uploads : List PreparedUpload) : Prop :=
  ∀ (i : ℕ) (u : PreparedUpload), uploads[i]? = some u →
    u.deviceSequence = i+1 ∧ SealedOn x session (hashAt uploads i) u

variable {u : PreparedUpload} {row : EnvelopeRow}

variable {x}

theorem Chained.concat (h : Chained x session uploads) (hseq : u.deviceSequence = uploads.length+1)
    (hu : SealedOn x session (hashAt uploads uploads.length) u) :
    Chained x session (uploads ++ [u]) := by
  intro i v hv
  rcases Nat.lt_or_ge i uploads.length with hi | hi
  · rw [getElem?_append_left hi] at hv
    rw [hashAt_append uploads [u] hi.le]
    exact h i v hv
  · rw [getElem?_append_right hi, getElem?_singleton] at hv
    split_ifs at hv with hz
    cases hv
    obtain rfl : i = uploads.length := by omega
    rw [hashAt_append uploads [u] le_rfl]
    exact ⟨hseq, hu⟩

theorem Chained.getElem (h : Chained x session uploads) (hu : u ∈ uploads) :
    ∃ i, uploads[i]? = some u ∧ u.deviceSequence = i+1 := by
  obtain ⟨i, hi⟩ := mem_iff_getElem?.mp hu
  exact ⟨i, hi, (h i u hi).1⟩

def Holds (row : EnvelopeRow) (u : PreparedUpload) : Prop :=
  row.deviceSeq = u.deviceSequence ∧ row.recordHash = u.envelopeHash ∧
    row.outgoing = { u.wire with deviceID := row.deviceID, cursor := row.cursor }

def HoldsInitial (chain : List EnvelopeRow) (uploads : List PreparedUpload) : Prop :=
  ∀ (i : ℕ) (row : EnvelopeRow), chain[i]? = some row → ∃ u, uploads[i]? = some u ∧ Holds row u

theorem HoldsInitial.length_le (h : HoldsInitial chain uploads) :
    chain.length ≤ uploads.length := by
  by_contra hlt
  obtain ⟨u, hu, _⟩ := h uploads.length _ (getElem?_eq_getElem (by omega))
  simp at hu

theorem HoldsInitial.append (h : HoldsInitial chain uploads) (more : List PreparedUpload) :
    HoldsInitial chain (uploads ++ more) := by
  intro i row hrow
  obtain ⟨u, hu, hh⟩ := h i row hrow
  exact ⟨u, getElem?_append_of_some hu, hh⟩

theorem HoldsInitial.concat (h : HoldsInitial chain uploads) (hu : uploads[chain.length]? = some u)
    (hh : Holds row u) : HoldsInitial (chain ++ [row]) uploads := by
  intro i r hr
  rcases Nat.lt_or_ge i chain.length with hi | hi
  · rw [getElem?_append_left hi] at hr
    exact h i r hr
  · rw [getElem?_append_right hi, getElem?_singleton] at hr
    split_ifs at hr with hz
    cases hr
    obtain rfl : i = chain.length := by omega
    exact ⟨u, hu, hh⟩

theorem HoldsInitial.deviceSeq (h : HoldsInitial chain uploads) (hc : Chained x session uploads)
    {i : ℕ} (hrow : chain[i]? = some row) :
    row.deviceSeq = i+1 := by
  obtain ⟨u, hu, hh⟩ := h i row hrow
  exact hh.1.trans (hc i u hu).1

theorem filter_numbered {α : Type} (f : α → ℕ) {l : List α} (c : ℕ)
    (h : ∀ (j : ℕ) (r : α), l[j]? = some r → f r = j+c) (i : ℕ) :
    l.filter (fun r => f r = i+c) = l[i]?.toList := by
  induction l generalizing c i with
  | nil => simp
  | cons a rest ih =>
    have hrest (j : ℕ) (r : α) (hr : rest[j]? = some r) : f r = j+(c+1) := by
      rw [h (j+1) r hr]
      omega
    have ha : f a = c := by simpa using h 0 a rfl
    cases i with
    | zero =>
      have hnone : rest.filter (fun r => f r = 0+c) = [] := by
        rw [filter_eq_nil_iff]
        intro r hr
        obtain ⟨j, hj⟩ := mem_iff_getElem?.mp hr
        have := hrest j r hj
        simp only [decide_eq_true_eq]
        omega
      rw [filter_cons_of_pos (by simp [ha]), hnone]
      rfl
    | succ i =>
      rw [filter_cons_of_neg (by simp [ha])]
      have hgo := ih (c+1) hrest i
      simp only [show i+1+c = i+(c+1) by omega]
      exact hgo

theorem HoldsInitial.lastRecord (h : HoldsInitial chain uploads) (hc : Chained x session uploads) :
    YunPin.lastRecord chain = (chain.length, hashAt uploads chain.length) := by
  rw [lastRecord_numbered (fun i row hrow => h.deviceSeq hc hrow)]
  rcases eq_nil_or_concat' chain with rfl | ⟨init, row, rfl⟩
  · rfl
  obtain ⟨u, hu, hh⟩ := h init.length row (by simp)
  simp [hashAt, hu, hh.2.1]

variable {db : RelayDB}

theorem syncEnvelopes_chain_other {c : Crypto} {input : SyncRequest} {account device : Bytes}
    (h : identity.id ≠ device) :
    (syncEnvelopes c identity input db).2.chain account device = db.chain account device := by
  apply syncEnvelopes_induction c identity input
    (fun db' => db'.chain account device = db.chain account device) rfl
  · intro db' e _ hd _ _
    rw [chain_insertEnvelope_ne db' identity e (fun he => h he.2), hd]
  · intro db' cursor hd
    exact hd

theorem Traffic.envelopes_subset {κ ι : Type} {cfg : κ → HostConfig} {s : System κ ι}
    (ht : Traffic x cfg s) {r : Relay} {a : RelayAction} (hm : RelayMove x cfg s a)
    (h : s.relay.step x.crypto a = some r) : s.relay.db.envelopes ⊆ r.db.envelopes := by
  rcases ht.relay_cases cfg hm h with ⟨⟨henv, _⟩, _⟩ | ⟨identity, input, _, hdb, _⟩ |
    ⟨_, _, request, identity, _, _, _, hdb, _⟩
  · rw [henv]
    exact List.Subset.refl _
  · rw [hdb]
    exact (syncEnvelopes_appends x.crypto identity input _).envelopes.subset
  · rw [hdb]
    exact (syncEnvelopes_appends x.crypto identity request _).envelopes.subset

theorem validateEnvelope_sealedOn (hid : identity.id = hexEncode session.deviceID)
    (hacc : identity.accountID = hexEncode session.accountID) {previous : Bytes}
    (hu : SealedOn x session previous u) {e : DecodedEnvelope}
    (h : validateEnvelope x.crypto identity u.wire = .ok e) :
    e.wire.deviceSeq = u.deviceSequence ∧ e.previousHash = previous ∧
      e.recordHash = u.envelopeHash ∧ ∀ cursor, Holds (e.row identity cursor) u := by
  obtain ⟨env, hv, hb, hwire, hhash, hacc', hdev', hseq, hprev⟩ := hu
  rw [hwire, validateEnvelope_wireFields x.crypto identity hv hb (by rw [hacc, hacc'])
    (by rw [hid, hdev'])] at h
  split_ifs at h
  cases h
  have hrec : x.crypto.sha256 (x.crypto.canonicalHeader env.header ++ env.ciphertext ++
      env.signature) = u.envelopeHash := by
    simp only [envelopeHash, hv, hb] at hhash
    exact Except.ok.inj hhash
  refine ⟨hseq, hprev, hrec, ?_⟩
  intro cursor
  refine ⟨hseq, hrec, ?_⟩
  rw [hwire]
  rfl

variable (hid : identity.id = hexEncode session.deviceID)
  (hacc : identity.accountID = hexEncode session.accountID) (hc : Chained x session uploads)
  (hh : HoldsInitial (db.chain identity.accountID identity.id) uploads)
  (hlen : uploads.length ≤ (db.chain identity.accountID identity.id).length+1)
include hid hacc hc hh hlen

theorem uploadOne_own (hu : u ∈ uploads)
    {e : DecodedEnvelope} (he : validateEnvelope x.crypto identity u.wire = .ok e) :
    ∃ db', uploadOne identity ⟨db, [], []⟩ e = ⟨db', [u.deviceSequence], []⟩ ∧
      HoldsInitial (db'.chain identity.accountID identity.id) uploads ∧
      (db.chain identity.accountID identity.id).length ≤
        (db'.chain identity.accountID identity.id).length ∧
      u.deviceSequence ≤ (db'.chain identity.accountID identity.id).length := by
  obtain ⟨i, hi, hseq⟩ := hc.getElem hu
  obtain ⟨hdecSeq, hdecPrev, hdecHash, hholds⟩ := validateEnvelope_sealedOn hid
    hacc (hc i u hi).2 he
  generalize hch : db.chain identity.accountID identity.id = chain at hh hlen
  have hilt : i < uploads.length := (List.getElem?_eq_some_iff.mp hi).1
  unfold uploadOne
  simp only [hch, hdecSeq]
  cases hf : chain.find? (fun r => decide (r.deviceSeq = u.deviceSequence)) with
  | some existing =>
    -- Stored already: the row at this sequence is the one that holds the upload.
    obtain ⟨j, hj⟩ := mem_iff_getElem?.mp (mem_of_find?_eq_some hf)
    have hes : existing.deviceSeq = u.deviceSequence := by simpa using find?_some hf
    have hjs := hh.deviceSeq hc hj
    obtain ⟨v, hv, hhv⟩ := hh j existing hj
    obtain rfl : j = i := by omega
    obtain rfl : v = u := Option.some.inj (hv.symm.trans hi)
    have hhash : existing.recordHash = e.recordHash := hhv.2.1.trans hdecHash.symm
    have hjlt : j < chain.length := (List.getElem?_eq_some_iff.mp hj).1
    refine ⟨db, by simp only [hhash, if_true]; rfl, by rwa [hch], by rw [hch], by rw [hch]; omega⟩
  | none =>
    -- Not stored: the chain has at least all uploads but one, so this is the next.
    have hge : chain.length ≤ i := by
      by_contra hlt
      have hrow : chain[i]? = some (chain.get ⟨i, by omega⟩) := by
        rw [get_eq_getElem]
        exact getElem?_eq_getElem _
      have hs := hh.deviceSeq hc hrow
      have hno := find?_eq_none.mp hf _ (mem_of_getElem? hrow)
      exact hno (decide_eq_true (by omega))
    obtain rfl : i = chain.length := by omega
    have hlast := hh.lastRecord hc
    simp only [hlast, hseq, ne_eq, not_true_eq_false, if_false, hdecPrev]
    refine ⟨db.insertEnvelope identity e, rfl, ?_, ?_, ?_⟩
    all_goals rw [chain_insertEnvelope_own, hch]
    · exact hh.concat hi (hholds _)
    · simp
    · simp

/-- A sync request with an upload of the chain, or with none, keeps the relay's
chain an initial part of the uploads and is never rejected. -/
theorem syncEnvelopes_own {request : SyncRequest}
    (hreq : request.envelopes = [] ∨ ∃ u ∈ uploads, request.envelopes = [u.wire]) :
    HoldsInitial ((syncEnvelopes x.crypto identity request db).2.chain
        identity.accountID identity.id) uploads ∧
      (db.chain identity.accountID identity.id).length ≤
        ((syncEnvelopes x.crypto identity request db).2.chain
          identity.accountID identity.id).length ∧
      ∀ response, (syncEnvelopes x.crypto identity request db).1.body = .sync response →
        response.rejectedSequences = [] ∧ ∀ q ∈ response.acceptedSequences,
          q ≤ ((syncEnvelopes x.crypto identity request db).2.chain
            identity.accountID identity.id).length := by
  rcases syncEnvelopes_cases x.crypto identity request db with
    ⟨status, code, he⟩ | ⟨response, db', decoded, page, he, hs⟩
  · rw [he]
    exact ⟨hh, le_rfl, fun _ hbody => by simp [writeError] at hbody⟩
  · -- A device sends one upload at a time, so the batch is empty or has one entry.
    have hup : ∃ db'' accepted, uploadBatch identity db (splitBatch (sortBatch decoded)) =
        ⟨db'', accepted, []⟩ ∧ HoldsInitial (db''.chain identity.accountID identity.id) uploads ∧
        (db.chain identity.accountID identity.id).length ≤
          (db''.chain identity.accountID identity.id).length ∧
        ∀ q ∈ accepted, q ≤ (db''.chain identity.accountID identity.id).length := by
      rcases hreq with hnil | ⟨u, hu, hwire⟩
      · have hval := hs.validated
        rw [hnil] at hval
        cases hval
        exact ⟨db, [], rfl, hh, le_rfl, by simp⟩
      · have hval := hs.validated
        rw [hwire] at hval
        simp only [validateBatch] at hval
        split at hval
        · simp at hval
        rename_i e hve
        cases hval
        obtain ⟨db'', hone, hh', hle, hq⟩ := uploadOne_own hid hacc hc hh hlen hu hve
        exact ⟨db'', [u.deviceSequence], hone, hh', hle, by simpa using hq⟩
    obtain ⟨db'', accepted, hbatch, hh', hle, hq⟩ := hup
    have hdb : db'.chain identity.accountID identity.id =
        db''.chain identity.accountID identity.id := by
      rw [hs.database, hbatch]
      rfl
    rw [he]
    simp only [hdb]
    refine ⟨hh', hle, ?_⟩
    intro r hr
    obtain rfl : response = r := by simpa using hr
    rw [hs.rejected, hs.accepted, hbatch]
    exact ⟨rfl, hq⟩

end YunPin
