import YunPin.RelayChain
import YunPin.SyncSystem

/-! Who speaks to the relay in whose name: requests under a device's token come
from that device's workers, so every stored envelope of the device was sent by
them, and every reply a worker sees answers its own request. -/
namespace YunPin
open ByteText List

def Enrolled (c : Crypto) (session : Session) (db : RelayDB) : Prop :=
  ∃ token, bearerToken session.authorization = some token ∧ ∃ row ∈ db.devices,
    row.tokenHash = digest c token ∧ row.id = hexEncode session.deviceID ∧
      row.accountID = hexEncode session.accountID

variable {c : Crypto} {identity : DeviceIdentity} {session : Session}

theorem enrolled_step {s s' : Relay} {a : RelayAction} (h : s.step c a = some s')
    (he : Enrolled c session s.db) : Enrolled c session s'.db := by
  obtain ⟨g, added, hdev, hg, _, _⟩ := Relay.step_devices h
  obtain ⟨token, htoken, row, hrow, hhash, hid, hacc⟩ := he
  refine ⟨token, htoken, g row, ?_, ?_, ?_, ?_⟩
  · rw [hdev]
    exact mem_append_left _ (mem_map_of_mem hrow)
  · have hf : (g row).fixed.tokenHash = row.fixed.tokenHash := by rw [hg]
    exact hf.trans hhash
  · have hf : (g row).fixed.id = row.fixed.id := by rw [hg]
    exact hf.trans hid
  · have hf : (g row).fixed.accountID = row.fixed.accountID := by rw [hg]
    exact hf.trans hacc

theorem authenticate_own {db : RelayDB} (hu : db.UniqueDevices) (he : Enrolled c session db)
    (h : authenticate c db session.authorization = .ok identity) :
    identity.id = hexEncode session.deviceID ∧ identity.accountID = hexEncode session.accountID := by
  obtain ⟨token, htoken, row, hrow, hhash, hid, hacc⟩ := he
  obtain ⟨token', htoken', row', hrow', hhash', _, rfl⟩ := authenticate_ok h
  obtain rfl : token = token' := Option.some.inj (htoken.symm.trans htoken')
  have heq : row' = row := inj_on_of_nodup_map hu.tokens hrow' hrow (hhash'.trans hhash.symm)
  subst heq
  exact ⟨hid, hacc⟩

theorem authenticate_foreign {db : RelayDB} (hu : db.UniqueDevices) (he : Enrolled c session db)
    {header : Bytes} (hf : sameToken c header session = false)
    (h : authenticate c db header = .ok identity) : identity.id ≠ hexEncode session.deviceID := by
  obtain ⟨token, htoken, row, hrow, hhash, hid, _⟩ := he
  obtain ⟨token', htoken', row', hrow', hhash', _, rfl⟩ := authenticate_ok h
  intro heq
  have hrows : row' = row := inj_on_of_nodup_map hu.ids hrow' hrow (heq.trans hid.symm)
  subst hrows
  simp only [sameToken, htoken, htoken', Option.map_some, decide_eq_false_iff_not] at hf
  exact hf (congrArg some (hhash'.symm.trans hhash))

theorem getElem?_append_of_some {α : Type} {l : List α} {n : ℕ} {a : α} (h : l[n]? = some a)
    {more : List α} : (l ++ more)[n]? = some a := by
  obtain ⟨hlt, _⟩ := List.getElem?_eq_some_iff.mp h
  rw [getElem?_append_left hlt, h]

section
variable {κ ι : Type}

/-- Devices that are enrolled but have never synced: a database just bound to its
device, no chain on the relay and nothing on the way. -/
structure System.Initial (x : Externals) (cfg : κ → HostConfig) (s : System κ ι) : Prop where
  idle : ∀ k i, (s.hosts k).phase i = .idle
  history : ∀ k, (s.hosts k).history = []
  checkpoint : ∀ k, (s.hosts k).db.syncState = some ⟨(cfg k).store.deviceID, 0, 1, [], none⟩
  calls : s.calls = []
  flights : s.relay.flights = []
  replies : s.relay.replies = []
  unique : s.relay.db.UniqueDevices
  cursors : s.relay.db.CursorsOrdered
  enrolled : ∀ k, Enrolled x.crypto (cfg k).session s.relay.db
  distinct : ∀ k k', hexEncode (cfg k).session.deviceID = hexEncode (cfg k').session.deviceID →
    k = k'
  chain : ∀ k, s.relay.db.chain (hexEncode (cfg k).session.accountID)
    (hexEncode (cfg k).session.deviceID) = []

/-- A request in flight that answers a call is that call, in the name of the device that sent it;
any other sync request is in the name of another device. -/
structure Flight.Answers (cfg : κ → HostConfig) (calls : List (κ × SyncRequest)) (f : Flight) :
    Prop where
  own : ∀ n, f.call = some n → ∃ k request, calls[n]? = some (k, request) ∧ f.op = .sync request ∧
    f.identity.id = hexEncode (cfg k).session.deviceID ∧
    f.identity.accountID = hexEncode (cfg k).session.accountID
  foreign : f.call = none → f.op.isSync = true →
    ∀ k, f.identity.id ≠ hexEncode (cfg k).session.deviceID

structure Traffic (x : Externals) (cfg : κ → HostConfig) (s : System κ ι) : Prop where
  unique : s.relay.db.UniqueDevices
  enrolled : ∀ k, Enrolled x.crypto (cfg k).session s.relay.db
  flights : ∀ f ∈ s.relay.flights, f.Answers cfg s.calls

variable {x : Externals} {cfg : κ → HostConfig} {s : System κ ι}

theorem System.Initial.traffic (h : s.Initial x cfg) : Traffic x cfg s :=
  ⟨h.unique, h.enrolled, by simp [h.flights]⟩

variable {a : RelayAction}

theorem Traffic.relay_step (cfg : κ → HostConfig) {r : Relay} (ht : Traffic x cfg s)
    (hm : RelayMove x cfg s a) (h : s.relay.step x.crypto a = some r) :
    Traffic x cfg { s with relay := r } := by
  -- A request in flight after the step was there before or has just authenticated.
  have hall : ∀ f ∈ r.flights, f.Answers cfg s.calls := by
    intro f hf
    rcases Relay.step_cases h with ⟨header, op, call, rfl, _, hfl⟩ |
      ⟨i, _, _, _, _, _, hfl⟩ | ⟨_, _, _, _, hfl⟩
    · rcases hfl with hfl | ⟨identity, hauth, hfl⟩
      · exact ht.flights f (hfl ▸ hf)
      · rw [hfl] at hf
        rcases mem_append.mp hf with hf | hf
        · exact ht.flights f hf
        · obtain rfl := mem_singleton.mp hf
          cases hm with
          | foreign _ _ hforeign =>
            refine ⟨by simp, fun _ hop k => ?_⟩
            exact authenticate_foreign ht.unique (ht.enrolled k) (hforeign hop k) hauth
          | deliver n k request hn =>
            refine ⟨fun m hm => ?_, by simp⟩
            cases hm
            obtain ⟨hid, hacc⟩ := authenticate_own ht.unique (ht.enrolled k) hauth
            exact ⟨k, request, hn, rfl, hid, hacc⟩
    · exact ht.flights f (mem_of_mem_eraseIdx (hfl ▸ hf))
    · exact ht.flights f (hfl ▸ hf)
  exact ⟨uniqueDevices_step h ht.unique, fun k => enrolled_step h (ht.enrolled k), hall⟩

theorem Traffic.step [DecidableEq κ] [Fintype κ] [DecidableEq ι] (cfg : κ → HostConfig)
    {s' : System κ ι} {a : Action κ ι} (ht : Traffic x cfg s) (h : s.step x cfg a = some s') :
    Traffic x cfg s' := by
  rcases System.step_cases cfg h with ⟨ra, r, hm, hr, rfl⟩ | ⟨k, i, _, _, _, _, rfl⟩ |
    ⟨k, i, state, request, _, _, rfl⟩
  · exact ht.relay_step cfg hm hr
  · exact { ht with }
  · refine ⟨ht.unique, ht.enrolled, fun f hf => ⟨fun n hn => ?_, (ht.flights f hf).foreign⟩⟩
    obtain ⟨k', request', hcall, hrest⟩ := (ht.flights f hf).own n hn
    exact ⟨k', request', getElem?_append_of_some hcall, hrest⟩

/-- What a relay step does to the stored envelopes and to the replies: nothing but
an error reply, the sync request of another device, or a worker's own request. -/
theorem Traffic.relay_cases (cfg : κ → HostConfig) {r : Relay} (ht : Traffic x cfg s)
    (hm : RelayMove x cfg s a) (h : s.relay.step x.crypto a = some r) :
    ((r.db.envelopes = s.relay.db.envelopes ∧ r.db.lastCursor = s.relay.db.lastCursor) ∧
      (r.replies = s.relay.replies ∨
        ∃ n status code, r.replies = s.relay.replies ++ [(n, writeError status code)])) ∨
    (∃ identity input, (∀ k, identity.id ≠ hexEncode (cfg k).session.deviceID) ∧
      r.db = (syncEnvelopes x.crypto identity input s.relay.db).2 ∧ r.replies = s.relay.replies) ∨
    (∃ n k request identity, s.calls[n]? = some (k, request) ∧
      identity.id = hexEncode (cfg k).session.deviceID ∧
      identity.accountID = hexEncode (cfg k).session.accountID ∧
      r.db = (syncEnvelopes x.crypto identity request s.relay.db).2 ∧
      r.replies = s.relay.replies ++
        [(n, (syncEnvelopes x.crypto identity request s.relay.db).1)]) := by
  cases a with
  | arrive header op call =>
    left
    simp only [Relay.step] at h
    split at h
    · rename_i reply hauth
      cases h
      obtain ⟨status, code, rfl⟩ := authenticate_error hauth
      cases call with
      | none => exact ⟨⟨rfl, rfl⟩, .inl rfl⟩
      | some n => exact ⟨⟨rfl, rfl⟩, .inr ⟨n, status, code, rfl⟩⟩
    · cases h
      exact ⟨⟨rfl, rfl⟩, .inl rfl⟩
  | run i moment =>
    simp only [Relay.step] at h
    split at h
    · simp at h
    rename_i f hf
    cases h
    have hmem : f ∈ s.relay.flights := mem_of_getElem? hf
    cases hcall : f.call with
    | some n =>
      obtain ⟨k, request, hn, hop, hid, hacc⟩ := (ht.flights f hmem).own n hcall
      refine .inr (.inr ⟨n, k, request, f.identity, hn, hid, hacc, ?_, ?_⟩)
      · rw [Relay.post_db, hop]
        rfl
      · simp only [Relay.post, hop, AuthOp.exec]
    | none =>
      -- A request of another client: its answer goes nowhere in this system.
      by_cases hsync : f.op.isSync = true
      · right
        left
        obtain ⟨input, hop⟩ : ∃ input, f.op = .sync input := by
          cases hop : f.op with
          | sync input => exact ⟨input, rfl⟩
          | _ =>
            rw [hop] at hsync
            simp [AuthOp.isSync] at hsync
        refine ⟨f.identity, input, (ht.flights f hmem).foreign hcall hsync, ?_, ?_⟩
        · rw [Relay.post_db, hop]
          rfl
        · simp only [Relay.post]
      · refine .inl ⟨?_, .inl (by simp only [Relay.post])⟩
        rw [Relay.post_db]
        apply AuthOp.exec_envelopes
        intro input hop
        rw [hop] at hsync
        exact hsync rfl
  | serve op moment =>
    cases h
    refine .inl ⟨?_, .inl rfl⟩
    rcases op.exec_cases x.crypto moment s.relay.db with he | ⟨_, _, _, _, _, _, he⟩ |
      ⟨_, _, _, _, _, _, _, _, _, he⟩ | ⟨_, _, _, _, _, he⟩
    all_goals
      rw [he]
      exact ⟨rfl, rfl⟩

/-- A sync answer that a relay step leaves was there before, or the step has served the
request it answers. -/
theorem Traffic.reply_cases (ht : Traffic x cfg s) {r : Relay} (hm : RelayMove x cfg s a)
    (h : s.relay.step x.crypto a = some r) {n : ℕ} {reply : Reply} {response : SyncResponse}
    (hmem : (n, reply) ∈ r.replies) (hbody : reply.body = .sync response) :
    (n, reply) ∈ s.relay.replies ∨
    ∃ k request identity, s.calls[n]? = some (k, request) ∧
      identity.id = hexEncode (cfg k).session.deviceID ∧
      identity.accountID = hexEncode (cfg k).session.accountID ∧
      r.db = (syncEnvelopes x.crypto identity request s.relay.db).2 ∧
      (syncEnvelopes x.crypto identity request s.relay.db).1.body = .sync response := by
  rcases ht.relay_cases cfg hm h with ⟨_, hrep | ⟨_, _, _, hrep⟩⟩ | ⟨_, _, _, _, hrep⟩ |
    ⟨n', k, request, identity, hcall, hid, hacc, hdb, hrep⟩
  · exact .inl (hrep ▸ hmem)
  · -- The new answer is an error, which has no page.
    rw [hrep] at hmem
    rcases mem_append.mp hmem with hmem | hmem
    · exact .inl hmem
    · obtain ⟨_, rfl⟩ := Prod.mk.inj (mem_singleton.mp hmem)
      simp [writeError] at hbody
  · exact .inl (hrep ▸ hmem)
  · rw [hrep] at hmem
    rcases mem_append.mp hmem with hmem | hmem
    · exact .inl hmem
    · obtain ⟨rfl, rfl⟩ := Prod.mk.inj (mem_singleton.mp hmem)
      exact .inr ⟨k, request, identity, hcall, hid, hacc, hdb, hbody⟩

end

end YunPin
