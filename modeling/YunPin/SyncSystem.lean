import YunPin.RelayFlight
import YunPin.SyncWorker

/-! Devices, their local databases and the relay as one machine. A device may run
several sync workers on one database, each through a store handle of its own. A
worker takes one step per transaction or message. Requests that were sent stay
available: a copy may reach the relay at any time, any number of times, or never;
so may a reply reach the worker that waits for it. -/
namespace YunPin
open ByteText List Option

structure HostConfig where
  store : Store
  session : Session

inductive Mutation
  | save (phrase : Phrase)
  | select (phrase : Phrase) (learning : LearningContext)
  | delete (text pinyin : Bytes)
deriving DecidableEq

/-- The write of a local operation, if it made one, and the database after it. -/
def Mutation.exec (x : Externals) (store : Store) (now : Reading) (m : Mutation) (db : LocalDB) :
    Option Write × LocalDB :=
  let outcome {α : Type} (r : Except String (Plan α) × LocalDB) : Option Write × LocalDB :=
    match r with
    | (.ok plan, db') => (plan.write, db')
    | (.error _, db') => (none, db')
  match m with
  | .save phrase => outcome (saveExplicit x store now phrase db)
  | .select phrase learning => outcome (recordSelection x store now phrase learning db)
  | .delete text pinyin => outcome (deletePhrase x store now text pinyin db)

inductive MergeStage
  | loaded (m : Merge)
  | migrated (m : Merge)
  | observed (m : Merge) (record : Phrase)
deriving DecidableEq

/-- Where `SyncOnce` stands, with the values it holds. `state` is the checkpoint
the request was made from and `next` the cursor of the reply. -/
inductive Phase
  | idle
  | loaded (state : SyncState)
  | sealed (event : PendingEvent) (upload : PreparedUpload)
  | staged
  | ready (state : SyncState)
  | waiting (state : SyncState) (call : ℕ)
  | merging (state : SyncState) (next : ℤ) (payloads : List PhrasePayload)
  | inMerge (state : SyncState) (next : ℤ) (stage : MergeStage) (rest : List PhrasePayload)
  | committed (state : SyncState) (next : ℤ)

def Phase.locked : Phase → Bool
  | .inMerge _ _ _ _ => true
  | _ => false

inductive Event
  /-- A local operation wrote the record of an object, and maybe enqueued it. -/
  | wrote (id : ObjectID) (record : Phrase) (enqueued : Bool)
  /-- An outbox event was staged for upload. -/
  | staged (upload : PreparedUpload) (event : PendingEvent)
  | committed (upload : PreparedUpload)
  /-- A payload was passed to `MergeRemotePayload`, which succeeded. -/
  | merged (payload : PhrasePayload)

structure Host (ι : Type) where
  db : LocalDB
  phase : ι → Phase
  history : List Event

inductive WorkerAction
  /-- The worker stops, by an error of its surroundings or with its process. -/
  | crash
  | load
  | pending (random : RandomSource)
  | stage
  | reload
  | mergeLoad
  | mergeMigrate (now : Reading)
  | mergeObserve
  | mergeWrite
  | commit
  | advance

/-- A worker's step on its database: the new database, the next phase, and what
happened. An error ends the round. -/
def workerStep (x : Externals) (cfg : HostConfig) (db : LocalDB) (phase : Phase)
    (a : WorkerAction) : Option (LocalDB × Phase × List Event) :=
  match a, phase with
  | .crash, _ => some (db, .idle, [])
  | .load, .idle =>
    match cfg.session.validate x.crypto with
    | .error _ => some (db, .idle, [])
    | .ok () =>
      match loadSyncState cfg.store db with
      | .error _ => some (db, .idle, [])
      | .ok state =>
        if state.deviceID ≠ hexEncode cfg.session.deviceID then some (db, .idle, [])
        else some (db, .loaded state, [])
  | .pending random, .loaded state =>
    match state.prepared with
    | some _ => some (db, .ready state, [])
    | none =>
      match pendingEvents cfg.store db 1 with
      | .error _ => some (db, .idle, [])
      | .ok [] => some (db, .ready state, [])
      | .ok (event :: _) =>
        match sealUpload x cfg.session state event random with
        | .error _ => some (db, .idle, [])
        | .ok upload => some (db, .sealed event upload, [])
  | .stage, .sealed event upload =>
    match savePreparedUpload cfg.store upload db with
    | .error _ => some (db, .idle, [])
    | .ok db' => some (db', .staged,
        -- Staging the identical upload again changes nothing.
        if (db.syncState.bind (·.prepared)) = some upload then [] else [.staged upload event])
  | .reload, .staged =>
    match loadSyncState cfg.store db with
    | .error _ => some (db, .idle, [])
    | .ok state => some (db, .ready state, [])
  | .mergeLoad, .merging state next (payload :: rest) =>
    match YunPin.mergeLoad x cfg.store payload db with
    | .error _ => some (db, .idle, [])
    | .ok m => some (db, .inMerge state next (.loaded m) rest, [])
  | .mergeMigrate now, .inMerge state next (.loaded m) rest =>
    match m.migrate cfg.store now db with
    | (.error _, db') => some (db', .idle, [])
    | (.ok m', db') => some (db', .inMerge state next (.migrated m') rest, [])
  | .mergeObserve, .inMerge state next (.migrated m) rest =>
    match m.record x cfg.store with
    | .error _ => some (db, .idle, [])
    | .ok record =>
      some (observeHLC (latestClock record) db, .inMerge state next (.observed m record) rest, [])
  | .mergeWrite, .inMerge state next (.observed m record) rest =>
    match upsert x cfg.store record false db with
    | (.error _, db') => some (db', .idle, [])
    | (.ok (), db') => some (db', .merging state next rest, [.merged m.payload])
  | .commit, .merging state next [] =>
    match state.prepared with
    | none => none
    | some _ =>
      match commitPreparedUpload cfg.store db with
      | .error _ => some (db, .idle, [])
      | .ok (_, db') => some (db', .committed state next,
          ((db.syncState.bind (·.prepared)).toList.map .committed))
  | .advance, .merging state next [] =>
    match state.prepared with
    | some _ => none
    | none =>
      match advanceSyncCursor cfg.store state.cursor next db with
      | .error _ => some (db, .idle, [])
      | .ok db' => some (db', .idle, [])
  | .advance, .committed state next =>
    match advanceSyncCursor cfg.store state.cursor next db with
    | .error _ => some (db, .idle, [])
    | .ok db' => some (db', .idle, [])
  | _, _ => none

def onReply (x : Externals) (session : Session) (state : SyncState) (reply : Reply) : Phase :=
  match clientResponse state.cursor reply with
  | .error _ => .idle
  | .ok response =>
    match checkUpload state.prepared response with
    | .error _ => .idle
    | .ok () =>
      match decodeDownloads x session response state.cursor with
      | .error _ => .idle
      | .ok payloads => .merging state response.nextCursor payloads

/-- The relay, every request a worker has sent with its sender, and the devices. -/
structure System (κ ι : Type) where
  relay : Relay
  calls : List (κ × SyncRequest)
  hosts : κ → Host ι

inductive Action (κ ι : Type)
  /-- A request of somebody else arrives at the relay. -/
  | arrive (header : Bytes) (op : AuthOp)
  | serve (op : OpenOp) (moment : Moment)
  /-- A copy of a worker's request arrives at the relay. -/
  | deliver (call : ℕ)
  /-- The handler of a request in flight runs. -/
  | run (flight : ℕ) (moment : Moment)
  | mutate (k : κ) (i : ι) (m : Mutation) (now : Reading)
  /-- A local operation dies between its clock tick and its write. -/
  | tick (k : κ) (i : ι) (now : Reading)
  | worker (k : κ) (i : ι) (a : WorkerAction)
  | send (k : κ) (i : ι)
  | receive (k : κ) (i : ι) (reply : ℕ)

/-- Whether a request in another's name could be taken for the device's own. -/
def sameToken (c : Crypto) (header : Bytes) (session : Session) : Bool :=
  (bearerToken header).map (digest c) = (bearerToken session.authorization).map (digest c)

def AuthOp.isSync : AuthOp → Bool
  | .sync _ => true
  | _ => false

section
variable {κ ι : Type} [DecidableEq κ] [Fintype κ] [DecidableEq ι]

def System.setHost (s : System κ ι) (k : κ) (i : ι) (db : LocalDB) (phase : Phase)
    (events : List Event) : System κ ι :=
  let host : Host ι :=
    ⟨db, Function.update (s.hosts k).phase i phase, (s.hosts k).history ++ events⟩
  { s with hosts := Function.update s.hosts k host }

def System.step (x : Externals) (cfg : κ → HostConfig) (s : System κ ι) (a : Action κ ι) :
    Option (System κ ι) :=
  match a with
  | .arrive header op =>
    -- Only the workers themselves send sync requests under a device's token.
    if op.isSync ∧ ∃ k, sameToken x.crypto header (cfg k).session then none
    else (s.relay.step x.crypto (.arrive header op none)).map (fun r => { s with relay := r })
  | .serve op moment =>
    (s.relay.step x.crypto (.serve op moment)).map (fun r => { s with relay := r })
  | .deliver n =>
    match s.calls[n]? with
    | none => none
    | some (k, request) => (s.relay.step x.crypto
        (.arrive (cfg k).session.authorization (.sync request) (some n))).map
        (fun r => { s with relay := r })
  | .run i moment =>
    (s.relay.step x.crypto (.run i moment)).map (fun r => { s with relay := r })
  | .mutate k i m now =>
    let h := s.hosts k
    if (h.phase i).locked then none
    else
      match m.exec x (cfg k).store now h.db with
      | (none, db') => some (s.setHost k i db' (h.phase i) [])
      | (some w, db') => some (s.setHost k i db' (h.phase i)
          (((cfg k).store.objectID x w.record.text w.record.pinyin).toOption.toList.map
            (fun id => .wrote id (jsonPhrase w.record) w.enqueue)))
  | .tick k i now =>
    let h := s.hosts k
    if (h.phase i).locked then none
    else some (s.setHost k i (nextHLC (cfg k).store now h.db).2 (h.phase i) [])
  | .worker k i a =>
    let h := s.hosts k
    (workerStep x (cfg k) h.db (h.phase i) a).map (fun r => s.setHost k i r.1 r.2.1 r.2.2)
  | .send k i =>
    let h := s.hosts k
    match h.phase i with
    | .ready state =>
      match syncRequest state with
      | .error _ => some (s.setHost k i h.db .idle [])
      | .ok request =>
        match clientRequest (cfg k).session request with
        | .error _ => some (s.setHost k i h.db .idle [])
        | .ok () => some { s.setHost k i h.db (.waiting state s.calls.length) [] with
            calls := s.calls ++ [(k, request)] }
    | _ => none
  | .receive k i n =>
    let h := s.hosts k
    match h.phase i with
    | .waiting state call =>
      match s.relay.replies[n]? with
      | none => none
      | some (call', reply) =>
        if call' ≠ call then none
        else some (s.setHost k i h.db (onReply x (cfg k).session state reply) [])
    | _ => none

end

def Mutation.text : Mutation → Bytes
  | .save phrase => phrase.text
  | .select phrase _ => phrase.text
  | .delete text _ => text

def Mutation.pinyin : Mutation → Bytes
  | .save phrase => phrase.pinyin
  | .select phrase _ => phrase.pinyin
  | .delete _ pinyin => pinyin

/-- What a local operation decides to write, from its clock tick and the record it
has read. -/
def Mutation.write? (store : Store) (now : Reading) (m : Mutation) (id : ObjectID) (clock : HLC)
    (existing : Option Phrase) : Option Write :=
  match m with
  | .save phrase => (explicitPlan store phrase id clock existing).toOption.bind (·.write)
  | .select phrase learning =>
    if learning.disabled then none
    else (selectionPlan store now phrase id clock existing).toOption.bind (·.write)
  | .delete text pinyin => (deletionPlan store text pinyin id clock existing).toOption.bind (·.write)

/-- A local operation does nothing, only ticks the clock, or ticks and writes the
record it has decided on. -/
inductive MutationMove (x : Externals) (store : Store) (now : Reading) (m : Mutation)
    (db : LocalDB) : Option Write × LocalDB → Prop
  | nothing : MutationMove x store now m db (none, db)
  | tick : MutationMove x store now m db (none, (nextHLC store now db).2)
  | write (id : ObjectID) (w : Write) (id' : ObjectID)
      (hid : store.objectID x m.text m.pinyin = .ok id)
      (hw : m.write? store now id (nextHLC store now db).1 (db.phrases.find? id) = some w)
      (hid' : store.objectID x w.record.text w.record.pinyin = .ok id') :
      MutationMove x store now m db
        (some w, (nextHLC store now db).2.write id' (jsonPhrase w.record) w.enqueue)

theorem mutate_move {α : Type} (x : Externals) (store : Store) (now : Reading) (m : Mutation)
    (decide_ : ObjectID → HLC → Option Phrase → Except String (Plan α))
    (hwrite : ∀ id clock existing, m.write? store now id clock existing =
      (decide_ id clock existing).toOption.bind (·.write))
    (db db' : LocalDB) (r : Except String (Plan α))
    (h : mutate x store now m.text m.pinyin decide_ db = (r, db')) :
    MutationMove x store now m db (r.toOption.bind (·.write), db') := by
  unfold mutate at h
  split at h
  · cases h
    exact .nothing
  rename_i id hid
  dsimp only at h
  split at h
  · cases h
    exact .tick
  rename_i plan hplan
  split at h
  · rename_i hw
    cases h
    simp only [Except.toOption, bind_some, hw]
    exact .tick
  rename_i w hw
  unfold upsert at h
  cases hid' : store.objectID x w.record.text w.record.pinyin with
  | error e =>
    rw [hid'] at h
    cases h
    exact .tick
  | ok id' =>
    rw [hid'] at h
    cases h
    simp only [Except.toOption, bind_some, hw]
    refine .write id w id' hid ?_ hid'
    simp only [hwrite, hplan, Except.toOption, bind_some, hw]

theorem Mutation.exec_move (x : Externals) (store : Store) (now : Reading) (m : Mutation)
    (db : LocalDB) : MutationMove x store now m db (m.exec x store now db) := by
  cases m with
  | save phrase =>
    simp only [Mutation.exec, saveExplicit]
    split <;> rename_i h
    · exact mutate_move x store now (.save phrase) _ (fun _ _ _ => rfl) db _ _ h
    · exact mutate_move x store now (.save phrase) _ (fun _ _ _ => rfl) db _ _ h
  | select phrase learning =>
    by_cases hl : learning.disabled = true
    · simp only [Mutation.exec, recordSelection, if_pos hl]
      exact .nothing
    · simp only [Mutation.exec, recordSelection, if_neg hl]
      split <;> rename_i h
      · exact mutate_move x store now (.select phrase learning) _ (fun _ _ _ => if_neg hl) db _ _ h
      · exact mutate_move x store now (.select phrase learning) _ (fun _ _ _ => if_neg hl) db _ _ h
  | delete text pinyin =>
    simp only [Mutation.exec, deletePhrase]
    split <;> rename_i h
    · exact mutate_move x store now (.delete text pinyin) _ (fun _ _ _ => rfl) db _ _ h
    · exact mutate_move x store now (.delete text pinyin) _ (fun _ _ _ => rfl) db _ _ h

variable {db : LocalDB}

theorem MutationMove.syncState {x : Externals} {store : Store} {now : Reading} {m : Mutation}
    {r : Option Write × LocalDB} (h : MutationMove x store now m db r) :
    r.2.syncState = db.syncState := by
  cases h with
  | nothing => rfl
  | tick => rfl
  | write => exact write_syncState

/-- The outcomes of a worker's step, from its phase to the new database, phase and
events. -/
inductive WorkerMove (x : Externals) (cfg : HostConfig) (db : LocalDB) :
    WorkerAction → Phase → LocalDB → Phase → List Event → Prop
  | stop (a : WorkerAction) (phase : Phase) : WorkerMove x cfg db a phase db .idle []
  | load (state : SyncState) (hv : cfg.session.validate x.crypto = .ok ())
      (h : loadSyncState cfg.store db = .ok state)
      (hd : state.deviceID = hexEncode cfg.session.deviceID) :
      WorkerMove x cfg db .load .idle db (.loaded state) []
  | keep (state : SyncState) (random : RandomSource) :
      WorkerMove x cfg db (.pending random) (.loaded state) db (.ready state) []
  | seal_ (state : SyncState) (event : PendingEvent) (rest : List PendingEvent)
      (random : RandomSource) (upload : PreparedUpload) (hp : state.prepared = none)
      (he : pendingEvents cfg.store db 1 = .ok (event :: rest))
      (hu : sealUpload x cfg.session state event random = .ok upload) :
      WorkerMove x cfg db (.pending random) (.loaded state) db (.sealed event upload) []
  | restage (event : PendingEvent) (upload : PreparedUpload) (row : SyncState)
      (hr : db.syncState = some row) (hp : row.prepared = some upload) :
      WorkerMove x cfg db .stage (.sealed event upload) db .staged []
  | stage (event : PendingEvent) (upload : PreparedUpload) (row : SyncState)
      (hr : db.syncState = some row) (hp : row.prepared = none)
      (hs : row.nextDeviceSequence = upload.deviceSequence)
      (ho : ∃ r ∈ db.outbox, r.eventID = upload.eventID ∧ r.version = upload.eventVersion) :
      WorkerMove x cfg db .stage (.sealed event upload)
        { db with syncState := some { row with prepared := some upload } } .staged
        [.staged upload event]
  | reload (state : SyncState) (h : loadSyncState cfg.store db = .ok state) :
      WorkerMove x cfg db .reload .staged db (.ready state) []
  | mergeLoad (state : SyncState) (next : ℤ) (payload : PhrasePayload) (rest : List PhrasePayload)
      (m : Merge) (h : mergeLoad x cfg.store payload db = .ok m) :
      WorkerMove x cfg db .mergeLoad (.merging state next (payload :: rest)) db
        (.inMerge state next (.loaded m) rest) []
  | migrateFail (state : SyncState) (next : ℤ) (m : Merge) (rest : List PhrasePayload)
      (now : Reading) (e : String) (db' : LocalDB) (h : m.migrate cfg.store now db = (.error e, db')) :
      WorkerMove x cfg db (.mergeMigrate now) (.inMerge state next (.loaded m) rest) db' .idle []
  | migrate (state : SyncState) (next : ℤ) (m m' : Merge) (rest : List PhrasePayload)
      (now : Reading) (db' : LocalDB) (h : m.migrate cfg.store now db = (.ok m', db')) :
      WorkerMove x cfg db (.mergeMigrate now) (.inMerge state next (.loaded m) rest) db'
        (.inMerge state next (.migrated m') rest) []
  | observe (state : SyncState) (next : ℤ) (m : Merge) (record : Phrase)
      (rest : List PhrasePayload) (h : m.record x cfg.store = .ok record) :
      WorkerMove x cfg db .mergeObserve (.inMerge state next (.migrated m) rest)
        (observeHLC (latestClock record) db) (.inMerge state next (.observed m record) rest) []
  | write (state : SyncState) (next : ℤ) (m : Merge) (record : Phrase) (rest : List PhrasePayload)
      (id : ObjectID) (h : cfg.store.objectID x record.text record.pinyin = .ok id) :
      WorkerMove x cfg db .mergeWrite (.inMerge state next (.observed m record) rest)
        (db.write id (jsonPhrase record) false) (.merging state next rest) [.merged m.payload]
  | commit (state : SyncState) (next : ℤ) (loaded upload : PreparedUpload) (row : SyncState)
      (hl : state.prepared = some loaded) (hr : db.syncState = some row)
      (hp : row.prepared = some upload) :
      WorkerMove x cfg db .commit (.merging state next []) (db.committed row upload)
        (.committed state next) [.committed upload]
  | advance (state : SyncState) (next : ℤ) (phase : Phase) (row : SyncState)
      (hph : (phase = .merging state next [] ∧ state.prepared = none) ∨ phase = .committed state next)
      (hc : 0 ≤ state.cursor ∧ state.cursor ≤ next) (hr : db.syncState = some row)
      (he : row.cursor = state.cursor) :
      WorkerMove x cfg db .advance phase { db with syncState := some { row with cursor := next } }
        .idle []

theorem workerStep_cases {x : Externals} {cfg : HostConfig} {db' : LocalDB} {phase phase' : Phase}
    {a : WorkerAction} {events : List Event}
    (h : workerStep x cfg db phase a = some (db', phase', events)) :
    WorkerMove x cfg db a phase db' phase' events := by
  have hidle (a : WorkerAction) (ph : Phase)
      (h : (some (db, Phase.idle, []) : Option (LocalDB × Phase × List Event)) =
        some (db', phase', events)) : WorkerMove x cfg db a ph db' phase' events := by
    cases h
    exact .stop a ph
  have hadvance (state : SyncState) (next : ℤ) (ph : Phase)
      (hph : (ph = .merging state next [] ∧ state.prepared = none) ∨ ph = .committed state next)
      (h : (match advanceSyncCursor cfg.store state.cursor next db with
        | .error _ => some (db, Phase.idle, [])
        | .ok db' => some (db', Phase.idle, [])) = some (db', phase', events)) :
      WorkerMove x cfg db .advance ph db' phase' events := by
    split at h
    · exact hidle _ ph h
    · rename_i db'' hadv
      cases h
      obtain ⟨h0, hle, row, hr, he, rfl⟩ := advanceSyncCursor_ok hadv
      exact .advance state next ph row hph ⟨h0, hle⟩ hr he
  unfold workerStep at h
  split at h
  -- crash
  · exact hidle _ _ h
  -- load
  · split at h
    · exact hidle _ _ h
    rename_i hv
    split at h
    · exact hidle _ _ h
    rename_i state hload
    split_ifs at h with hd
    · exact hidle _ _ h
    · cases h
      exact .load state hv hload (not_not.mp hd)
  -- pending
  · split at h
    · cases h
      exact .keep _ _
    rename_i hp
    split at h
    · exact hidle _ _ h
    · cases h
      exact .keep _ _
    rename_i event rest hev
    split at h
    · exact hidle _ _ h
    rename_i upload hup
    cases h
    exact .seal_ _ event rest _ upload hp hev hup
  -- stage
  · split at h
    · exact hidle _ _ h
    rename_i db'' hsave
    cases h
    obtain ⟨row, hr, ⟨hp, rfl⟩ | ⟨hp, hs, ho, rfl⟩⟩ := savePreparedUpload_ok hsave
    · simp only [hr, bind_some, hp, if_true]
      exact .restage _ _ row hr hp
    · simp only [hr, bind_some, hp, reduceCtorEq, if_false]
      exact .stage _ _ row hr hp hs ho
  -- reload
  · split at h
    · exact hidle _ _ h
    rename_i state hload
    cases h
    exact .reload state hload
  -- mergeLoad
  · split at h
    · exact hidle _ _ h
    rename_i m hm
    cases h
    exact .mergeLoad _ _ _ _ m hm
  -- mergeMigrate
  · split at h
    · rename_i e db'' hm
      cases h
      exact .migrateFail _ _ _ _ _ e _ hm
    · rename_i m' db'' hm
      cases h
      exact .migrate _ _ _ m' _ _ _ hm
  -- mergeObserve
  · split at h
    · exact hidle _ _ h
    rename_i record hrec
    cases h
    exact .observe _ _ _ record _ hrec
  -- mergeWrite
  · unfold upsert at h
    split at h
    · rename_i e db'' hup
      split at hup
      · simp only [some.injEq, Prod.mk.injEq] at h hup
        obtain ⟨rfl, rfl, rfl⟩ := h
        rw [← hup.2]
        exact .stop _ _
      · simp at hup
    · rename_i db'' hup
      split at hup
      · simp at hup
      · rename_i id hid
        simp only [some.injEq, Prod.mk.injEq] at h hup
        obtain ⟨rfl, rfl, rfl⟩ := h
        rw [← hup.2]
        exact .write _ _ _ _ _ id hid
  -- commit
  · split at h
    · simp at h
    rename_i loaded hl
    split at h
    · exact hidle _ _ h
    rename_i acknowledged db'' hcommit
    cases h
    obtain ⟨row, upload, hr, hp, rfl⟩ := commitPreparedUpload_ok hcommit
    simp only [hr, bind_some, hp, toList_some, map_cons, map_nil]
    exact .commit _ _ loaded upload row hl hr hp
  -- advance without an upload
  · split at h
    · simp at h
    · rename_i hp
      exact hadvance _ _ _ (.inl ⟨rfl, hp⟩) h
  -- advance after a commit
  · exact hadvance _ _ _ (.inr rfl) h
  · simp at h

theorem onReply_cases (x : Externals) (session : Session) (state : SyncState) (reply : Reply) :
    onReply x session state reply = .idle ∨
    ∃ response payloads, clientResponse state.cursor reply = .ok response ∧
      checkUpload state.prepared response = .ok () ∧
      decodeDownloads x session response state.cursor = .ok payloads ∧
      onReply x session state reply = .merging state response.nextCursor payloads := by
  unfold onReply
  split
  · exact .inl rfl
  rename_i response hresponse
  split
  · exact .inl rfl
  rename_i hcheck
  split
  · exact .inl rfl
  rename_i payloads hpayloads
  exact .inr ⟨response, payloads, hresponse, hcheck, hpayloads, rfl⟩

section
variable {κ ι : Type} [DecidableEq κ] [DecidableEq ι]

@[simp] theorem System.setHost_relay (s : System κ ι) (k : κ) (i : ι) (db : LocalDB) (phase : Phase)
    (events : List Event) : (s.setHost k i db phase events).relay = s.relay := rfl

@[simp] theorem System.setHost_calls (s : System κ ι) (k : κ) (i : ι) (db : LocalDB) (phase : Phase)
    (events : List Event) : (s.setHost k i db phase events).calls = s.calls := rfl

theorem System.setHost_self (s : System κ ι) (k : κ) (i : ι) (db : LocalDB) (phase : Phase)
    (events : List Event) : (s.setHost k i db phase events).hosts k =
      ⟨db, Function.update (s.hosts k).phase i phase, (s.hosts k).history ++ events⟩ := by
  simp [System.setHost]

theorem System.setHost_ne (s : System κ ι) {k k' : κ} (i : ι) (db : LocalDB) (phase : Phase)
    (events : List Event) (h : k' ≠ k) :
    (s.setHost k i db phase events).hosts k' = s.hosts k' := by
  simp [System.setHost, h]

end

section
variable {κ ι : Type}

inductive RelayMove (x : Externals) (cfg : κ → HostConfig) (s : System κ ι) : RelayAction → Prop
  | foreign (header : Bytes) (op : AuthOp)
      (h : op.isSync = true → ∀ k, sameToken x.crypto header (cfg k).session = false) :
      RelayMove x cfg s (.arrive header op none)
  | serve (op : OpenOp) (moment : Moment) : RelayMove x cfg s (.serve op moment)
  | deliver (n : ℕ) (k : κ) (request : SyncRequest) (h : s.calls[n]? = some (k, request)) :
      RelayMove x cfg s (.arrive (cfg k).session.authorization (.sync request) (some n))
  | run (i : ℕ) (moment : Moment) : RelayMove x cfg s (.run i moment)

def writeEvents (x : Externals) (store : Store) (w : Option Write) : List Event :=
  match w with
  | none => []
  | some w => ((store.objectID x w.record.text w.record.pinyin).toOption.toList.map
      (fun id => .wrote id (jsonPhrase w.record) w.enqueue))

variable {x : Externals} {s s' : System κ ι} {a : Action κ ι}

theorem writeEvents_some {store : Store} {w : Write} {id : ObjectID}
    (h : store.objectID x w.record.text w.record.pinyin = .ok id) :
    writeEvents x store (some w) = [.wrote id (jsonPhrase w.record) w.enqueue] := by
  simp [writeEvents, h, Except.toOption]

theorem writeEvents_eq (x : Externals) (store : Store) (w : Option Write) :
    writeEvents x store w = [] ∨
      ∃ id record enqueued, writeEvents x store w = [.wrote id record enqueued] := by
  cases w with
  | none => exact .inl rfl
  | some w =>
    simp only [writeEvents]
    cases store.objectID x w.record.text w.record.pinyin with
    | error e => exact .inl rfl
    | ok id => exact .inr ⟨id, _, _, rfl⟩

/-- The steps of worker `i` of device `k`, apart from sending. -/
inductive HostMove (x : Externals) (cfg : κ → HostConfig) (s : System κ ι) (k : κ) (i : ι) :
    Action κ ι → LocalDB → Phase → List Event → Prop
  | mutate (m : Mutation) (now : Reading) (h : ((s.hosts k).phase i).locked = false) :
      HostMove x cfg s k i (.mutate k i m now) (m.exec x (cfg k).store now (s.hosts k).db).2
        ((s.hosts k).phase i)
        (writeEvents x (cfg k).store (m.exec x (cfg k).store now (s.hosts k).db).1)
  | tick (now : Reading) (h : ((s.hosts k).phase i).locked = false) :
      HostMove x cfg s k i (.tick k i now) (nextHLC (cfg k).store now (s.hosts k).db).2
        ((s.hosts k).phase i) []
  | worker (a : WorkerAction) (db' : LocalDB) (phase' : Phase) (events : List Event)
      (h : WorkerMove x (cfg k) (s.hosts k).db a ((s.hosts k).phase i) db' phase' events) :
      HostMove x cfg s k i (.worker k i a) db' phase' events
  | giveUp : HostMove x cfg s k i (.send k i) (s.hosts k).db .idle []
  | receive (n : ℕ) (state : SyncState) (call : ℕ) (reply : Reply)
      (h : (s.hosts k).phase i = .waiting state call) (hr : (call, reply) ∈ s.relay.replies) :
      HostMove x cfg s k i (.receive k i n) (s.hosts k).db
        (onReply x (cfg k).session state reply) []

theorem System.step_cases [DecidableEq κ] [Fintype κ] [DecidableEq ι] (cfg : κ → HostConfig)
    (h : s.step x cfg a = some s') :
    (∃ ra r, RelayMove x cfg s ra ∧ s.relay.step x.crypto ra = some r ∧
      s' = { s with relay := r }) ∨
    (∃ k i db' phase' events, HostMove x cfg s k i a db' phase' events ∧
      s' = s.setHost k i db' phase' events) ∨
    (∃ k i state request, (s.hosts k).phase i = .ready state ∧ syncRequest state = .ok request ∧
      s' = { s.setHost k i (s.hosts k).db (.waiting state s.calls.length) [] with
        calls := s.calls ++ [(k, request)] }) := by
  cases a with
  | arrive header op =>
    simp only [step] at h
    split_ifs at h with hg
    obtain ⟨r, hr, rfl⟩ := map_eq_some_iff.mp h
    refine .inl ⟨_, r, .foreign header op ?_, hr, rfl⟩
    intro hop k
    by_contra hk
    exact hg ⟨hop, k, by simpa using hk⟩
  | serve op moment =>
    simp only [step] at h
    obtain ⟨r, hr, rfl⟩ := map_eq_some_iff.mp h
    exact .inl ⟨_, r, .serve op moment, hr, rfl⟩
  | deliver n =>
    simp only [step] at h
    split at h
    · simp at h
    rename_i k request hn
    obtain ⟨r, hr, rfl⟩ := map_eq_some_iff.mp h
    exact .inl ⟨_, r, .deliver n k request hn, hr, rfl⟩
  | run i moment =>
    simp only [step] at h
    obtain ⟨r, hr, rfl⟩ := map_eq_some_iff.mp h
    exact .inl ⟨_, r, .run i moment, hr, rfl⟩
  | mutate k i m now =>
    simp only [step] at h
    split_ifs at h with hl
    have hmove : HostMove x cfg s k i (.mutate k i m now) _ _ _ := .mutate m now (by simpa using hl)
    split at h
    · rename_i db' hex
      cases h
      rw [hex] at hmove
      exact .inr (.inl ⟨k, i, _, _, _, hmove, rfl⟩)
    · rename_i w db' hex
      cases h
      rw [hex] at hmove
      exact .inr (.inl ⟨k, i, _, _, _, hmove, rfl⟩)
  | tick k i now =>
    simp only [step] at h
    split_ifs at h with hl
    cases h
    exact .inr (.inl ⟨k, i, _, _, _, .tick now (by simpa using hl), rfl⟩)
  | worker k i a =>
    simp only [step] at h
    obtain ⟨⟨db', phase', events⟩, hr, rfl⟩ := map_eq_some_iff.mp h
    exact .inr (.inl ⟨k, i, db', phase', events,
      .worker a db' phase' events (workerStep_cases hr), rfl⟩)
  | send k i =>
    simp only [step] at h
    split at h
    · -- A request that cannot be built or sent ends the round.
      rename_i state hph
      have hgive : ∀ s'', some (s.setHost k i (s.hosts k).db .idle []) = some s'' →
          ∃ k' i' db' phase' events, HostMove x cfg s k' i' (.send k i) db' phase' events ∧
            s'' = s.setHost k' i' db' phase' events := by
        intro s'' he
        cases he
        exact ⟨k, i, _, _, _, .giveUp, rfl⟩
      split at h
      · exact .inr (.inl (hgive s' h))
      rename_i request hreq
      split at h
      · exact .inr (.inl (hgive s' h))
      · cases h
        exact .inr (.inr ⟨k, i, state, request, hph, hreq, rfl⟩)
    · simp at h
  | receive k i n =>
    simp only [step] at h
    split at h
    · rename_i state call hph
      split at h
      · simp at h
      rename_i call' reply hr
      split_ifs at h with hc
      cases h
      obtain rfl := not_not.mp hc
      exact .inr (.inl ⟨k, i, _, _, _,
        .receive n state call' reply hph (mem_of_getElem? hr), rfl⟩)
    · simp at h

theorem System.host_preserved [DecidableEq κ] [Fintype κ] [DecidableEq ι] {cfg : κ → HostConfig}
    (h : s.step x cfg a = some s') {k : κ} (P : Host ι → Prop) (hP : P (s.hosts k))
    (hmove : ∀ i db' phase' events, HostMove x cfg s k i a db' phase' events →
      P ⟨db', Function.update (s.hosts k).phase i phase', (s.hosts k).history ++ events⟩)
    (hsend : ∀ i state, (s.hosts k).phase i = .ready state →
      P ⟨(s.hosts k).db, Function.update (s.hosts k).phase i (.waiting state s.calls.length),
      (s.hosts k).history ++ []⟩) : P (s'.hosts k) := by
  rcases System.step_cases cfg h with ⟨_, _, _, _, rfl⟩ |
    ⟨k', i, db', phase', events, hm, rfl⟩ | ⟨k', i, state, request, hph, _, rfl⟩
  · exact hP
  · by_cases hk : k = k'
    · subst hk
      rw [System.setHost_self]
      exact hmove i db' phase' events hm
    · rw [System.setHost_ne s i _ _ _ hk]
      exact hP
  · by_cases hk : k = k'
    · subst hk
      simp only [System.setHost_self]
      exact hsend i state hph
    · simp only [System.setHost_ne s i _ _ _ hk]
      exact hP

end

end YunPin
