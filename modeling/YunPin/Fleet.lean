import YunPin.Runs
import YunPin.StoreFit

/-! The databases of one account under calls to their stores. A database may be opened
any number of times, with `Open` and with `OpenForDevice`; every call goes through one
of the handles and is one step. What a device seals for upload can be merged anywhere
later, any number of times. -/
namespace YunPin
open ByteText List Option

structure Replica where
  db : LocalDB
  handles : List Store

/-- All replicas, every payload that was sealed for upload, and the object and the pin
of every `SaveExplicit` that was executed. -/
structure Fleet (κ : Type) where
  replicas : κ → Replica
  sent : List PhrasePayload
  saved : List (ObjectID × Bool)

def Fleet.new (κ : Type) : Fleet κ := ⟨fun _ => ⟨.empty, []⟩, [], []⟩

inductive FleetAction (κ : Type)
  | openLocal (k : κ)
  | openForDevice (k : κ) (deviceID : Bytes)
  | mutate (k : κ) (handle : ℕ) (m : Mutation) (now : Reading)
  /-- `PendingEvents`, and the payload of each event. -/
  | send (k : κ) (handle limit : ℕ)
  | merge (k : κ) (handle : ℕ) (payload : PhrasePayload) (now : Reading)

def Mutation.savedPin (x : Externals) (store : Store) (m : Mutation) (w : Option Write) :
    List (ObjectID × Bool) :=
  match m, w with
  | .save phrase, some _ =>
    (store.objectID x phrase.text phrase.pinyin).toOption.toList.map (fun id => (id, phrase.pinned))
  | _, _ => []

def Replica.opened (r : Except String Store × LocalDB) (handles : List Store) : Replica :=
  ⟨r.2, handles ++ r.1.toOption.toList⟩

def sentPayloads (r : Except String (List PendingEvent)) : List PhrasePayload :=
  (r.toOption.getD []).filterMap (fun event => event.protocolPayload.toOption)

def Fleet.states {κ : Type} (s : Fleet κ) (ks : List κ) (o : ObjectID) : List PhraseState :=
  ks.filterMap (fun k => ((s.replicas k).db.phrases.find? o).map (·.crdt))

section
variable {κ : Type} [DecidableEq κ]

def Fleet.setReplica (s : Fleet κ) (k : κ) (r : Replica) : Fleet κ :=
  { s with replicas := Function.update s.replicas k r }

def Fleet.step (x : Externals) (dataKey idKey : Bytes) (s : Fleet κ) (a : FleetAction κ) :
    Option (Fleet κ) :=
  match a with
  | .openLocal k =>
    let r := s.replicas k
    some (s.setReplica k (.opened (YunPin.openLocal dataKey idKey r.db) r.handles))
  | .openForDevice k deviceID =>
    let r := s.replicas k
    some (s.setReplica k (.opened (YunPin.openForDevice dataKey idKey deviceID r.db) r.handles))
  | .mutate k handle m now =>
    let r := s.replicas k
    match r.handles[handle]? with
    | none => none
    | some store =>
      let (w, db') := m.exec x store now r.db
      some { s.setReplica k { r with db := db' } with saved := s.saved ++ m.savedPin x store w }
  | .send k handle limit =>
    let r := s.replicas k
    match r.handles[handle]? with
    | none => none
    | some store => some { s with sent := s.sent ++ sentPayloads (pendingEvents store r.db limit) }
  | .merge k handle payload now =>
    let r := s.replicas k
    match r.handles[handle]? with
    | none => none
    | some store =>
      some (s.setReplica k { r with db := (mergeRemotePayload x store now payload r.db).2 })

theorem Fleet.setReplica_self (s : Fleet κ) (k : κ) (r : Replica) :
    (s.setReplica k r).replicas k = r := by simp [Fleet.setReplica]

theorem Fleet.setReplica_ne (s : Fleet κ) {k k' : κ} (r : Replica) (h : k' ≠ k) :
    (s.setReplica k r).replicas k' = s.replicas k' := by simp [Fleet.setReplica, h]

theorem Fleet.setReplica_ind (P : κ → Replica → Prop) (s : Fleet κ) (k : κ) (r : Replica)
    (hr : P k r) (hs : ∀ k', P k' (s.replicas k')) (k' : κ) :
    P k' ((s.setReplica k r).replicas k') := by
  by_cases hk : k' = k
  · subst hk
    rw [Fleet.setReplica_self]
    exact hr
  · rw [Fleet.setReplica_ne s r hk]
    exact hs k'

end

variable {x : Externals} {store store' : Store} {idKey : Bytes} {r : Replica} {D : DeviceSet}

theorem Store.objectID_congr (x : Externals) (h : store.idKey = store'.idKey) :
    store.objectID x = store'.objectID x := by
  funext text pinyin
  simp only [Store.objectID, h]

theorem Phrase.Sound.congr {id : ObjectID} {p : Phrase} (h : store.idKey = store'.idKey)
    (hp : p.Sound x D store id) : p.Sound x D store' id :=
  ⟨Store.objectID_congr x h ▸ hp.identity, hp.state, hp.materialized, hp.text, hp.pinyin, hp.source⟩

variable {db : LocalDB}

theorem StoreSound.congr (h : store.idKey = store'.idKey) (hf : StoreSound x D store db) :
    StoreSound x D store' db :=
  ⟨fun id p hp => (hf.records id p hp).congr h, fun r hr => (hf.outbox r hr).congr h⟩

/-- A handle of the account: its key is the account's, and only sync devices sync. -/
def Store.Handle (idKey : Bytes) (store : Store) : Prop :=
  store.idKey = idKey ∧ (store.syncEnabled = true → validSyncDeviceID store.deviceID = true)

/-- The names under which a handle writes: its sync device, or "local-only". -/
def storeDevices : DeviceSet where
  mem d := validSyncDeviceID d = true ∨ d = lit "local-only"
  sync _ h := Or.inl h
  validUTF8 d h := by
    rcases h with h | rfl
    · exact validUTF8_of_syncDeviceID d h
    · decide
  ne_nil d h := by
    rcases h with h | rfl
    · exact syncDeviceID_ne_nil d h
    · decide

/-- Opening a store changes neither a phrase nor an outbox row nor the clock. -/
structure OpenFacts (idKey : Bytes) (db db' : LocalDB) (stores : List Store) : Prop where
  phrases : db'.phrases = db.phrases
  outbox : db'.outbox = db.outbox
  wall : db'.hlcWall = db.hlcWall
  counter : db'.hlcCounter = db.hlcCounter
  handles : ∀ store ∈ stores, store.Handle idKey
  devices : ∀ store ∈ stores, storeDevices.mem store.deviceID

theorem openStore_facts {dataKey deviceID : Bytes} {syncEnabled : Bool}
    (hv : syncEnabled = true → validSyncDeviceID deviceID = true) (hd : storeDevices.mem deviceID) :
    OpenFacts idKey db (openStore dataKey idKey deviceID syncEnabled db).2
      (openStore dataKey idKey deviceID syncEnabled db).1.toOption.toList := by
  have hnone (e : String) : OpenFacts idKey db db
      (Except.error e : Except String Store).toOption.toList :=
    ⟨rfl, rfl, rfl, rfl, by simp [Except.toOption], by simp [Except.toOption]⟩
  unfold openStore
  split_ifs with hlen hsync
  · exact hnone _
  · dsimp only
    split_ifs
    · exact ⟨rfl, rfl, rfl, rfl, by simp [Except.toOption], by simp [Except.toOption]⟩
    · refine ⟨rfl, rfl, rfl, rfl, ?_, ?_⟩ <;>
        simp only [Except.toOption, toList_some, mem_singleton, forall_eq]
      · exact ⟨rfl, fun _ => hv hsync⟩
      · exact hd
  · refine ⟨rfl, rfl, rfl, rfl, ?_, ?_⟩ <;>
      simp only [Except.toOption, toList_some, mem_singleton, forall_eq]
    · exact ⟨rfl, by simp⟩
    · exact hd

theorem openForDevice_facts {dataKey deviceID : Bytes} :
    OpenFacts idKey db (openForDevice dataKey idKey deviceID db).2
      (openForDevice dataKey idKey deviceID db).1.toOption.toList := by
  unfold openForDevice
  split_ifs with hv
  · exact openStore_facts (fun _ => hv) (.inl hv)
  · exact ⟨rfl, rfl, rfl, rfl, by simp [Except.toOption], by simp [Except.toOption]⟩

section
variable {κ : Type} [DecidableEq κ]

inductive FleetMove (x : Externals) (idKey : Bytes) (s : Fleet κ) : FleetAction κ → Fleet κ → Prop
  | opened (a : FleetAction κ) (k : κ) (db' : LocalDB) (handles : List Store)
      (ho : OpenFacts idKey (s.replicas k).db db' handles) :
      FleetMove x idKey s a (s.setReplica k ⟨db', (s.replicas k).handles ++ handles⟩)
  | mutate (k : κ) (handle : ℕ) (m : Mutation) (now : Reading) (store : Store)
      (hs : (s.replicas k).handles[handle]? = some store) (r : Option Write × LocalDB)
      (hm : MutationMove x store now m (s.replicas k).db r) :
      FleetMove x idKey s (.mutate k handle m now)
        { s.setReplica k { s.replicas k with db := r.2 } with
          saved := s.saved ++ m.savedPin x store r.1 }
  | send (k : κ) (handle limit : ℕ) (store : Store)
      (hs : (s.replicas k).handles[handle]? = some store) :
      FleetMove x idKey s (.send k handle limit)
        { s with sent := s.sent ++ sentPayloads (pendingEvents store (s.replicas k).db limit) }
  | merge (k : κ) (handle : ℕ) (payload : PhrasePayload) (now : Reading) (store : Store)
      (hs : (s.replicas k).handles[handle]? = some store) :
      FleetMove x idKey s (.merge k handle payload now) (s.setReplica k
        { s.replicas k with
          db := (mergeRemotePayload x store now payload (s.replicas k).db).2 })

theorem Fleet.step_cases {dataKey : Bytes} {s s' : Fleet κ} {a : FleetAction κ}
    (h : s.step x dataKey idKey a = some s') : FleetMove x idKey s a s' := by
  cases a with
  | openLocal k =>
    cases h
    exact .opened _ k _ _ (openStore_facts
      (by simp) (.inr rfl))
  | openForDevice k deviceID =>
    cases h
    exact .opened _ k _ _ (openForDevice_facts)
  | mutate k handle m now =>
    simp only [Fleet.step] at h
    split at h
    · simp at h
    rename_i store hs
    cases h
    exact .mutate k handle m now store hs _ (m.exec_move x store now _)
  | send k handle limit =>
    simp only [Fleet.step] at h
    split at h
    · simp at h
    rename_i store hs
    cases h
    exact .send k handle limit store hs
  | merge k handle payload now =>
    simp only [Fleet.step] at h
    split at h
    · simp at h
    rename_i store hs
    cases h
    exact .merge k handle payload now store hs

end

structure Replica.Fit (x : Externals) (idKey : Bytes) (r : Replica) : Prop where
  store : ∀ store : Store, store.idKey = idKey → StoreFit x store r.db
  handles : ∀ store ∈ r.handles, store.Handle idKey

theorem Fleet.new_fit {κ : Type} (x : Externals) (idKey : Bytes) (k : κ) :
    ((Fleet.new κ).replicas k).Fit x idKey :=
  ⟨fun store _ => .empty x store none, by simp [Fleet.new]⟩

theorem Replica.Fit.of_store (h : r.Fit x idKey) (hk : store.idKey = idKey) (db' : LocalDB)
    (hf : StoreFit x store db') : Replica.Fit x idKey { r with db := db' } :=
  ⟨fun _ hk' => hf.congr (hk.trans hk'.symm), h.handles⟩

theorem Replica.Fit.opened (h : r.Fit x idKey) {db' : LocalDB} {handles : List Store}
    (ho : OpenFacts idKey r.db db' handles) : Replica.Fit x idKey ⟨db', r.handles ++ handles⟩ := by
  refine ⟨fun store hk => ⟨?_, ?_⟩, ?_⟩
  · rw [ho.phrases]
    exact (h.store store hk).records
  · rw [ho.outbox]
    exact (h.store store hk).outbox
  · intro store hs
    rcases mem_append.mp hs with hs | hs
    · exact h.handles store hs
    · exact ho.handles store hs

theorem sentPayloads_row {limit : ℕ} {p : PhrasePayload}
    (hp : p ∈ sentPayloads (pendingEvents store db limit)) :
    ∃ row ∈ db.outbox, row.phrase.crdt.objectID = hexEncode row.objectID.val ∧
      p = { row.phrase.payload with state := clonePhraseState row.phrase.crdt } := by
  unfold sentPayloads at hp
  cases hev : pendingEvents store db limit with
  | error e => simp [hev, Except.toOption] at hp
  | ok events =>
    rw [hev] at hp
    obtain ⟨event, he, hpay⟩ := mem_filterMap.mp hp
    obtain ⟨row, hrow, rfl⟩ := pendingEvents_mem hev he
    refine ⟨row, hrow, ?_⟩
    unfold PendingEvent.protocolPayload at hpay
    split_ifs at hpay with hmeta
    · simp [Except.toOption] at hpay
    · cases hpay
      push Not at hmeta
      exact ⟨hmeta.1, rfl⟩

end YunPin
