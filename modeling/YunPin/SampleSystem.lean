import YunPin.Fleet
import YunPin.SampleExternals
import YunPin.SyncTraffic

/-! Devices that have just been enrolled form an initial state. Two such devices of
one account, on the small instance of the third-party code, are the start of the
sample runs. -/
namespace YunPin
open ByteText

def LocalDB.bound (deviceID : Bytes) : LocalDB :=
  { LocalDB.empty with syncState := some ⟨deviceID, 0, 1, [], none⟩ }

theorem openForDevice_empty (dataKey idKey deviceID : Bytes) (hd : dataKey.length = 32)
    (hi : idKey.length = 32) (hv : validSyncDeviceID deviceID = true) :
    openForDevice dataKey idKey deviceID .empty = (.ok ⟨idKey, deviceID, true⟩, .bound deviceID) := by
  simp [openForDevice, openStore, hd, hi, hv, LocalDB.empty, LocalDB.bound]

theorem openForDevice_empty_ok {dataKey idKey deviceID : Bytes} {store : Store} {db : LocalDB}
    (h : openForDevice dataKey idKey deviceID .empty = (.ok store, db)) :
    validSyncDeviceID store.deviceID = true ∧ store.syncEnabled = true ∧
      db = .bound store.deviceID := by
  by_cases hv : validSyncDeviceID deviceID = true
  · by_cases hlen : dataKey.length = 32 ∧ idKey.length = 32
    · rw [openForDevice_empty dataKey idKey deviceID hlen.1 hlen.2 hv] at h
      obtain ⟨hs, rfl⟩ := Prod.mk.inj h
      cases hs
      exact ⟨hv, rfl, rfl⟩
    · have hbad : dataKey.length ≠ 32 ∨ idKey.length ≠ 32 := by omega
      rw [openForDevice, if_neg (not_not.mpr hv), openStore, if_pos hbad] at h
      simp at h
  · rw [openForDevice, if_pos hv] at h
    simp at h

def Session.row (c : Crypto) (session : Session) : DeviceRow :=
  ⟨hexEncode session.deviceID, hexEncode session.accountID, [], digest c session.deviceToken,
    c.edPublic session.signingPrivate, [], 0, 0, none⟩

section
variable {κ : Type}

def System.fresh (ι : Type) (c : Crypto) (cfg : κ → HostConfig) (ks : List κ) : System κ ι where
  relay := {
    db := { RelayDB.empty with devices := ks.map (fun k => (cfg k).session.row c) }
    flights := []
    replies := [] }
  calls := []
  hosts := fun k => ⟨.bound (cfg k).store.deviceID, fun _ => .idle, []⟩

theorem System.fresh_initial (ι : Type) (x : Externals) (cfg : κ → HostConfig) (ks : List κ)
    (hall : ∀ k, k ∈ ks) (hids : (ks.map (fun k => hexEncode (cfg k).session.deviceID)).Nodup)
    (htokens : (ks.map (fun k => digest x.crypto (cfg k).session.deviceToken)).Nodup)
    (hbearer : ∀ k, bearerToken (cfg k).session.authorization = some (cfg k).session.deviceToken) :
    (System.fresh ι x.crypto cfg ks).Initial x cfg where
  idle _ _ := rfl
  history _ := rfl
  checkpoint _ := rfl
  calls := rfl
  flights := rfl
  replies := rfl
  unique := by
    constructor
    · simpa [System.fresh, Session.row, Function.comp_def] using hids
    · simpa [System.fresh, Session.row, Function.comp_def] using htokens
  cursors := ⟨List.Pairwise.nil, by simp [System.fresh, RelayDB.empty], le_rfl⟩
  enrolled k := ⟨_, hbearer k, _, List.mem_map_of_mem (hall k), rfl, rfl, rfl⟩
  distinct k k' h := List.inj_on_of_nodup_map hids (hall k) (hall k') h
  chain _ := rfl

end

def sampleDevice (k : Bool) : Bytes := List.replicate 16 (if k then 2 else 1)

def sampleKey : Bytes := List.replicate 32 0

def samplePrivate : Bytes := List.replicate 64 5

def sampleSession (k : Bool) : Session where
  accountID := List.replicate 16 4
  deviceID := sampleDevice k
  deviceToken := if k then lit "right" else lit "left"
  keyEpoch := 1
  epochKeys := (∅ : SortedMap ℕ Bytes).insert 1 (List.replicate 32 6)
  signingPrivate := samplePrivate
  verificationKeys := ((∅ : SortedMap Bytes Bytes).insert (hexEncode (sampleDevice false))
    (fit 32 samplePrivate)).insert (hexEncode (sampleDevice true)) (fit 32 samplePrivate)

def sampleConfig (k : Bool) : HostConfig :=
  ⟨⟨List.replicate 32 0, hexEncode (sampleDevice k), true⟩, sampleSession k⟩

theorem sampleConfig_open (k : Bool) :
    openForDevice (List.replicate 32 0) (List.replicate 32 0) (hexEncode (sampleDevice k)) .empty =
      (.ok (sampleConfig k).store, .bound (sampleConfig k).store.deviceID) := by
  apply openForDevice_empty
  · rfl
  · rfl
  · cases k <;> decide

def sampleSystem (ι : Type) : System Bool ι :=
  System.fresh ι sampleCrypto sampleConfig [false, true]

theorem sampleSystem_initial (ι : Type) : (sampleSystem ι).Initial sampleExternals sampleConfig := by
  apply System.fresh_initial ι sampleExternals sampleConfig [false, true]
  · decide
  · decide
  · decide
  · decide

theorem toOption_eq_some {α : Type} {r : Except String α} {a : α} (h : r.toOption = some a) :
    r = .ok a := by
  cases r with
  | error e => simp [Except.toOption] at h
  | ok b => rw [Option.some.inj h]

abbrev sampleFleetStep {κ : Type} [DecidableEq κ] : Fleet κ → FleetAction κ → Option (Fleet κ) :=
  Fleet.step sampleExternals sampleKey sampleKey

def samplePhrase (text : String) : Phrase := ⟨lit text, lit "ni", [], 0, true, false, 0, .zero⟩

def sampleReading : Reading := ⟨1, 1⟩

def sampleOpen {κ : Type} (k : κ) (device : Bool) : FleetAction κ :=
  .openForDevice k (hexEncode (sampleDevice device))

/-- A phrase saved before the store is opened for a device. -/
def localFirst : List (FleetAction Unit) :=
  [.openLocal (), .mutate () 0 (.save (samplePhrase "a")) sampleReading, sampleOpen () false]

/-- The last byte of the text is invalid. -/
def invalidPhrase : Phrase := { samplePhrase "" with text := [0x61, 0xFF] }

/-- A state of a phrase as a peer may send it, with one clock for its registers. -/
def samplePayload (text source : String) (clock : HLC) : PhrasePayload :=
  let id := ((sampleConfig false).store.objectID sampleExternals (lit text) (lit "ni")).toOption
  ⟨lit text, lit "ni", lit source, 0,
    ⟨(id.map (fun o => hexEncode o.val)).getD [], some ∅, ⟨true, clock⟩, ⟨true, clock, 1⟩⟩⟩

def sampleRandom : RandomSource := fun _ => 0

section
variable {ι : Type}

def uploadSteps (k : Bool) (i : ι) : List (Action Bool ι) :=
  [.worker k i .load, .worker k i (.pending sampleRandom), .worker k i .stage, .worker k i .reload,
    .send k i]

def pollSteps (k : Bool) (i : ι) : List (Action Bool ι) :=
  [.worker k i .load, .worker k i (.pending sampleRandom), .send k i]

def serveCall (n : ℕ) : List (Action Bool ι) := [.deliver n, .run 0 ⟨0, sampleRandom⟩]

def mergeSteps (k : Bool) (i : ι) : List (Action Bool ι) :=
  [.worker k i .mergeLoad, .worker k i (.mergeMigrate sampleReading), .worker k i .mergeObserve,
    .worker k i .mergeWrite]

end

end YunPin
