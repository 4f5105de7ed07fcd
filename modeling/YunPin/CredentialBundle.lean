import YunPin.ExactReader
import YunPin.SampleExternals

/-! The credential bundle of a device, which its secret store keeps as one binary
record. -/
namespace YunPin
open ByteText ExactReader List

def credentialBundleVersion : UInt8 := 1
def maxCredentialBlobBytes : ℕ := 64*1024
def maxDeviceTokenBytes : ℕ := 512
def maxEpochKeys : ℕ := 64
def maxVerificationKeys : ℕ := 256
def credentialMagic : Bytes := lit "YPCB"

abbrev FixedBytes (n : ℕ) := { b : Bytes // b.length = n }

def FixedBytes.zero (n : ℕ) : FixedBytes n := ⟨List.replicate n 0, length_replicate⟩

abbrev Epoch := Fin (2^64)

structure CredentialBundleV1 where
  version : UInt8
  accountID : FixedBytes 16
  deviceID : FixedBytes 16
  deviceToken : Bytes
  signingSeed : FixedBytes 32
  x25519Private : FixedBytes 32
  localDataKey : FixedBytes 32
  objectIDKey : FixedBytes 32
  currentEpoch : Epoch
  epochKeys : SortedMap Epoch (FixedBytes 32)
  verificationKeys : SortedMap (FixedBytes 16) (FixedBytes 32)
deriving DecidableEq

def allZero (value : Bytes) : Bool := value.all (fun item => item = 0)

def validDeviceToken (value : Bytes) : Bool :=
  if value.length < 16 ∨ value.length > maxDeviceTokenBytes then false
  else value.all (fun character =>
    (97 ≤ character ∧ character ≤ 122) ∨ (65 ≤ character ∧ character ≤ 90) ∨
      (48 ≤ character ∧ character ≤ 57) ∨ character = 45 ∨ character = 95)

/-- `edPublic` of the seed is the public half of the key that `NewKeyFromSeed` derives. -/
def CredentialBundleV1.validate (c : Crypto) (bundle : CredentialBundleV1) : Except String Unit :=
  if bundle.version ≠ credentialBundleVersion then
    .error ("unsupported credential bundle version " ++ toString bundle.version.toNat)
  else if allZero bundle.accountID.val ∨ allZero bundle.deviceID.val then
    .error "account and device IDs must be nonzero random identifiers"
  else if ¬validDeviceToken bundle.deviceToken then
    .error "device token must be bounded unpadded base64url"
  else if allZero bundle.signingSeed.val ∨ allZero bundle.x25519Private.val ∨
      allZero bundle.localDataKey.val ∨ allZero bundle.objectIDKey.val then
    .error "credential bundle contains an empty private key"
  else if bundle.currentEpoch.val < 1 ∨ bundle.currentEpoch.val > maxInt64 ∨
      bundle.epochKeys.entries.length < 1 ∨ bundle.epochKeys.entries.length > maxEpochKeys then
    .error "credential bundle has an invalid epoch set"
  else if bundle.epochKeys.entries.any (fun e =>
      e.1.val < 1 ∨ e.1.val > maxInt64 ∨ allZero e.2.val) then
    .error "credential bundle has an invalid epoch key"
  else if bundle.epochKeys.find? bundle.currentEpoch = none then
    .error "current epoch key is missing"
  else if bundle.verificationKeys.entries.length < 1 ∨
      bundle.verificationKeys.entries.length > maxVerificationKeys then
    .error "credential bundle has an invalid verification-key set"
  else if bundle.verificationKeys.entries.any (fun e => allZero e.1.val ∨ allZero e.2.val) then
    .error "credential bundle has an invalid verification key"
  else if ¬(bundle.verificationKeys.find? bundle.deviceID).any (fun self =>
      self.val = c.edPublic bundle.signingSeed.val) then
    .error "current device verification key does not match its signing seed"
  else .ok ()

def sortedKeys {K V : Type} [LinearOrder K] (m : SortedMap K V) : List K :=
  m.keys.insertionSort (· ≤ ·)

def writeTable {K : Type} [LinearOrder K] (writeKey : K → Bytes)
    (m : SortedMap K (FixedBytes 32)) : Bytes :=
  bigEndian 2 (sortedKeys m).length ++ (sortedKeys m).flatMap (fun k =>
    writeKey k ++ ((m.find? k).getD (.zero 32)).val)

def CredentialBundleV1.encoded (bundle : CredentialBundleV1) : Bytes :=
  credentialMagic ++ ([bundle.version] ++ (bundle.accountID.val ++ (bundle.deviceID.val ++
    (bigEndian 2 bundle.deviceToken.length ++ (bundle.deviceToken ++ (bundle.signingSeed.val ++
      (bundle.x25519Private.val ++ (bundle.localDataKey.val ++ (bundle.objectIDKey.val ++
        (bigEndian 8 bundle.currentEpoch.val ++
          (writeTable (fun epoch => bigEndian 8 epoch.val) bundle.epochKeys ++
            writeTable Subtype.val bundle.verificationKeys)))))))))))

def encodeCredentialBundle (c : Crypto) (bundle : CredentialBundleV1) : Except String Bytes :=
  match bundle.validate c with
  | .error e => .error e
  | .ok () =>
    if bundle.encoded.length > maxCredentialBlobBytes then
      .error "credential bundle exceeds size limit"
    else .ok bundle.encoded

def truncated : String := "credential bundle is truncated"

def FixedBytes.ofBytes (n : ℕ) (value : Bytes) : FixedBytes n :=
  if h : value.length = n then ⟨value, h⟩ else .zero n

def copyFixed (n : ℕ) : Reader String (FixedBytes n) := do
  let value ← take truncated n
  pure (FixedBytes.ofBytes n value)

def readUint64 : Reader String Epoch := do
  let value ← number truncated 8
  pure (Fin.ofNat (2^64) value)

/-- A count between bounds, with one message for all that can be wrong with it. -/
def readCount (lo hi : ℕ) (message : String) : Reader String ℕ := do
  let count ← relabel message (number truncated 2)
  if count < lo ∨ count > hi then throw message else pure count

def readCredentialBundle : Reader String CredentialBundleV1 := do
  let magic ← take truncated credentialMagic.length
  if magic ≠ credentialMagic then throw "credential bundle magic is invalid"
  else
    let version ← relabel "credential bundle version is unsupported" (take truncated 1)
    if version ≠ [credentialBundleVersion] then throw "credential bundle version is unsupported"
    else
      let accountID ← copyFixed 16
      let deviceID ← copyFixed 16
      let tokenLength ← readCount 16 maxDeviceTokenBytes "credential bundle token length is invalid"
      let deviceToken ← take truncated tokenLength
      let signingSeed ← copyFixed 32
      let x25519Private ← copyFixed 32
      let localDataKey ← copyFixed 32
      let objectIDKey ← copyFixed 32
      let currentEpoch ← readUint64
      let epochCount ← readCount 1 maxEpochKeys "credential bundle epoch count is invalid"
      -- The first epoch is compared with zero, the first device with nothing.
      let epochKeys ← table readUint64 (copyFixed 32)
        "credential bundle epochs are duplicate or out of order" epochCount (some 0) ∅
      let verificationCount ← readCount 1 maxVerificationKeys
        "credential bundle verification-key count is invalid"
      let verificationKeys ← table (copyFixed 16) (copyFixed 32)
        "credential bundle device keys are duplicate or out of order" verificationCount none ∅
      pure ⟨version.headD 0, accountID, deviceID, deviceToken, signingSeed, x25519Private,
        localDataKey, objectIDKey, currentEpoch, epochKeys, verificationKeys⟩

def decodeCredentialBundle (c : Crypto) (encoded : Bytes) : Except String CredentialBundleV1 :=
  if encoded.length < 5 ∨ encoded.length > maxCredentialBlobBytes then
    .error "credential bundle length is invalid"
  else
    match readCredentialBundle encoded with
    | .error e => .error e
    | .ok (bundle, rest) =>
      if rest ≠ [] then .error "credential bundle has trailing bytes"
      else
        match bundle.validate c with
        | .error e => .error e
        | .ok () => .ok bundle

theorem exact_copyFixed {n : ℕ} : Exact (copyFixed n) Subtype.val (fun _ => True) := by
  apply (exact_take truncated n).map (FixedBytes.ofBytes n) Subtype.val
  · intro b _
    simp [FixedBytes.ofBytes, b.property]
  · intro value h
    simp [FixedBytes.ofBytes, h]
  · intro _ _
    trivial
  · intro b _
    exact b.property

theorem exact_readUint64 :
    Exact readUint64 (fun epoch : Epoch => bigEndian 8 epoch.val) (fun _ => True) := by
  apply (exact_number truncated 8).map (Fin.ofNat (2^64)) Fin.val
  · intro epoch _
    exact Fin.ofNat_val_eq_self epoch
  · intro v hv
    exact Nat.mod_eq_of_lt hv
  · intro _ _
    trivial
  · intro epoch _
    exact epoch.isLt

theorem exact_readCount (lo hi : ℕ) (message : String) (h : hi < 256^2) :
    Exact (readCount lo hi message) (bigEndian 2) (fun n => lo ≤ n ∧ n ≤ hi) := by
  intro bytes n rest
  simp only [readCount, ((exact_number truncated 2).relabel message).bind_iff, guard_ok_iff,
    pure_ok_iff]
  constructor
  · rintro ⟨count, mid, ⟨_, rfl⟩, hbounds, rfl, rfl⟩
    exact ⟨by omega, rfl⟩
  · rintro ⟨hn, rfl⟩
    exact ⟨n, rest, ⟨by omega, rfl⟩, by omega, rfl, rfl⟩

/-! The sorted keys are the keys in the order of the map, whatever order an iteration
yields them in. -/

variable {K : Type}

theorem insertionSort_keys {V : Type} [LinearOrder K] {m : SortedMap K V} {order : List K}
    (h : order.Perm m.keys) : order.insertionSort (· ≤ ·) = m.keys := by
  have hsorted : m.keys.Pairwise (· ≤ ·) := m.sorted.imp le_of_lt
  exact ((perm_insertionSort _ order).trans h).eq_of_pairwise
    (fun _ _ _ _ hab hba => le_antisymm hab hba) (pairwise_insertionSort _ order) hsorted

theorem sortedKeys_eq {V : Type} [LinearOrder K] (m : SortedMap K V) : sortedKeys m = m.keys :=
  insertionSort_keys (List.Perm.refl _)

theorem writeTable_eq [LinearOrder K] (writeKey : K → Bytes) (m : SortedMap K (FixedBytes 32)) :
    writeTable writeKey m = bigEndian 2 m.entries.length ++
      m.entries.flatMap (fun e => writeKey e.1 ++ e.2.val) := by
  rw [writeTable, sortedKeys_eq, SortedMap.keys, length_map, flatMap_map]
  congr 1
  apply flatMap_congr
  intro e he
  rw [(SortedMap.find?_eq_some_iff m e.1 e.2).mpr he, Option.getD_some]

structure CredentialBundleV1.Framed (bundle : CredentialBundleV1) : Prop where
  version : bundle.version = credentialBundleVersion
  token : 16 ≤ bundle.deviceToken.length ∧ bundle.deviceToken.length ≤ maxDeviceTokenBytes
  epochs : 1 ≤ bundle.epochKeys.entries.length ∧ bundle.epochKeys.entries.length ≤ maxEpochKeys
  positive : ∀ e ∈ bundle.epochKeys.entries, 0 < e.1
  devices : 1 ≤ bundle.verificationKeys.entries.length ∧
    bundle.verificationKeys.entries.length ≤ maxVerificationKeys

theorem readCredentialBundle_ok_iff (bytes rest : Bytes) (bundle : CredentialBundleV1) :
    readCredentialBundle bytes = .ok (bundle, rest) ↔
      bundle.Framed ∧ bytes = bundle.encoded ++ rest := by
  have htoken := exact_readCount 16 maxDeviceTokenBytes "credential bundle token length is invalid"
    (by decide)
  have hepochs := exact_readCount 1 maxEpochKeys "credential bundle epoch count is invalid"
    (by decide)
  have hdevices := exact_readCount 1 maxVerificationKeys
    "credential bundle verification-key count is invalid" (by decide)
  have hversion := (exact_take truncated 1).relabel "credential bundle version is unsupported"
  simp only [readCredentialBundle, (exact_take truncated _).bind_iff, guard_ok_iff,
    hversion.bind_iff, (exact_copyFixed).bind_iff, htoken.bind_iff, hepochs.bind_iff,
    hdevices.bind_iff, exact_readUint64.bind_iff, bind_ok_iff,
    table_empty_ok_iff exact_readUint64 (exact_copyFixed),
    table_empty_ok_iff (exact_copyFixed) (exact_copyFixed), pure_ok_iff, true_and]
  constructor
  · rintro ⟨magic, _, ⟨_, rfl⟩, hmagic, version, _, ⟨_, rfl⟩, hver, accountID, _, rfl, deviceID, _,
      rfl, _, _, ⟨htok, rfl⟩, token, _, ⟨rfl, rfl⟩, seed, _, rfl, x25519, _, rfl, localKey, _, rfl,
      objectKey, _, rfl, epoch, _, rfl, _, _, ⟨hep, rfl⟩, epochKeys, _, ⟨rfl, hpos, rfl⟩, _, _,
      ⟨hdev, rfl⟩, verificationKeys, _, ⟨rfl, _, rfl⟩, rfl, rfl⟩
    obtain rfl := not_not.mp hmagic
    obtain rfl := not_not.mp hver
    refine ⟨⟨rfl, htok, hep, fun e he => hpos 0 rfl e he, hdev⟩, ?_⟩
    simp only [CredentialBundleV1.encoded, writeTable_eq, append_assoc, id, headD_cons]
  · rintro ⟨hf, rfl⟩
    refine ⟨credentialMagic, _, ⟨rfl, ?_⟩, not_not.mpr rfl, [bundle.version], _, ⟨rfl, rfl⟩,
      not_not.mpr (by rw [hf.version]), bundle.accountID, _, rfl, bundle.deviceID, _, rfl,
      bundle.deviceToken.length, _, ⟨hf.token, rfl⟩, bundle.deviceToken, _, ⟨rfl, rfl⟩,
      bundle.signingSeed, _, rfl, bundle.x25519Private, _, rfl, bundle.localDataKey, _, rfl,
      bundle.objectIDKey, _, rfl, bundle.currentEpoch, _, rfl, bundle.epochKeys.entries.length, _,
      ⟨hf.epochs, rfl⟩, bundle.epochKeys, _, ⟨rfl, ?_, rfl⟩,
      bundle.verificationKeys.entries.length, _, ⟨hf.devices, rfl⟩, bundle.verificationKeys, rest,
      ⟨rfl, by simp, rfl⟩, rfl, rfl⟩
    · simp only [CredentialBundleV1.encoded, writeTable_eq, append_assoc, id]
    · intro p hp e he
      cases hp
      exact hf.positive e he

theorem check_ok_iff (failed : Prop) [Decidable failed] (message : String) (next : Except String Unit) :
    (if failed then .error message else next) = .ok () ↔ ¬failed ∧ next = .ok () := by
  split_ifs with h <;> simp [h]

theorem framed_of_validate {c : Crypto} {bundle : CredentialBundleV1}
    (h : bundle.validate c = .ok ()) : bundle.Framed := by
  rw [CredentialBundleV1.validate, check_ok_iff, check_ok_iff, check_ok_iff, check_ok_iff,
    check_ok_iff, check_ok_iff, check_ok_iff, check_ok_iff] at h
  obtain ⟨hversion, _, htoken, _, hepochs, hkeys, _, hdevices, _⟩ := h
  have hlength : 16 ≤ bundle.deviceToken.length ∧
      bundle.deviceToken.length ≤ maxDeviceTokenBytes := by
    simp only [validDeviceToken, not_not] at htoken
    split_ifs at htoken
    omega
  refine ⟨not_not.mp hversion, hlength, by omega, ?_, by omega⟩
  intro e he
  rw [Fin.pos_iff_ne_zero]
  intro hzero
  apply hkeys
  refine any_eq_true.mpr ⟨e, he, decide_eq_true (.inl ?_)⟩
  rw [hzero]
  exact Nat.zero_lt_one

theorem writeTable_length [LinearOrder K] (writeKey : K → Bytes) {n : ℕ}
    (hkey : ∀ k, (writeKey k).length = n) (m : SortedMap K (FixedBytes 32)) :
    (writeTable writeKey m).length = 2+m.entries.length*(n+32) := by
  rw [writeTable_eq, length_append, bigEndian_length, length_flatMap]
  have hentry : m.entries.map (fun e => (writeKey e.1 ++ e.2.val).length) =
      List.replicate m.entries.length (n+32) := by
    rw [eq_replicate_iff]
    refine ⟨length_map _, ?_⟩
    intro x hx
    obtain ⟨e, _, rfl⟩ := mem_map.mp hx
    rw [length_append, hkey, e.2.property]
  rw [hentry, sum_replicate, smul_eq_mul]

theorem encoded_length (bundle : CredentialBundleV1) : bundle.encoded.length =
    179+bundle.deviceToken.length+bundle.epochKeys.entries.length*40+
      bundle.verificationKeys.entries.length*48 := by
  have hmagic : credentialMagic.length = 4 := by decide +kernel
  simp only [CredentialBundleV1.encoded, length_append, hmagic, length_singleton,
    bundle.accountID.property, bundle.deviceID.property, bundle.signingSeed.property,
    bundle.x25519Private.property, bundle.localDataKey.property, bundle.objectIDKey.property,
    bigEndian_length, writeTable_length _ (fun epoch : Epoch => bigEndian_length),
    writeTable_length _ (fun device : FixedBytes 16 => device.property)]
  omega

theorem encoded_size {bundle : CredentialBundleV1} (h : bundle.Framed) :
    5 ≤ bundle.encoded.length ∧ bundle.encoded.length ≤ maxCredentialBlobBytes := by
  have htoken := h.token
  have hepochs := h.epochs
  have hdevices := h.devices
  simp only [maxDeviceTokenBytes, maxEpochKeys, maxVerificationKeys] at htoken hepochs hdevices
  rw [encoded_length, maxCredentialBlobBytes]
  omega

theorem encodeCredentialBundle_ok_iff (c : Crypto) (bundle : CredentialBundleV1) (bytes : Bytes) :
    encodeCredentialBundle c bundle = .ok bytes ↔
      bundle.validate c = .ok () ∧ bytes = bundle.encoded := by
  unfold encodeCredentialBundle
  cases h : bundle.validate c with
  | error e => simp
  | ok u =>
    have hsize := (encoded_size (framed_of_validate h)).2
    simp only [not_lt.mpr hsize, if_false, Except.ok.injEq, true_and]
    exact eq_comm

theorem decodeCredentialBundle_ok_iff (c : Crypto) (bytes : Bytes) (bundle : CredentialBundleV1) :
    decodeCredentialBundle c bytes = .ok bundle ↔
      bundle.validate c = .ok () ∧ bytes = bundle.encoded := by
  constructor
  · intro h
    unfold decodeCredentialBundle at h
    split_ifs at h
    split at h
    · cases h
    rename_i read rest hread
    split_ifs at h with hrest
    split at h
    · cases h
    rename_i hvalid
    obtain rfl := Except.ok.inj h
    obtain ⟨_, rfl⟩ := (readCredentialBundle_ok_iff bytes rest read).mp hread
    rw [not_not.mp hrest, append_nil]
    exact ⟨hvalid, rfl⟩
  · rintro ⟨hvalid, rfl⟩
    have hframed := framed_of_validate hvalid
    have hsize := encoded_size hframed
    have hread : readCredentialBundle bundle.encoded = .ok (bundle, []) :=
      (readCredentialBundle_ok_iff _ _ _).mpr ⟨hframed, (append_nil _).symm⟩
    have hbounds : ¬(bundle.encoded.length < 5 ∨
        bundle.encoded.length > maxCredentialBlobBytes) := by omega
    simp only [decodeCredentialBundle, hbounds, if_false, hread, hvalid, ne_eq, not_true_eq_false]

/-- Encoding and decoding are inverse to each other between the valid bundles and the
accepted byte strings, and no accepted string continues another. -/
theorem credential_bundle_bijection (c : Crypto) :
    (∀ bundle : CredentialBundleV1, bundle.validate c = .ok () →
      ∃ bytes, encodeCredentialBundle c bundle = .ok bytes ∧
        decodeCredentialBundle c bytes = .ok bundle) ∧
    (∀ bytes bundle, decodeCredentialBundle c bytes = .ok bundle →
      encodeCredentialBundle c bundle = .ok bytes) ∧
    ∀ bytes more first second, decodeCredentialBundle c bytes = .ok first →
      decodeCredentialBundle c (bytes ++ more) = .ok second → more = [] := by
  refine ⟨?_, ?_, ?_⟩
  · intro bundle hvalid
    exact ⟨bundle.encoded, (encodeCredentialBundle_ok_iff c bundle _).mpr ⟨hvalid, rfl⟩,
      (decodeCredentialBundle_ok_iff c _ bundle).mpr ⟨hvalid, rfl⟩⟩
  · intro bytes bundle h
    exact (encodeCredentialBundle_ok_iff c bundle bytes).mpr
      ((decodeCredentialBundle_ok_iff c bytes bundle).mp h)
  · intro bytes more first second hfirst hsecond
    obtain ⟨hvalid, rfl⟩ := (decodeCredentialBundle_ok_iff c _ first).mp hfirst
    obtain ⟨hvalid', heq⟩ := (decodeCredentialBundle_ok_iff c _ second).mp hsecond
    -- The reader takes the first record off both strings.
    have hread := (readCredentialBundle_ok_iff (first.encoded ++ more) more first).mpr
      ⟨framed_of_validate hvalid, rfl⟩
    have hread' := (readCredentialBundle_ok_iff (first.encoded ++ more) [] second).mpr
      ⟨framed_of_validate hvalid', by rw [heq, append_nil]⟩
    rw [hread] at hread'
    exact (Prod.mk.inj (Except.ok.inj hread')).2

def sampleBundle : CredentialBundleV1 where
  version := 1
  accountID := ⟨List.replicate 16 1, rfl⟩
  deviceID := ⟨List.replicate 16 2, rfl⟩
  deviceToken := lit "AAAAAAAAAAAAAAAA"
  signingSeed := ⟨List.replicate 32 3, rfl⟩
  x25519Private := ⟨List.replicate 32 4, rfl⟩
  localDataKey := ⟨List.replicate 32 5, rfl⟩
  objectIDKey := ⟨List.replicate 32 6, rfl⟩
  currentEpoch := 2
  epochKeys := .ofList [(2, ⟨List.replicate 32 7, rfl⟩), (1, ⟨List.replicate 32 8, rfl⟩)]
  verificationKeys := .ofList [(⟨List.replicate 16 9, rfl⟩, ⟨List.replicate 32 9, rfl⟩),
    (⟨List.replicate 16 2, rfl⟩, .ofBytes 32 (sampleCrypto.edPublic (List.replicate 32 3)))]

theorem credential_bundle_bijection_sample : sampleBundle.validate sampleCrypto = .ok () ∧
    ∃ bytes, encodeCredentialBundle sampleCrypto sampleBundle = .ok bytes ∧
      decodeCredentialBundle sampleCrypto bytes = .ok sampleBundle := by
  have hvalid : sampleBundle.validate sampleCrypto = .ok () := by decide +kernel
  exact ⟨hvalid, (credential_bundle_bijection sampleCrypto).1 sampleBundle hvalid⟩

end YunPin
