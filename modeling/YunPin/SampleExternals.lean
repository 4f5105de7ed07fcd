import YunPin.PrefixCodec
import YunPin.StorePhrase

/-! A small instance of the third-party code. It meets the assumptions the results
rest on, so these are consistent, and it is cheap to evaluate. It keeps no secret. -/
namespace YunPin
open ByteText

/-- Cut off or filled up with zeros. -/
def fit (n : ℕ) (b : Bytes) : Bytes := (b ++ List.replicate n 0).take n

theorem fit_length {n : ℕ} {b : Bytes} : (fit n b).length = n := by simp [fit]

/-- Hashes that cut, a cipher that appends a tag, signatures that every key verifies. -/
def sampleCrypto : Crypto where
  sha256 m := fit 32 m
  hmac _ m := m
  hkdf secret _ _ := secret
  aeadSeal _ _ plain _ := plain ++ List.replicate aeadOverhead 0
  aeadOpen _ _ ciphertext _ :=
    if ciphertext.length < aeadOverhead then none
    else some (ciphertext.take (ciphertext.length-aeadOverhead))
  edPublic signingPrivate := fit 32 signingPrivate
  edSign _ _ := List.replicate 64 0
  edVerify _ _ _ := true
  canonicalHeader h := putUint32 h.deviceSeq ++ h.deviceID ++ h.objectID

theorem sampleCrypto_laws : sampleCrypto.Laws where
  sha256_length m := fit_length
  aeadSeal_length _ _ p _ := by simp [sampleCrypto]
  aeadOpen_aeadSeal _ _ p _ := by simp [sampleCrypto]
  edSign_length _ _ := by simp [sampleCrypto]
  edPublic_length s := fit_length
  edVerify_edSign _ _ := rfl

namespace Sample
open PrefixCodec

def text : PrefixCodec Bytes := byte.list

def clock : PrefixCodec HLC :=
  (int.pair (nat.pair text)).retype (fun p => ⟨p.1, p.2.1, p.2.2⟩)
    (fun c => (c.wallMillis, c.counter, c.node)) (fun _ => rfl)

def pinned : PrefixCodec LWWBool :=
  (bool.pair clock).retype (fun p => ⟨p.1, p.2⟩) (fun r => (r.value, r.clock)) (fun _ => rfl)

def presence : PrefixCodec Presence :=
  (bool.pair (clock.pair uint64)).retype (fun p => ⟨p.1, p.2.1, p.2.2⟩)
    (fun r => (r.present, r.clock, r.generation)) (fun _ => rfl)

def state : PrefixCodec PhraseState :=
  (text.pair ((option (sortedMap (text.pair uint64))).pair (pinned.pair presence))).retype
    (fun p => ⟨p.1, p.2.1, p.2.2.1, p.2.2.2⟩)
    (fun s => (s.objectID, s.counts, s.pinned, s.presence)) (fun _ => rfl)

def payload : PrefixCodec PhrasePayload :=
  (text.pair (text.pair (text.pair (int.pair state)))).retype
    (fun p => ⟨p.1, p.2.1, p.2.2.1, p.2.2.2.1, p.2.2.2.2⟩)
    (fun p => (p.text, p.pinyin, p.source, p.lastUsedDay, p.state)) (fun _ => rfl)

end Sample

def sampleCbor : Cbor PhrasePayload where
  marshal := Sample.payload.encode
  unmarshal bytes := ((Sample.payload.decode bytes).map Prod.fst).filter PhrasePayload.validText

theorem sampleCbor_laws : sampleCbor.Laws where
  unmarshal_marshal p hp _ := by
    have h := Sample.payload.decode_encode p []
    rw [List.append_nil] at h
    simp [sampleCbor, h, hp]
  unmarshal_valid bytes p h := (Option.filter_eq_some_iff.mp h).2

def sampleUnicode : Unicode where
  nfkc := id
  nfd := id
  toLower := id
  isMn _ := false

def sampleExternals : Externals := ⟨sampleCrypto, sampleCbor, sampleUnicode⟩

theorem sampleExternals_laws : sampleExternals.Laws := ⟨sampleCrypto_laws, sampleCbor_laws⟩

end YunPin
