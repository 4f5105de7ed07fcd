import YunPin.ProtocolEnvelope

/-! Phrases of the encrypted local store and the pure part of its CRDT adapter:
object identity, migration of a record to CRDT state, payload validation and
payload merge. -/
namespace YunPin
open ByteText

def maxUint64 : UInt64 := 0xFFFFFFFFFFFFFFFF
def maxUint32 : ℕ := 2^32-1

abbrev ObjectID := {b : Bytes // b.length = 16}

def toObjectID (b : Bytes) : ObjectID :=
  ⟨(b ++ List.replicate 16 0).take 16, by simp⟩

structure Unicode where
  nfkc : Bytes → Bytes
  nfd : Bytes → Bytes
  toLower : Bytes → Bytes
  isMn : ℕ → Bool

def canonicalPhrase (u : Unicode) (value : Bytes) : Bytes := joinFields (u.nfkc (trimSpace value))

/-- One rune of the canonicalisation loop over the text built so far and the
pending separator. White space, apostrophes and all other runes do the same. -/
def pinyinStep (u : Unicode) (acc : Bytes × Bool) (r : ℕ) : Bytes × Bool :=
  if u.isMn r then acc
  else if 0x31 ≤ r ∧ r ≤ 0x35 then acc
  else if 0x61 ≤ r ∧ r ≤ 0x7A then
    ((if acc.2 ∧ acc.1.length > 0 then acc.1 ++ [0x20] else acc.1) ++ [UInt8.ofNat r], false)
  else (acc.1, decide (acc.1.length > 0))

def canonicalPinyin (u : Unicode) (value : Bytes) : Bytes :=
  let value := u.toLower (u.nfkc (trimSpace value))
  let value := replaceAll (lit "u:") (lit "v") value
  let value := [lit "ü", lit "ǖ", lit "ǘ", lit "ǚ", lit "ǜ"].foldl
    (fun v old => replaceAll old (lit "v") v) value
  ((runes (u.nfd value)).foldl (pinyinStep u) ([], false)).1

def opaqueObjectID (c : Crypto) (u : Unicode) (idKey phrase pinyin : Bytes) :
    Except String ObjectID :=
  if idKey.length ≠ 32 then .error "object ID key must be 32 bytes"
  else if canonicalPhrase u phrase = [] ∨ canonicalPinyin u pinyin = [] then
    .error "phrase and canonical Pinyin are required"
  else .ok (toObjectID (c.hmac idKey (canonicalPhrase u phrase ++ [0] ++ canonicalPinyin u pinyin)))

structure Phrase where
  text : Bytes
  pinyin : Bytes
  source : Bytes
  useCount : UInt64
  pinned : Bool
  deleted : Bool
  lastUsedDay : ℤ
  crdt : PhraseState
deriving DecidableEq, Inhabited

structure PhrasePayload where
  text : Bytes
  pinyin : Bytes
  source : Bytes
  lastUsedDay : ℤ
  state : PhraseState
deriving DecidableEq, Inhabited

/-- The code that is not in the repository: cryptography, CBOR, Unicode tables. -/
structure Externals where
  crypto : Crypto
  cbor : Cbor PhrasePayload
  unicode : Unicode

def PhrasePayload.validText (p : PhrasePayload) : Bool :=
  validUTF8 p.text && validUTF8 p.pinyin && validUTF8 p.source && validUTF8 p.state.objectID &&
    validUTF8 p.state.pinned.clock.node && validUTF8 p.state.presence.clock.node &&
    (p.state.counts.getD ∅).keys.all validUTF8

/-- What the documentation of the codec promises: decoding inverts encoding, and
a text string that is not valid UTF-8 is rejected. -/
structure Cbor.Laws (cbor : Cbor PhrasePayload) : Prop where
  unmarshal_marshal : ∀ p : PhrasePayload, p.validText = true → p.state.counts ≠ none →
    cbor.unmarshal (cbor.marshal p) = some p
  unmarshal_valid : ∀ bytes p, cbor.unmarshal bytes = some p → p.validText = true

/-- The assumptions on third-party code that a result may rest on. -/
structure Externals.Laws (x : Externals) : Prop where
  crypto : x.crypto.Laws
  cbor : x.cbor.Laws

/-! What a JSON round trip does to a record: every string, the keys of the
counter map included, is repaired to valid UTF-8. -/

def jsonClock (clock : HLC) : HLC := { clock with node := toValidUTF8 clock.node }

/-- Keys are written in sorted order; of two keys that collide after the repair
the later one wins on reading. -/
def jsonCounts (counts : Counts) : Counts :=
  SortedMap.ofList (counts.entries.map (fun e => (toValidUTF8 e.1, e.2)))

def jsonState (s : PhraseState) : PhraseState where
  objectID := toValidUTF8 s.objectID
  counts := s.counts.map jsonCounts
  pinned := { s.pinned with clock := jsonClock s.pinned.clock }
  presence := { s.presence with clock := jsonClock s.presence.clock }

def jsonPhrase (phrase : Phrase) : Phrase :=
  { phrase with
    text := toValidUTF8 phrase.text
    pinyin := toValidUTF8 phrase.pinyin
    source := toValidUTF8 phrase.source
    crdt := jsonState phrase.crdt }

def validSyncDeviceID (deviceID : Bytes) : Bool := (decodeLowerHex 16 deviceID).isSome

def isZeroClock (clock : HLC) : Bool :=
  clock.wallMillis = 0 ∧ clock.counter = 0 ∧ clock.node = []

def clonePhraseState (state : PhraseState) : PhraseState :=
  { state with counts := some (state.counts.getD ∅) }

def addCounts (total : UInt64) : List (Bytes × UInt64) → UInt64
  | [] => total
  | e :: rest => if maxUint64-total < e.2 then maxUint64 else addCounts (total+e.2) rest

def totalCounts (counts : Counts) : UInt64 := addCounts 0 counts.entries

def materializePhrase (phrase : Phrase) : Phrase :=
  { phrase with
    useCount := totalCounts (phrase.crdt.counts.getD ∅)
    pinned := phrase.crdt.pinned.value
    deleted := !phrase.crdt.presence.present }

def adoptState (phrase : Phrase) (opaqueID : Bytes) (eventClock : HLC) : Except String Phrase :=
  if phrase.crdt.objectID = [] then .ok { phrase with crdt := {
    objectID := opaqueID
    counts := some ∅
    pinned := ⟨phrase.pinned, eventClock⟩
    presence := ⟨!phrase.deleted, eventClock, 1⟩ } }
  else if phrase.crdt.objectID ≠ opaqueID then
    .error "phrase CRDT object ID does not match encrypted record"
  else .ok phrase

def migrateCounts (phrase : Phrase) (deviceID : Bytes) : Phrase :=
  let counts := phrase.crdt.counts.getD ∅
  let aggregate := totalCounts counts
  let counts := if aggregate < phrase.useCount then
      counts.insert deviceID ((counts.find? deviceID).getD 0 + (phrase.useCount-aggregate))
    else counts
  { phrase with crdt := { phrase.crdt with counts := some counts } }

def migrateGeneration (phrase : Phrase) : Phrase :=
  if phrase.crdt.presence.generation = 0 then
    { phrase with crdt := { phrase.crdt with presence :=
      { phrase.crdt.presence with generation := 1, present := !phrase.deleted } } }
  else phrase

def stampClocks (phrase : Phrase) (eventClock : HLC) : Phrase :=
  let pinned := if isZeroClock phrase.crdt.pinned.clock then ⟨phrase.pinned, eventClock⟩
    else phrase.crdt.pinned
  let presence := if isZeroClock phrase.crdt.presence.clock then
      { phrase.crdt.presence with clock := eventClock }
    else phrase.crdt.presence
  { phrase with crdt := { phrase.crdt with pinned := pinned, presence := presence } }

def ensurePhraseState (phrase : Phrase) (objectID : ObjectID) (deviceID : Bytes)
    (eventClock : HLC) : Except String Phrase :=
  match adoptState phrase (hexEncode objectID.val) eventClock with
  | .error e => .error e
  | .ok phrase => .ok (materializePhrase
      (stampClocks (migrateGeneration (migrateCounts phrase deviceID)) eventClock))

def validatePayloadObject (x : Externals) (payload : PhrasePayload) (idKey : Bytes) :
    Except String ObjectID :=
  if isBlank payload.text ∨ isBlank payload.pinyin then
    .error "phrase payload text and Pinyin are required"
  else
    match opaqueObjectID x.crypto x.unicode idKey payload.text payload.pinyin with
    | .error e => .error e
    | .ok objectID =>
      if payload.state.objectID ≠ hexEncode objectID.val ∨ payload.state.presence.generation = 0 then
        .error "phrase payload object ID or generation is invalid"
      else
        match payload.state.counts with
        | none => .error "phrase payload counter is missing"
        | some counts =>
          if ¬counts.entries.all (fun e => validSyncDeviceID e.1) then
            .error "phrase payload contains an invalid counter component"
          else if ¬validSyncDeviceID payload.state.pinned.clock.node ∨
              ¬validSyncDeviceID payload.state.presence.clock.node then
            .error "phrase payload contains an invalid HLC node"
          else .ok objectID

def chooseStableString (left right : Bytes) : Bytes :=
  if left = [] then right
  else if right = [] ∨ left ≤ right then left
  else right

def mergePhrasePayload (left right : PhrasePayload) : Except String PhrasePayload :=
  match mergePhrase left.state right.state with
  | .error e => .error e
  | .ok state => .ok {
      text := chooseStableString left.text right.text
      pinyin := chooseStableString left.pinyin right.pinyin
      source := chooseStableString left.source right.source
      lastUsedDay := if right.lastUsedDay > left.lastUsedDay then right.lastUsedDay
        else left.lastUsedDay
      state := state }

end YunPin
