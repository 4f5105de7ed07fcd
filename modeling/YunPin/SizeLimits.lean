import YunPin.PoisonUpload
import YunPin.RelayAgreement

/-! Size limits from the payload to the download. Each stage has a limit of its own: the
padding of the payload, the envelope body, the staged JSON, the request body, the relay's
checks and table, the page and the response that the client reads. -/
namespace YunPin
open ByteText List

def maxBodyBytes : ℕ := 2^20
def maxResponseBytes : ℕ := 2*2^20

/-! The JSON of requests and responses. Strings are hexadecimal, base64 or fixed codes, so
nothing is escaped. `json.Encoder` ends its output with a line feed. -/

def jsonInteger : ℤ → Bytes
  | .ofNat n => jsonNumber n
  | .negSucc n => lit "-" ++ jsonNumber (n+1)

def jsonList (items : List Bytes) : Bytes := (items.intersperse (lit ",")).flatten

def jsonObject (members : List Bytes) : Bytes := lit "\x7b" ++ jsonList members ++ lit "\x7d"

def jsonArray (items : List Bytes) : Bytes := lit "[" ++ jsonList items ++ lit "]"

/-- What the client sends; `limit` and `envelopes` are omitted when empty. -/
def SyncRequest.body (request : SyncRequest) : Bytes :=
  jsonObject (
    [jsonField "cursor" (jsonInteger request.cursor),
      jsonField "ack_cursor" (jsonInteger request.ackCursor)] ++
    (if request.limit = 0 then [] else [jsonField "limit" (jsonInteger request.limit)]) ++
    (if request.envelopes = [] then [] else
      [jsonField "envelopes" (jsonArray (request.envelopes.map WireEnvelope.json))])) ++ lit "\n"

def SyncRejection.json (rejection : SyncRejection) : Bytes :=
  jsonObject [jsonField "device_seq" (jsonNumber rejection.deviceSequence),
    jsonField "code" (jsonText (lit rejection.code))]

def SyncResponse.json (response : SyncResponse) : Bytes :=
  jsonObject [
    jsonField "accepted_sequences" (jsonArray (response.acceptedSequences.map jsonNumber)),
    jsonField "current_key_epoch" (jsonInteger response.currentKeyEpoch),
    jsonField "envelopes" (jsonArray (response.envelopes.map WireEnvelope.json)),
    jsonField "has_more" (if response.hasMore then lit "true" else lit "false"),
    jsonField "next_cursor" (jsonInteger response.nextCursor),
    jsonField "rejected_sequences" (jsonArray (response.rejectedSequences.map SyncRejection.json))]

def Body.syncText : Body → Option Bytes
  | .error code => some (jsonObject [jsonField "error" (jsonText (lit code))] ++ lit "\n")
  | .sync response => some (response.json ++ lit "\n")
  | _ => none

def EnvelopeRow.Admissible (row : EnvelopeRow) : Prop :=
  0 < row.deviceSeq ∧ row.version = 1 ∧ row.objectID.length = 16 ∧ 0 < row.keyEpoch ∧
    (row.previousHash = [] ∨ row.previousHash.length = 32) ∧ row.nonce.length = 24 ∧
    (528 ≤ row.ciphertext.length ∧ row.ciphertext.length ≤ 524816 ∧
      (row.ciphertext.length-16)%512 = 0) ∧ row.signature.length = 64 ∧ row.recordHash.length = 32

theorem utf8Len_digits {cs : List Char} (h : ∀ c ∈ cs, c.isDigit = true) :
    String.utf8Len cs = cs.length := by
  induction cs with
  | nil => rfl
  | cons c cs ih =>
    have hc := h c mem_cons_self
    have hsize : c.utf8Size = 1 := by
      apply Char.utf8Size_eq_one_iff.mpr
      simp only [Char.isDigit, Bool.and_eq_true, decide_eq_true_eq] at hc
      exact UInt32.le_trans hc.2 (by decide)
    rw [String.utf8Len_cons, ih (forall_mem_cons.mp h).2, hsize,
      length_cons]

theorem lit_length (s : String) : (lit s).length = s.utf8ByteSize := by
  rw [lit, Array.length_toList]
  rfl

theorem jsonNumber_length {n : ℕ} (h : n ≤ maxInt64) : (jsonNumber n).length ≤ 19 := by
  rw [jsonNumber, lit_length, Nat.toString_eq_repr, Nat.repr, String.utf8ByteSize_ofList,
    utf8Len_digits (fun c hc => Nat.isDigit_of_mem_toDigits (by decide) (by decide) hc)]
  apply (Nat.length_toDigits_le_iff (by decide) (by decide)).mpr
  unfold maxInt64 at h
  omega

theorem jsonInteger_length {z : ℤ} (h0 : 0 ≤ z) (h : z ≤ maxInt64) :
    (jsonInteger z).length ≤ 19 := by
  obtain ⟨n, rfl⟩ := Int.eq_ofNat_of_zero_le h0
  exact jsonNumber_length (by omega)

theorem jsonText_length (value : Bytes) : (jsonText value).length = value.length+2 := by
  have hquote : (lit "\"").length = 1 := by decide
  rw [jsonText, length_append, length_append, hquote]
  omega

theorem jsonField_length (name : String) (value : Bytes) :
    (jsonField name value).length = (lit name).length+3+value.length := by
  have hcolon : (lit ":").length = 1 := by decide
  rw [jsonField, length_append, length_append, jsonText_length, hcolon]

theorem jsonList_length (items : List Bytes) :
    (jsonList items).length ≤ (items.map List.length).sum+items.length := by
  have hcomma : (lit ",").length = 1 := by decide
  induction items with
  | nil => simp [jsonList]
  | cons a rest ih =>
    cases rest with
    | nil => simp [jsonList]
    | cons b rest =>
      rw [jsonList, intersperse_cons_cons, flatten_cons, flatten_cons,
        length_append, length_append, hcomma, map_cons, sum_cons,
        length_cons]
      have ih' : ((List.intersperse (lit ",") (b :: rest)).flatten).length ≤ _ := ih
      omega

theorem enclosed_length {items : List Bytes} {first last : Bytes} (hfirst : first.length = 1)
    (hlast : last.length = 1) :
    (first ++ jsonList items ++ last).length ≤ (items.map List.length).sum+items.length+2 := by
  have hlist := jsonList_length items
  rw [length_append, length_append, hfirst, hlast]
  omega

theorem jsonObject_length (members : List Bytes) :
    (jsonObject members).length ≤ (members.map List.length).sum+members.length+2 :=
  enclosed_length (by decide) (by decide)

theorem jsonArray_length (items : List Bytes) :
    (jsonArray items).length ≤ (items.map List.length).sum+items.length+2 :=
  enclosed_length (by decide) (by decide)

theorem optional_length (p : Prop) [Decidable p] (member : Bytes) :
    ((if p then [] else [member]).map List.length).sum ≤ member.length ∧
      (if p then [] else [member]).length ≤ 1 := by
  split_ifs <;> simp

structure WireEnvelope.Bounded (wire : WireEnvelope) : Prop where
  version : wire.version ≤ maxInt64
  deviceID : wire.deviceID.length ≤ 32
  deviceSeq : wire.deviceSeq ≤ maxInt64
  objectID : wire.objectID.length ≤ 32
  keyEpoch : wire.keyEpoch ≤ maxInt64
  previousHash : wire.previousHash.length ≤ 43
  nonce : wire.nonce.length ≤ 32
  signature : wire.signature.length ≤ 86
  cursor : wire.cursor ≤ maxInt64

variable {wire : WireEnvelope}

theorem WireEnvelope.Bounded.json_length (h : wire.Bounded) :
    wire.json.length ≤ wire.ciphertext.length+512 := by
  have hnames : (lit "version").length = 7 ∧ (lit "device_id").length = 9 ∧
      (lit "device_seq").length = 10 ∧ (lit "object_id").length = 9 ∧
      (lit "key_epoch").length = 9 ∧ (lit "previous_hash").length = 13 ∧
      (lit "nonce").length = 5 ∧ (lit "ciphertext").length = 10 ∧
      (lit "signature").length = 9 ∧ (lit "cursor").length = 6 := by decide
  obtain ⟨n1, n2, n3, n4, n5, n6, n7, n8, n9, n10⟩ := hnames
  have hdevice := optional_length (wire.deviceID = [])
    (jsonField "device_id" (jsonText wire.deviceID))
  have hprevious := optional_length (wire.previousHash = [])
    (jsonField "previous_hash" (jsonText wire.previousHash))
  have hcursor := optional_length (wire.cursor = 0)
    (jsonField "cursor" (jsonNumber wire.cursor.toNat))
  have hversion := jsonNumber_length h.version
  have hseq := jsonNumber_length h.deviceSeq
  have hepoch := jsonNumber_length h.keyEpoch
  have hcursor' := @jsonNumber_length wire.cursor.toNat (by have := h.cursor; omega)
  have hdeviceID := h.deviceID
  have hobjectID := h.objectID
  have hhash := h.previousHash
  have hnonce := h.nonce
  have hsignature := h.signature
  refine (jsonObject_length _).trans ?_
  simp only [map_append, sum_append, length_append, map_cons, map_nil,
    sum_cons, sum_nil, length_cons, length_nil, jsonField_length,
    jsonText_length, n1, n2, n3, n4, n5, n6, n7, n8, n9, n10] at hdevice hprevious hcursor ⊢
  omega

theorem wirePreviousHash_length {hash : Bytes} (h : hash.length = 0 ∨ hash.length = 32) :
    (wirePreviousHash hash).length ≤ 43 := by
  rw [wirePreviousHash]
  split_ifs with hne
  · rw [base64Encode_length, h.resolve_left hne]
    decide
  · exact Nat.zero_le _

theorem hexDecode_length : ∀ s bs : Bytes, hexDecode s = some bs → s.length = 2*bs.length
  | [], bs, h => by
    cases h
    rfl
  | [_], bs, h => by simp [hexDecode] at h
  | hi :: lo :: rest, bs, h => by
    rw [hexDecode] at h
    split at h
    · rename_i a b bs' _ _ hrest
      cases h
      have ih := hexDecode_length rest bs' hrest
      simp only [length_cons]
      omega
    · cases h

theorem toWire_bounded {envelope : Envelope} (h : envelope.toWire = .ok wire) : wire.Bounded := by
  obtain ⟨hheader, hbody, rfl⟩ := (toWire_ok_iff envelope wire).mp h
  obtain ⟨hversion, ⟨-, hobject, -⟩, ⟨-, hepoch⟩, ⟨-, hseq⟩, hprevious, hnonce⟩ :=
    (validateHeader_ok_iff _).mp hheader
  obtain ⟨hsignature, -⟩ := (validateEnvelopeBody_ok_iff).mp hbody
  exact {
    version := hversion.trans_le (by decide)
    deviceID := Nat.zero_le _
    deviceSeq := hseq
    objectID := (hexEncode_length _).trans_le (by rw [hobject])
    keyEpoch := hepoch
    previousHash := wirePreviousHash_length hprevious
    nonce := (base64Encode_length _).trans_le (by rw [hnonce]; decide)
    signature := (base64Encode_length _).trans_le (by rw [hsignature]; decide)
    cursor := (by decide : (0 : ℤ) ≤ maxInt64) }

theorem decodeID_text_length {value decoded : Bytes} (h : decodeID value = some decoded) :
    value.length = 32 := by
  have hlen := decodeID_length h
  unfold decodeID at h
  split at h
  · cases h
  · rename_i bytes hdecode
    split_ifs at h
    cases h
    rw [hexDecode_length _ _ hdecode, hlen]

theorem Validated.lengths {c : Crypto} {identity : DeviceIdentity} {e : DecodedEnvelope}
    {header : Bytes} (h : Validated c identity wire e header) :
    e.objectID.length = 16 ∧ (e.previousHash.length = 0 ∨ e.previousHash.length = 32) ∧
      e.nonce.length = 24 ∧ e.signature.length = 64 := by
  have hnonce := decodeSized_length h.nonce
  have hsignature := decodeSized_length h.signature
  exact ⟨decodeID_length h.objectID, relayPreviousHash_length h.previousHash, by omega,
    by omega⟩

theorem EnvelopeRow.Verified.bounded {c : Crypto} {row : EnvelopeRow} (h : row.Verified c)
    (hcursor : row.cursor ≤ maxInt64) : row.outgoing.Bounded := by
  obtain ⟨identity, wire, e, header, hv, hrow⟩ := h
  have hdevice : identity.id.length = 32 := by
    have hrebuilt := hv.rebuilt
    unfold relayHeader at hrebuilt
    cases haccount : decodeID identity.accountID with
    | none => simp [haccount] at hrebuilt
    | some account =>
      cases hid : decodeID identity.id with
      | none => simp [haccount, hid] at hrebuilt
      | some device => exact decodeID_text_length hid
  obtain ⟨hobject, hprevious, hnonce, hsignature⟩ := hv.lengths
  obtain rfl := hv.sent
  rw [hrow]
  exact {
    version := hv.version.trans_le (by decide)
    deviceID := hdevice.le
    deviceSeq := hv.deviceSeq.2
    objectID := (hexEncode_length e.objectID).trans_le (by rw [hobject])
    keyEpoch := hv.keyEpoch.2
    previousHash := wirePreviousHash_length hprevious
    nonce := (base64Encode_length e.nonce).trans_le (by rw [hnonce]; decide)
    signature := (base64Encode_length e.signature).trans_le (by rw [hsignature]; decide)
    cursor := hcursor }

/-- The envelope fits every stage on its way into the relay's table. -/
structure FitsUpload (envelope : Envelope) (wire : WireEnvelope) : Prop where
  body : validateEnvelopeBody envelope.ciphertext envelope.signature = .ok ()
  staged : 0 < wire.json.length ∧ wire.json.length ≤ maxPreparedWireBytes
  request : ∀ cursor ackCursor : ℤ, 0 ≤ cursor → cursor ≤ maxInt64 → 0 ≤ ackCursor →
    ackCursor ≤ maxInt64 → (SyncRequest.body ⟨cursor, ackCursor, 256, [wire]⟩).length ≤ maxBodyBytes
  relay : decodeSized wire.ciphertext (paddingBucket+16) maxCiphertext = some envelope.ciphertext ∧
    (envelope.ciphertext.length-16)%paddingBucket = 0
  table : 528 ≤ envelope.ciphertext.length ∧ envelope.ciphertext.length ≤ 524816 ∧
    (envelope.ciphertext.length-16)%512 = 0

variable (c : Crypto) (identity : DeviceIdentity) (wire) (db : RelayDB)

theorem request_length {cursor ackCursor : ℤ} (h0 : 0 ≤ cursor) (h : cursor ≤ maxInt64)
    (hack0 : 0 ≤ ackCursor) (hack : ackCursor ≤ maxInt64) :
    (SyncRequest.body ⟨cursor, ackCursor, 256, [wire]⟩).length ≤ wire.json.length+128 := by
  have hnames : (lit "cursor").length = 6 ∧ (lit "ack_cursor").length = 10 ∧
      (lit "limit").length = 5 ∧ (lit "envelopes").length = 9 ∧ (lit "\n").length = 1 ∧
      (jsonInteger 256).length = 3 := by decide
  obtain ⟨n1, n2, n3, n4, n5, n6⟩ := hnames
  have hcursor := jsonInteger_length h0 h
  have hackCursor := jsonInteger_length hack0 hack
  have harray := jsonArray_length [wire.json]
  rw [SyncRequest.body, length_append, n5]
  refine (Nat.add_le_add_right (jsonObject_length _) 1).trans ?_
  simp only [map_append, sum_append, length_append, map_cons, map_nil,
    sum_cons, sum_nil, length_cons, length_nil, jsonField_length, n1, n2, n3,
    n4, n6, show ¬(256 : ℤ) = 0 by decide, cons_ne_nil, if_false] at harray ⊢
  omega

theorem toWire_fits (envelope : Envelope) (wire : WireEnvelope) (h : envelope.toWire = .ok wire) :
    FitsUpload envelope wire := by
  have hbounded := (toWire_bounded h).json_length
  obtain ⟨-, hbody, hwire⟩ := (toWire_ok_iff envelope wire).mp h
  obtain ⟨-, hlo, hhi, hmod⟩ := (validateEnvelopeBody_ok_iff).mp hbody
  have hciphertext : wire.ciphertext = base64Encode envelope.ciphertext := by rw [hwire]; rfl
  have hlen : wire.ciphertext.length ≤ 699755 := by
    rw [hciphertext, base64Encode_length]
    exact (base64EncodedLen_mono hhi).trans (by decide)
  refine ⟨hbody, ⟨?_, ?_⟩, ?_, ⟨?_, hmod⟩, hlo, hhi, hmod⟩
  · have hopen : (lit "\x7b").length = 1 := by decide
    rw [WireEnvelope.json, length_append, length_append, hopen]
    omega
  · unfold maxPreparedWireBytes
    omega
  · intro cursor ackCursor h0 h hack0 hack
    have := request_length wire h0 h hack0 hack
    unfold maxBodyBytes
    omega
  · rw [hciphertext]
    exact decodeSized_base64Encode _ _ _ hlo hhi

theorem sealUpload_fits (x : Externals) (session : Session) (state : SyncState)
    (event : PendingEvent) (random : RandomSource) (upload : PreparedUpload)
    (h : sealUpload x session state event random = .ok upload) :
    ∃ envelope, FitsUpload envelope upload.wire := by
  unfold sealUpload at h
  split at h
  · cases h
  rename_i envelope _
  split at h
  · cases h
  rename_i wire hwire
  split at h
  · cases h
  rw [← Except.ok.inj h]
  exact ⟨envelope, toWire_fits envelope wire hwire⟩

theorem paddedPayload_length {P : Type} {cbor : Cbor P} {payload : P} {source : RandomSource}
    {offset : ℕ} {plain : Bytes} (h : paddedPayload cbor payload source offset = .ok plain) :
    plain.length = 512*(((cbor.marshal payload).length+4) ⌈/⌉ 512) := by
  unfold paddedPayload at h
  rw [Nat.ceilDiv_eq_add_pred_div]
  simp only at h
  split_ifs at h with hlen hb
  · unfold paddingBucket at hb
    omega
  · cases h
    simp only [length_append, RandomSource.read_length, putUint32, length_cons,
      length_nil, paddingBucket] at *
    omega

theorem validateEnvelope_fits (hc : c.Laws) (identity : DeviceIdentity) (wire : WireEnvelope)
    (e : DecodedEnvelope) (h : validateEnvelope c identity wire = .ok e) (cursor : ℤ) :
    (e.row identity cursor).Admissible ∧ (e.row identity cursor).Sized ∧
      validateEnvelopeBody e.ciphertext e.signature = .ok () := by
  obtain ⟨header, hv⟩ := validateEnvelope_ok c h
  obtain ⟨hlo, hhi⟩ := decodeSized_length hv.ciphertext
  obtain ⟨hobject, hprevious, hnonce, hsig⟩ := hv.lengths
  refine ⟨?_, ⟨hlo, hhi, hv.padding⟩,
    (validateEnvelopeBody_ok_iff).mpr ⟨hsig, hlo, hhi, hv.padding⟩⟩
  obtain rfl := hv.sent
  refine ⟨hv.deviceSeq.1, hv.version, hobject, hv.keyEpoch.1,
    hprevious.imp_left length_eq_zero_iff.mp, hnonce, ⟨hlo, hhi, hv.padding⟩, hsig, ?_⟩
  · exact (congrArg length hv.recordHash).trans (hc.sha256_length _)

structure SmallUpload (db : RelayDB) (u : Upload) : Prop where
  accepted : u.accepted = [] ∨ ∃ n ≤ maxInt64, u.accepted = [n]
  rejected : u.rejected = [] ∨ ∃ n ≤ maxInt64, ∃ code : String, (lit code).length ≤ 32 ∧
    u.rejected = [⟨n, code⟩]
  lastCursor : u.db.lastCursor ≤ db.lastCursor+1
  keyrings : u.db.keyrings = db.keyrings

theorem uploadOne_small (e : DecodedEnvelope) (hseq : e.wire.deviceSeq ≤ maxInt64) :
    SmallUpload db (uploadOne identity ⟨db, [], []⟩ e) := by
  have hcodes : (lit "sequence_conflict").length ≤ 32 ∧ (lit "sequence_gap").length ≤ 32 ∧
      (lit "previous_hash_mismatch").length ≤ 32 := by decide
  have hreject (code : String) (hcode : (lit code).length ≤ 32) :
      SmallUpload db (Upload.reject ⟨db, [], []⟩ e.wire.deviceSeq code) :=
    ⟨.inl rfl, .inr ⟨_, hseq, code, hcode, rfl⟩, (lt_add_one db.lastCursor).le, rfl⟩
  unfold uploadOne
  simp only
  split
  · split_ifs
    · exact ⟨.inr ⟨_, hseq, rfl⟩, .inl rfl, (lt_add_one db.lastCursor).le, rfl⟩
    · exact hreject _ hcodes.1
  · split_ifs
    · exact hreject _ hcodes.1
    · exact hreject _ hcodes.2.1
    · exact hreject _ hcodes.2.2
    · exact ⟨.inr ⟨_, hseq, rfl⟩, .inl rfl, le_rfl, rfl⟩

theorem uploadBatch_small {wires : List WireEnvelope} (hlen : wires.length ≤ 1)
    {decoded : List DecodedEnvelope} (h : validateBatch c identity wires = .ok decoded) :
    SmallUpload db (uploadBatch identity db (splitBatch (sortBatch decoded))) := by
  match wires, hlen with
  | [], _ =>
    cases h
    exact ⟨.inl rfl, .inl rfl, (lt_add_one db.lastCursor).le, rfl⟩
  | [wire], _ =>
    rw [validateBatch] at h
    cases hwire : validateEnvelope c identity wire with
    | error e => simp [hwire] at h
    | ok e =>
      simp only [hwire, validateBatch, Except.ok.injEq] at h
      subst h
      obtain ⟨header, hv⟩ := validateEnvelope_ok c hwire
      exact uploadOne_small identity db e (by rw [hv.sent]; exact hv.deviceSeq.2)

theorem base64EncodedLen_le (n : ℕ) : 3*base64EncodedLen n ≤ 4*n+2 := by
  unfold base64EncodedLen
  omega

theorem page_json_length {page : List EnvelopeRow} (h : ∀ r ∈ page, r.outgoing.Bounded) :
    3*((page.map EnvelopeRow.outgoing).map (fun w => w.json.length)).sum ≤
      4*pageBytes page+1538*page.length := by
  induction page with
  | nil => simp [pageBytes]
  | cons row rest ih =>
    have hrow := (h row mem_cons_self).json_length
    have hcipher : row.outgoing.ciphertext.length = base64EncodedLen row.ciphertext.length :=
      base64Encode_length _
    have hlen := base64EncodedLen_le row.ciphertext.length
    have hrest := ih (forall_mem_cons.mp h).2
    have hsum : pageBytes (row :: rest) = row.ciphertext.length+pageBytes rest := by
      simp [pageBytes]
    rw [map_cons, map_cons, sum_cons, length_cons, hsum]
    omega

theorem response_length {response : SyncResponse} {page : List EnvelopeRow}
    (hpage : response.envelopes = page.map EnvelopeRow.outgoing)
    (hbounded : ∀ r ∈ page, r.outgoing.Bounded) (hcount : page.length ≤ 256)
    (hbytes : pageBytes page ≤ maxDownloadBytes)
    (haccepted : response.acceptedSequences = [] ∨ ∃ n ≤ maxInt64, response.acceptedSequences = [n])
    (hrejected : response.rejectedSequences = [] ∨ ∃ n ≤ maxInt64, ∃ code : String,
      (lit code).length ≤ 32 ∧ response.rejectedSequences = [⟨n, code⟩])
    (hcursor : 0 ≤ response.nextCursor ∧ response.nextCursor ≤ maxInt64)
    (hepoch : 0 ≤ response.currentKeyEpoch ∧ response.currentKeyEpoch ≤ maxInt64) :
    (response.json ++ lit "\n").length ≤ maxResponseBytes := by
  have hnames : (lit "accepted_sequences").length = 18 ∧ (lit "current_key_epoch").length = 17 ∧
      (lit "envelopes").length = 9 ∧ (lit "has_more").length = 8 ∧ (lit "next_cursor").length = 11 ∧
      (lit "rejected_sequences").length = 18 ∧ (lit "\n").length = 1 ∧ (lit "true").length = 4 ∧
      (lit "false").length = 5 ∧ (lit "device_seq").length = 10 ∧ (lit "code").length = 4 := by
    decide
  obtain ⟨n1, n2, n3, n4, n5, n6, n7, n8, n9, n10, n11⟩ := hnames
  have ha : (jsonArray (response.acceptedSequences.map jsonNumber)).length ≤ 22 := by
    refine (jsonArray_length _).trans ?_
    rcases haccepted with he | ⟨n, hn, he⟩
    · simp [he]
    · have := jsonNumber_length hn
      simp only [he, map_cons, map_nil, sum_cons, sum_nil, length_cons,
        length_nil]
      omega
  have hr : (jsonArray (response.rejectedSequences.map SyncRejection.json)).length ≤ 82 := by
    refine (jsonArray_length _).trans ?_
    rcases hrejected with he | ⟨n, hn, code, hcode, he⟩
    · simp [he]
    · have hnumber := jsonNumber_length hn
      have hobject := jsonObject_length [jsonField "device_seq" (jsonNumber n),
        jsonField "code" (jsonText (lit code))]
      simp only [he, map_cons, map_nil, sum_cons, sum_nil, length_cons,
        length_nil, SyncRejection.json, jsonField_length, jsonText_length, n10, n11]
        at hobject ⊢
      omega
  have he : 3*(jsonArray (response.envelopes.map WireEnvelope.json)).length ≤ 2494514 := by
    have hsum := page_json_length hbounded
    have harray := jsonArray_length ((page.map EnvelopeRow.outgoing).map WireEnvelope.json)
    have hlengths : ((page.map EnvelopeRow.outgoing).map WireEnvelope.json).map List.length =
        (page.map EnvelopeRow.outgoing).map (fun w => w.json.length) := map_map
    rw [hlengths, length_map, length_map] at harray
    rw [hpage]
    unfold maxDownloadBytes maxCiphertext at hbytes
    omega
  have hmore : (if response.hasMore then lit "true" else lit "false").length ≤ 5 := by
    split_ifs <;> omega
  have hc := jsonInteger_length hcursor.1 hcursor.2
  have hk := jsonInteger_length hepoch.1 hepoch.2
  rw [length_append, n7, SyncResponse.json]
  refine (Nat.add_le_add_right (jsonObject_length _) 1).trans ?_
  simp only [map_cons, map_nil, sum_cons, sum_nil, length_cons,
    length_nil, jsonField_length, n1, n2, n3, n4, n5, n6]
  unfold maxResponseBytes
  omega

theorem validateEnvelope_error_length {c : Crypto} {identity : DeviceIdentity} {wire : WireEnvelope}
    {e : String} (h : validateEnvelope c identity wire = .error e) : (lit e).length ≤ 32 := by
  have hcodes : ∀ code ∈ ["invalid_envelope_metadata", "invalid_envelope_object_id",
      "invalid_envelope_previous_hash", "invalid_envelope_nonce", "invalid_envelope_ciphertext",
      "invalid_envelope_signature"], (lit code).length ≤ 32 := by decide
  apply hcodes
  unfold validateEnvelope at h
  repeat' (first | split at h | (split_ifs at h))
  all_goals first | (obtain rfl := Except.error.inj h; decide) | cases h

theorem validateBatch_error_length {wires : List WireEnvelope} {e : String}
    (h : validateBatch c identity wires = .error e) : (lit e).length ≤ 32 := by
  induction wires with
  | nil => cases h
  | cons wire rest ih =>
    rw [validateBatch] at h
    cases hwire : validateEnvelope c identity wire with
    | error e' =>
      simp only [hwire, Except.error.injEq] at h
      exact h ▸ validateEnvelope_error_length hwire
    | ok decoded =>
      cases hrest : validateBatch c identity rest with
      | error e' =>
        simp only [hwire, hrest, Except.error.injEq] at h
        exact ih (h ▸ hrest)
      | ok more => simp [hwire, hrest] at h

theorem error_text_length {code : String} (h : (lit code).length ≤ 32) :
    (jsonObject [jsonField "error" (jsonText (lit code))] ++ lit "\n").length ≤ maxResponseBytes := by
  have hnames : (lit "error").length = 5 ∧ (lit "\n").length = 1 := by decide
  have hobject := jsonObject_length [jsonField "error" (jsonText (lit code))]
  simp only [map_cons, map_nil, sum_cons, sum_nil, length_cons,
    length_nil, jsonField_length, jsonText_length, hnames.1] at hobject
  rw [length_append, hnames.2]
  unfold maxResponseBytes
  omega

theorem currentKeyEpoch_bounds (account : Bytes) (hi : ℤ) (h0 : 0 ≤ hi)
    (h : ∀ k ∈ db.keyrings, k.epoch ≤ hi) :
    0 ≤ db.currentKeyEpoch account ∧ db.currentKeyEpoch account ≤ hi := by
  refine ⟨le_foldl_max _ _ 0 (.inl le_rfl), foldl_max_le _ _ h0 ?_⟩
  intro n hn
  obtain ⟨k, hk, rfl⟩ := mem_map.mp hn
  exact h k (mem_filter.mp hk).1

theorem sync_text_length {c : Crypto} (identity : DeviceIdentity) {input : SyncRequest}
    {db : RelayDB} (hordered : db.CursorsOrdered) (hverified : ∀ r ∈ db.envelopes, r.Verified c)
    (hlast : db.lastCursor < maxInt64) (hepochs : ∀ k ∈ db.keyrings, k.epoch ≤ maxInt64)
    (hlimit : input.limit = 256) (hone : input.envelopes.length ≤ 1) :
    ∃ text, (syncEnvelopes c identity input db).1.body.syncText = some text ∧
      text.length ≤ maxResponseBytes := by
  have hcodes : (lit "invalid_sync_batch").length ≤ 32 ∧ (lit "invalid_limit").length ≤ 32 ∧
      (lit "invalid_cursor").length ≤ 32 ∧ (lit "database_error").length ≤ 32 := by decide
  have hordered' := syncEnvelopes_ordered c identity input hordered
  have hverified' := syncEnvelopes_verified c identity input hverified
  unfold syncEnvelopes at hordered' hverified' ⊢
  simp only [hlimit, show ¬(256 : ℤ) = 0 by decide, if_false] at hordered' hverified' ⊢
  split_ifs at hordered' hverified' ⊢ with hbad hrange
  · exact ⟨_, rfl, error_text_length hcodes.1⟩
  · exact ⟨_, rfl, error_text_length hcodes.2.1⟩
  cases hbatch : validateBatch c identity input.envelopes with
  | error e => exact ⟨_, rfl, error_text_length (validateBatch_error_length c identity hbatch)⟩
  | ok decoded =>
    simp only [hbatch] at hordered' hverified' ⊢
    have hsmall := uploadBatch_small c identity db hone hbatch
    generalize uploadBatch identity db (splitBatch (sortBatch decoded)) = u at *
    split_ifs at hordered' hverified' ⊢ with hcursor
    · exact ⟨_, rfl, error_text_length hcodes.2.2.1⟩
    cases hcut : cutPage (256 : ℤ).toNat
        (((u.db.acknowledge identity input.ackCursor).above identity.accountID input.cursor).take
          ((256 : ℤ).toNat+1)) 0 0 with
    | none => exact ⟨_, rfl, error_text_length hcodes.2.2.2⟩
    | some cut =>
      obtain ⟨page, more⟩ := cut
      simp only [hcut] at hordered' hverified' ⊢
      push Not at hbad hcursor
      obtain ⟨hcount, hbytes, -⟩ := cutPage_spec _ _ page 0 0 more hcut (Nat.zero_le _)
        (Nat.zero_le _) (fun _ => rfl)
      rw [Nat.zero_add] at hcount hbytes
      have hmem : ∀ r ∈ page, r ∈ (u.db.acknowledge identity input.ackCursor).envelopes := by
        intro r hr
        have hinitial := (cutPage_initial _ _ _ _ _ hcut).trans ( take_prefix _ _)
        exact (mem_filter.mp (hinitial.subset hr)).1
      have hlast' : (u.db.acknowledge identity input.ackCursor).lastCursor ≤ maxInt64 := by
        have := hsmall.lastCursor
        show u.db.lastCursor ≤ maxInt64
        omega
      have hrows : ∀ r ∈ page, 1 ≤ r.cursor ∧ r.cursor ≤ maxInt64 := fun r hr =>
        ⟨(hordered'.bounds r (hmem r hr)).1, (hordered'.bounds r (hmem r hr)).2.trans hlast'⟩
      refine ⟨_, rfl, response_length rfl
        (fun r hr => (hverified' r (hmem r hr)).bounded (hrows r hr).2) hcount hbytes
        hsmall.accepted hsmall.rejected ?_ ?_⟩
      · show 0 ≤ nextCursor input.cursor page ∧ nextCursor input.cursor page ≤ maxInt64
        unfold nextCursor
        cases hget : page.getLast? with
        | none =>
          have hmax : u.db.accountMaxCursor identity.accountID ≤ u.db.lastCursor :=
            accountMaxCursor_le (u.db.acknowledge identity input.ackCursor) hordered'
          have hlast'' : u.db.lastCursor ≤ maxInt64 := hlast'
          exact ⟨hbad.1, by show input.cursor ≤ maxInt64; omega⟩
        | some row =>
          have := hrows row (mem_of_getLast? hget)
          exact ⟨by show 0 ≤ row.cursor; omega, this.2⟩
      · apply currentKeyEpoch_bounds _ _ _ (by decide)
        show ∀ k ∈ u.db.keyrings, k.epoch ≤ maxInt64
        rw [hsmall.keyrings]
        exact hepochs

/-- The limits of all stages fit together. A payload within the limit is sealed to whole
buckets and passes every stage up to the table; whatever `ToWire` accepts passes the stages
after it, and so do what the worker stages and what the relay accepts; and every reply to a
request of the worker is within what the client reads. -/
theorem size_limits_compose (c : Crypto) (hc : c.Laws) :
    (∀ (P : Type) (cbor : Cbor P) (epochKey : Bytes) (header : Header) (payload : P)
      (signingPrivate : Bytes) (source : RandomSource),
      validateHeader { header with version := protocolVersion, nonce := source.read 0 24 } = .ok () →
      epochKey.length = 32 → signingPrivate.length = 64 →
      (cbor.marshal payload).length ≤ maxEnvelopePayload →
      ∃ envelope wire,
        protocolSeal c cbor epochKey header payload signingPrivate source = .ok envelope ∧
        envelope.ciphertext.length = 512*(((cbor.marshal payload).length+4) ⌈/⌉ 512)+16 ∧
        envelope.toWire = .ok wire ∧ FitsUpload envelope wire) ∧
    (∀ envelope wire, envelope.toWire = .ok wire → FitsUpload envelope wire) ∧
    (∀ x session state event random upload,
      sealUpload x session state event random = .ok upload →
      ∃ envelope, FitsUpload envelope upload.wire) ∧
    (∀ identity wire e, validateEnvelope c identity wire = .ok e → ∀ cursor,
      (e.row identity cursor).Admissible ∧ (e.row identity cursor).Sized ∧
        validateEnvelopeBody e.ciphertext e.signature = .ok ()) ∧
    ∀ actions s, Runs.run (Relay.step c) .empty actions = some s → s.db.lastCursor < maxInt64 →
      (∀ k ∈ s.db.keyrings, k.epoch ≤ maxInt64) →
      ∀ identity state input, syncRequest state = .ok input →
        ∃ text, (syncEnvelopes c identity input s.db).1.body.syncText = some text ∧
          text.length ≤ maxResponseBytes := by
  refine ⟨?_, toWire_fits, sealUpload_fits, validateEnvelope_fits c hc, ?_⟩
  · intro P cbor epochKey header payload signingPrivate source hheader hkey hprivate hsize
    obtain ⟨envelope, hseal⟩ := (protocolSeal_ok_iff c cbor header payload
      source hheader hkey hprivate).mpr hsize
    obtain ⟨plain, hplain, -, hvalid, -, hciphertext, -⟩ :=
      protocolSeal_facts hseal
    have hbody := protocolSeal_body hc hseal
    have hwire := (toWire_ok_iff envelope _).mpr ⟨hvalid, hbody, rfl⟩
    refine ⟨envelope, _, hseal, ?_, hwire, toWire_fits envelope _ hwire⟩
    rw [hciphertext, hc.aeadSeal_length, paddedPayload_length hplain]
    rfl
  · intro actions s hs hlast hepochs identity state input hinput
    have hlinked : s.db.Linked := RelayDB.Linked.empty.run hs
    have hverified : ∀ r ∈ s.db.envelopes, r.Verified c :=
      verified_run c .empty (by simp [Relay.empty, RelayDB.empty]) hs
    have hshape : input.limit = 256 ∧ input.envelopes.length ≤ 1 := by
      unfold syncRequest at hinput
      split at hinput
      · rw [← Except.ok.inj hinput]
        exact ⟨rfl, Nat.zero_le _⟩
      · split_ifs at hinput
        rw [← Except.ok.inj hinput]
        exact ⟨rfl, le_rfl⟩
    exact sync_text_length identity hlinked.ordered hverified hlast hepochs hshape.1 hshape.2

/-- A payload of three bytes in one bucket, and the reply to a first request. -/
theorem size_limits_compose_sample :
    (∃ envelope wire,
      protocolSeal sampleCrypto ⟨id, some⟩ sampleKey ⟨1, List.replicate 16 1, List.replicate 16 2,
        1, List.replicate 16 3, 1, [], []⟩ [1, 2, 3] samplePrivate (fun _ => 0) = .ok envelope ∧
      envelope.ciphertext.length = 528 ∧ envelope.toWire = .ok wire ∧ FitsUpload envelope wire) ∧
    ∃ s : Relay, Runs.run (Relay.step sampleCrypto) .empty sampleSetup = some s ∧
      ∃ text, (syncEnvelopes sampleCrypto firstIdentity ⟨0, 0, 256, []⟩ s.db).1.body.syncText =
        some text ∧ text.length ≤ maxResponseBytes := by
  have h := size_limits_compose sampleCrypto sampleCrypto_laws
  constructor
  · obtain ⟨envelope, wire, hseal, hlen, hwire, hfits⟩ := h.1 Bytes ⟨id, some⟩ sampleKey
      ⟨1, List.replicate 16 1, List.replicate 16 2, 1, List.replicate 16 3, 1, [], []⟩ [1, 2, 3]
      samplePrivate (fun _ => 0) (by decide) (by decide) (by decide) (by decide)
    refine ⟨envelope, wire, hseal, ?_, hwire, hfits⟩
    rw [hlen, Nat.ceilDiv_eq_add_pred_div]
    rfl
  · apply Runs.exists_some (fun s => s.db.lastCursor < (maxInt64 : ℤ) ∧ s.db.keyrings = []) (by decide)
    rintro s hs ⟨hlast, hkeyrings⟩
    exact h.2.2.2.2 sampleSetup s hs hlast (by simp [hkeyrings]) firstIdentity
      ⟨firstDevice, 0, 1, [], none⟩ ⟨0, 0, 256, []⟩ rfl

end YunPin
