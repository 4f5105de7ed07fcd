import YunPin.NativeRecorder

/-! What the native recorder writes is read by the replay lab as the event that was recorded. -/
namespace YunPin
open ByteText JsonText List

namespace Recorder
open Replay

def stringMember (key s : Bytes) : Member := ⟨key, appendJsonString s, .string s⟩

def candidateMembers (candidate : ReplayCandidate) : List Member :=
  [stringMember (lit "text") candidate.text.view,
    .ofBool (lit "is_correction") candidate.isCorrection,
    .ofBool (lit "highlighted") candidate.highlighted]

def compositionMembers (composition : ReplayComposition) : List Member :=
  [stringMember (lit "raw_input") composition.rawInput.view,
    stringMember (lit "normalized_pinyin") composition.normalizedPinyin.view,
    .ofInt (lit "caret_byte") composition.caretByte.toNat,
    .ofBool (lit "exact_path_available") composition.exactPathAvailable,
    .ofSlice (lit "candidates") (some (composition.shown.map candidateMembers))]

def selectionMembers (event : ReplayNativeEvent) : List Member :=
  [.ofInt (lit "rank") event.selectionRank.toNat,
    stringMember (lit "text") event.selectionText.view]

def payloadMembers (event : ReplayNativeEvent) : List Member :=
  match event.type with
  | .select => [.ofObject (lit "selection") (selectionMembers event)]
  | .backspace => [.ofNat (lit "edit_count") event.editCount.toNat]
  | .delete => [.ofNat (lit "edit_count") event.editCount.toNat]
  | .commit => [stringMember (lit "final_text") event.finalText.view]
  | .composition => []
  | .abort => []

def eventMembers (event : ReplayNativeEvent) : List Member :=
  stringMember (lit "version") nativeEventVersionV1 ::
    .ofNat (lit "monotonic_us") event.monotonicUS.toNat ::
    .ofNat (lit "utc_unix_us") event.utcUnixUS.toNat ::
    stringMember (lit "type") (eventTypeName event.type) ::
    .ofObject (lit "composition") (compositionMembers event.composition) :: payloadMembers event

theorem appendBool_eq (b : Bool) : appendBool b = boolText b := by
  cases b <;> rfl

theorem intText_natCast (n : ℕ) : intText (n : ℤ) = decimal n := by
  rw [intText, if_neg (not_lt.mpr (Int.natCast_nonneg n)), Int.natAbs_natCast]

def keyText (key : Bytes) : Bytes := 0x22 :: (key ++ [0x22, 0x3A])

theorem memberText_eq {key text : Bytes} : memberText (key, text) = keyText key ++ text := by
  rw [memberText, keyText, cons_append, append_assoc]
  rfl

theorem memberTexts_cons (m : Member) (rest : List Member) : memberTexts (m :: rest) =
    0x7B :: (keyText m.key ++ (m.text ++
      (rest.flatMap (fun m => 0x2C :: (keyText m.key ++ m.text)) ++ [0x7D]))) := by
  have hjoin (m : Member) (rest : List Member) :
      commaJoin (((m :: rest).map (fun m => (m.key, m.text))).map memberText) =
        keyText m.key ++ (m.text ++ rest.flatMap (fun m => 0x2C :: (keyText m.key ++ m.text))) := by
    induction rest generalizing m with
    | nil =>
      rw [flatMap_nil, append_nil]
      exact memberText_eq
    | cons next rest ih =>
      have hnext := ih next
      rw [map_cons, map_cons, map_cons, map_cons, commaJoin_cons] at *
      rw [hnext, memberText_eq, flatMap_cons, append_assoc, cons_append,
        append_assoc]
  rw [memberTexts, objectText, hjoin, append_assoc, append_assoc]

theorem appendCandidate_eq (candidate : ReplayCandidate) :
    appendCandidate candidate = memberTexts (candidateMembers candidate) := by
  rw [appendCandidate, candidateMembers, memberTexts_cons, appendBool_eq, appendBool_eq]
  have htext : lit "\x7b\"text\":" = 0x7B :: keyText (lit "text") := by decide
  have hcorrection : lit ",\"is_correction\":" = 0x2C :: keyText (lit "is_correction") := by decide
  have hhighlighted : lit ",\"highlighted\":" = 0x2C :: keyText (lit "highlighted") := by decide
  have hend : lit "\x7d" = [0x7D] := by decide
  rw [htext, hcorrection, hhighlighted, hend]
  simp only [stringMember, Member.ofBool, flatMap_cons, flatMap_nil, append_nil,
    cons_append, append_assoc]

theorem appendCandidates_eq (index : ℕ) (candidates : List ReplayCandidate) :
    appendCandidates (index+1) candidates =
      candidates.flatMap (fun candidate => 0x2C :: memberTexts (candidateMembers candidate)) := by
  induction candidates generalizing index with
  | nil => rfl
  | cons candidate rest ih =>
    rw [appendCandidates, if_pos (Nat.succ_ne_zero index), ih, appendCandidate_eq,
      flatMap_cons]
    rfl

theorem commaJoin_flatMap (t : Bytes) (rest : List Bytes) :
    commaJoin (t :: rest) = t ++ rest.flatMap (fun u => 0x2C :: u) := by
  induction rest generalizing t with
  | nil =>
    rw [flatMap_nil, append_nil]
    rfl
  | cons u rest ih =>
    rw [commaJoin_cons, ih, flatMap_cons]
    rfl

theorem appendCandidates_array (candidates : List ReplayCandidate) :
    appendCandidates 0 candidates =
      commaJoin (candidates.map (fun candidate => memberTexts (candidateMembers candidate))) := by
  cases candidates with
  | nil => rfl
  | cons candidate rest =>
    rw [appendCandidates, if_neg (not_not.mpr rfl), appendCandidates_eq, appendCandidate_eq,
      map_cons, commaJoin_flatMap, flatMap_map]
    rfl

variable (composition : ReplayComposition) (event : ReplayNativeEvent)

theorem appendComposition_eq (composition : ReplayComposition) : appendComposition composition =
    keyText (lit "composition") ++ memberTexts (compositionMembers composition) := by
  rw [appendComposition, compositionMembers, memberTexts_cons, appendBool_eq,
    appendCandidates_array]
  have hcomposition : lit "\"composition\":\x7b" = keyText (lit "composition") ++ [0x7B] := by decide
  have hraw : lit "\"raw_input\":" = keyText (lit "raw_input") := by decide
  have hpinyin : lit ",\"normalized_pinyin\":" = 0x2C :: keyText (lit "normalized_pinyin") := by
    decide
  have hcaret : lit ",\"caret_byte\":" = 0x2C :: keyText (lit "caret_byte") := by decide
  have hexact : lit ",\"exact_path_available\":" = 0x2C :: keyText (lit "exact_path_available") := by
    decide
  have hcandidates : lit ",\"candidates\":[" = 0x2C :: (keyText (lit "candidates") ++ [0x5B]) := by
    decide
  have hend : lit "]\x7d" = [0x5D, 0x7D] := by decide
  rw [hcomposition, hraw, hpinyin, hcaret, hexact, hcandidates, hend]
  simp only [stringMember, Member.ofBool, Member.ofInt, Member.ofSlice, intText_natCast, arrayText,
    map_map, Function.comp_def, flatMap_cons, flatMap_nil, append_nil,
    cons_append, nil_append, append_assoc]

theorem payload_eq : appendSelection event ++ (appendEditCount event ++ appendFinalText event) =
      (payloadMembers event).flatMap (fun m => 0x2C :: (keyText m.key ++ m.text)) := by
  have hselection : lit ",\"selection\":\x7b\"rank\":" =
      0x2C :: (keyText (lit "selection") ++ 0x7B :: keyText (lit "rank")) := by decide
  have htext : lit ",\"text\":" = 0x2C :: keyText (lit "text") := by decide
  have hedit : lit ",\"edit_count\":" = 0x2C :: keyText (lit "edit_count") := by decide
  have hfinal : lit ",\"final_text\":" = 0x2C :: keyText (lit "final_text") := by decide
  have hend : lit "\x7d" = [0x7D] := by decide
  rw [appendSelection, appendEditCount, appendFinalText, payloadMembers, hselection, htext, hedit,
    hfinal, hend]
  cases event.type with
  | composition => rfl
  | abort => rfl
  | commit => simp [stringMember]
  | backspace | delete => simp [Member.ofNat]
  | select =>
    simp [Member.ofObject, selectionMembers, memberTexts_cons, Member.ofInt, stringMember,
      intText_natCast]

theorem appendJsonString_name (type : ReplayEventType) :
    appendJsonString (eventTypeName type) = 0x22 :: (eventTypeName type ++ [0x22]) := by
  cases type <;> decide

theorem serializeEvent_eq : serializeEvent event = memberTexts (eventMembers event) := by
  have hpayload : appendSelection event ++ (appendEditCount event ++
      (appendFinalText event ++ lit "\x7d")) =
      (payloadMembers event).flatMap (fun m => 0x2C :: (keyText m.key ++ m.text)) ++ [0x7D] := by
    have hend : lit "\x7d" = [0x7D] := by decide
    rw [← payload_eq, hend, append_assoc, append_assoc]
  have hversion : lit "\x7b\"version\":\"yunpin.replay.native.v1\"" =
      0x7B :: (keyText (lit "version") ++ appendJsonString nativeEventVersionV1) := by decide
  have hmono : lit ",\"monotonic_us\":" = 0x2C :: keyText (lit "monotonic_us") := by decide
  have hutc : lit ",\"utc_unix_us\":" = 0x2C :: keyText (lit "utc_unix_us") := by decide
  have htype : lit ",\"type\":\"" = 0x2C :: (keyText (lit "type") ++ [0x22]) := by decide
  have hcomma : lit "\"," = [0x22, 0x2C] := by decide
  rw [serializeEvent, eventMembers, memberTexts_cons, appendComposition_eq, hpayload, hversion,
    hmono, hutc, htype, hcomma]
  simp only [stringMember, appendJsonString_name, Member.ofNat, Member.ofObject, flatMap_cons,
    cons_append, nil_append, append_assoc]

def typeOf : ReplayEventType → EventType
  | .composition => .composition
  | .select => .select
  | .commit => .commit
  | .backspace => .backspace
  | .delete => .delete
  | .abort => .abort

def candidateOf (candidate : ReplayCandidate) : CandidateV1 :=
  ⟨candidate.text.view, candidate.isCorrection, candidate.highlighted⟩

def compositionOf (composition : ReplayComposition) : CompositionV1 :=
  { rawInput := composition.rawInput.view
    normalizedPinyin := composition.normalizedPinyin.view
    caretByte := composition.caretByte.toNat
    exactPathAvailable := composition.exactPathAvailable
    candidates := some (composition.shown.map candidateOf) }

/-- The frame that the text of a recorded event is read as. -/
def frameOf (event : ReplayNativeEvent) : NativeFrameV1 :=
  { version := nativeEventVersionV1
    monotonicUS := event.monotonicUS
    utcUnixUS := event.utcUnixUS
    type := typeOf event.type
    composition := some (compositionOf event.composition)
    selection := if event.type = .select then
      some ⟨event.selectionRank.toNat, event.selectionText.view⟩ else none
    editCount := if event.type = .backspace ∨ event.type = .delete then event.editCount else 0
    dropCount := 0
    finalText := if event.type = .commit then event.finalText.view else [] }

theorem values_composition : memberValues (compositionMembers composition) =
      memberValues (compositionOf composition).members := by
  have hcandidates : (composition.shown.map candidateMembers).map memberValues =
      ((composition.shown.map candidateOf).map CandidateV1.members).map memberValues := by
    rw [map_map, map_map, map_map]
    rfl
  rw [compositionMembers, CompositionV1.members, memberValues, memberValues]
  simp only [map_cons, map_nil, stringMember, Member.ofString, Member.ofInt,
    Member.ofBool, Member.ofSlice, compositionOf, Option.map_some, hcandidates]

theorem isValidText_ok {capacity : ℕ} {text : ReplayText capacity} {allowEmpty : Bool}
    (h : isValidText text allowEmpty = true) :
    TextOk text.view capacity allowEmpty ∧ text.view.length = text.size.toNat := by
  rw [isValidText, decide_eq_true_eq, not_or, not_and, not_lt, isValidUtf8_iff] at h
  obtain ⟨⟨hsize, hempty⟩, hvalid, hnul⟩ := h
  have hlength : text.view.length = text.size.toNat := by
    rw [ReplayText.view, length_take, text.length_eq]
    omega
  refine ⟨⟨hvalid, fun hallow hnil => ?_, by omega, hnul⟩, hlength⟩
  rw [hnil, length_nil] at hlength
  exact hempty hallow (UInt16.toNat_inj.mp hlength.symm)

structure ReplayComposition.Valid (composition : ReplayComposition) : Prop where
  count : composition.candidateCount.toNat ≤ kReplayCandidateLimit
  caret : composition.caretByte.toNat ≤ composition.rawInput.size.toNat
  raw : isValidText composition.rawInput true = true
  pinyin : isValidText composition.normalizedPinyin true = true
  whole : composition.caretByte ≠ 0 → composition.caretByte ≠ composition.rawInput.size →
    isContinuation (composition.rawInput.bytes.getD composition.caretByte.toNat 0) = false
  texts : ∀ candidate ∈ composition.shown, isValidText candidate.text false = true
  single : composition.shown.countP (fun candidate => candidate.highlighted) ≤ 1

theorem isValidComposition_spec (h : isValidComposition composition = true) :
    composition.Valid := by
  rw [isValidComposition, decide_eq_true_eq] at h
  simp only [not_or, not_and, not_lt, Bool.not_eq_false, Bool.not_eq_true] at h
  obtain ⟨⟨hcount, hcaret, hraw, hpinyin, hwhole⟩, htexts, hsingle⟩ := h
  exact ⟨hcount, UInt16.le_iff_toNat_le.mp (UInt16.not_lt.mp hcaret), hraw, hpinyin, hwhole, htexts,
    hsingle⟩

theorem shown_length (h : composition.candidateCount.toNat ≤ kReplayCandidateLimit) :
    composition.shown.length = composition.candidateCount.toNat := by
  rw [ReplayComposition.shown, length_take, composition.candidates_length]
  exact min_eq_left h

theorem compositionOf_valid (h : composition.Valid) : (compositionOf composition).Valid := by
  obtain ⟨hraw, hrawLength⟩ := isValidText_ok h.raw
  have hcaret := h.caret
  refine ⟨hraw, (isValidText_ok h.pinyin).1, ?_, ?_, ?_, ?_, ?_⟩
  · change (0 : ℤ) ≤ composition.caretByte.toNat ∧
      (composition.caretByte.toNat : ℤ) ≤ composition.rawInput.view.length
    rw [hrawLength]
    omega
  · rintro ⟨hpos, hend, hcont⟩
    change (0 : ℤ) < composition.caretByte.toNat at hpos
    change (composition.caretByte.toNat : ℤ) ≠ composition.rawInput.view.length at hend
    change isCont (composition.rawInput.view.getD composition.caretByte.toNat 0) = true at hcont
    rw [hrawLength] at hend
    have hinside : composition.caretByte.toNat < composition.rawInput.size.toNat := by omega
    have hbyte : composition.rawInput.view.getD composition.caretByte.toNat 0 =
        composition.rawInput.bytes.getD composition.caretByte.toNat 0 := by
      rw [ReplayText.view, getD_eq_getElem?_getD, getElem?_take_of_lt hinside,
        getD_eq_getElem?_getD]
    have hwhole := h.whole (fun hzero => by rw [hzero] at hpos; exact absurd hpos (by decide))
      (fun hsize => by rw [hsize] at hinside; exact lt_irrefl _ hinside)
    rw [isContinuation_eq, ← hbyte, hcont] at hwhole
    cases hwhole
  · change (composition.shown.map candidateOf).length ≤ maxCandidates
    rw [length_map, shown_length composition h.count]
    exact h.count
  · intro candidate hcandidate
    obtain ⟨recorded, hmem, rfl⟩ := mem_map.mp hcandidate
    exact (isValidText_ok (h.texts recorded hmem)).1
  · change (composition.shown.map candidateOf).countP _ ≤ 1
    rw [countP_map]
    exact h.single

theorem store_composition_recorded (h : composition.Valid) :
    Target.struct compositionFields {} (memberValues (compositionMembers composition)) =
      some (compositionOf composition) := by
  rw [values_composition]
  exact store_composition (compositionOf_valid composition h)

theorem store_selection_recorded :
    Target.struct selectionFields {} (memberValues (selectionMembers event)) =
      some ⟨event.selectionRank.toNat, event.selectionText.view⟩ := by
  have hrank := event.selectionRank.toNat_lt
  exact store_selection ⟨event.selectionRank.toNat, event.selectionText.view⟩
    (by change -2^63 ≤ (event.selectionRank.toNat : ℤ); omega)
    (by change (event.selectionRank.toNat : ℤ) < 2^63; omega)

theorem ofText_name (type : ReplayEventType) :
    EventType.ofText (eventTypeName type) = typeOf type := by
  cases type <;> rfl

theorem store_frame (h : event.composition.Valid) :
    storedMembers nativeFields {} (eventMembers event) = some (frameOf event) := by
  have hcommon : storedMembers nativeFields {} (eventMembers event) =
      storedMembers nativeFields
        { version := nativeEventVersionV1
          monotonicUS := event.monotonicUS
          utcUnixUS := event.utcUnixUS
          type := .ofText (eventTypeName event.type)
          composition := some (compositionOf event.composition) } (payloadMembers event) := by
    rw [eventMembers, storedMembers_cons rfl rfl,
      storedMembers_cons rfl (store_field _ _ (uint64_decimal)),
      storedMembers_cons rfl (store_field _ _ (uint64_decimal)),
      storedMembers_cons rfl rfl,
      storedMembers_cons rfl (store_field _ _
        (store_pointer (store_composition_recorded event.composition h)))]
  rw [hcommon, ofText_name, payloadMembers, frameOf]
  cases event.type with
  | composition => rfl
  | abort => rfl
  | commit => rfl
  | backspace | delete =>
    rw [storedMembers_cons rfl (store_field _ _ (uint32_decimal))]
    rfl
  | select =>
    rw [storedMembers_cons rfl (store_field _ _ (store_pointer (store_selection_recorded event)))]
    rfl

theorem written_stringMember {key s : Bytes} (hkey : PlainKey key) (hs : validUTF8 s = true) :
    (stringMember key s).Written := ⟨hkey, denotes_appendJsonString s hs⟩

theorem written_candidateMembers {candidate : ReplayCandidate}
    (h : isValidText candidate.text false = true) :
    ∀ m ∈ candidateMembers candidate, m.Written := by
  rw [candidateMembers, forall_mem_cons, forall_mem_cons, forall_mem_singleton]
  exact ⟨written_stringMember rfl (isValidText_ok h).1.utf8, Member.written_ofBool _ rfl,
    Member.written_ofBool _ rfl⟩

theorem written_compositionMembers (h : composition.Valid) :
    ∀ m ∈ compositionMembers composition, m.Written := by
  rw [compositionMembers, forall_mem_cons, forall_mem_cons, forall_mem_cons,
    forall_mem_cons, forall_mem_singleton]
  refine ⟨written_stringMember rfl (isValidText_ok h.raw).1.utf8,
    written_stringMember rfl (isValidText_ok h.pinyin).1.utf8,
    Member.written_ofInt _ rfl, Member.written_ofBool _ rfl,
    Member.written_ofSlice _ rfl ?_⟩
  rintro _ ⟨rfl⟩ members hmembers
  obtain ⟨candidate, hcandidate, rfl⟩ := mem_map.mp hmembers
  exact written_candidateMembers (h.texts candidate hcandidate)

structure ReplayNativeEvent.Valid (event : ReplayNativeEvent) : Prop where
  utc : event.utcUnixUS ≠ 0
  composition : event.composition.Valid
  payload : isValidPayload event = true

theorem isValidEvent_spec (h : isValidEvent event = true) : event.Valid := by
  rw [isValidEvent, decide_eq_true_eq] at h
  exact ⟨h.1, isValidComposition_spec _ h.2.1, h.2.2⟩

theorem written_payloadMembers (h : event.Valid) : ∀ m ∈ payloadMembers event, m.Written := by
  have hpayload := h.payload
  rw [isValidPayload] at hpayload
  rw [payloadMembers]
  cases htype : event.type with
  | composition | abort => exact fun m hm => absurd hm not_mem_nil
  | backspace | delete => exact forall_mem_singleton.mpr (Member.written_ofNat _ rfl)
  | commit =>
    rw [htype] at hpayload
    exact forall_mem_singleton.mpr
      (written_stringMember rfl (isValidText_ok hpayload).1.utf8)
  | select =>
    rw [htype] at hpayload
    dsimp only at hpayload
    rw [decide_eq_true_eq] at hpayload
    refine forall_mem_singleton.mpr (Member.written_ofObject _ _ rfl ?_)
    rw [selectionMembers, forall_mem_cons, forall_mem_singleton]
    exact ⟨Member.written_ofInt _ rfl,
      written_stringMember rfl (isValidText_ok hpayload.2.2.1).1.utf8⟩

theorem denotes_serializeEvent (h : event.Valid) :
    Denotes (serializeEvent event) (memberValues (eventMembers event)) := by
  have hname : validUTF8 (eventTypeName event.type) = true := by
    cases event.type <;> decide
  rw [serializeEvent_eq]
  apply denotes_members
  rw [eventMembers, forall_mem_cons, forall_mem_cons, forall_mem_cons,
    forall_mem_cons, forall_mem_cons]
  exact ⟨written_stringMember rfl (by decide), Member.written_ofNat _ rfl,
    Member.written_ofNat _ rfl, written_stringMember rfl hname,
    Member.written_ofObject _ _ rfl (written_compositionMembers _ h.composition),
    written_payloadMembers event h⟩

theorem selection_matches {event : ReplayNativeEvent} (h : event.Valid)
    (hrank : event.selectionRank ≠ 0)
    (hcount : event.selectionRank.toNat ≤ event.composition.candidateCount.toNat)
    (htext : event.selectionText.view =
      (event.composition.candidates.getD (event.selectionRank.toNat-1) default).text.view) :
    SelectionV1.inRange ⟨event.selectionRank.toNat, event.selectionText.view⟩
        (compositionOf event.composition) = true ∧
      SelectionV1.matchesRank ⟨event.selectionRank.toNat, event.selectionText.view⟩
        (compositionOf event.composition) = true := by
  have hpos : event.selectionRank.toNat ≠ 0 :=
    fun hzero => hrank (UInt8.toNat_inj.mp hzero)
  have hlength := shown_length event.composition h.composition.count
  have hshown : (compositionOf event.composition).shown = event.composition.shown.map candidateOf :=
    rfl
  have hindex : ((event.selectionRank.toNat : ℤ)-1).toNat = event.selectionRank.toNat-1 := by omega
  have hinside : event.selectionRank.toNat-1 < event.composition.shown.length := by omega
  have hlong : event.selectionRank.toNat-1 < event.composition.candidates.length := by
    have hcandidates := event.composition.candidates_length
    have hlimit := h.composition.count
    omega
  rw [SelectionV1.inRange, SelectionV1.matchesRank, decide_eq_true_eq, decide_eq_true_eq, hshown]
  dsimp only
  rw [length_map, hlength, hindex, htext, getD_eq_getElem _ _ hlong,
    getD_eq_getElem _ _ (by rw [length_map]; exact hinside), getElem_map]
  refine ⟨by omega, ?_⟩
  simp only [ReplayComposition.shown, getElem_take, candidateOf]

theorem frameOf_selection (h : event.Valid) :
    ∀ s ∈ (frameOf event).selection, s.inRange (compositionOf event.composition) = true ∧
      s.matchesRank (compositionOf event.composition) = true := by
  intro s hs
  have hpayload := h.payload
  rw [frameOf] at hs
  dsimp only at hs
  split_ifs at hs with htype
  · cases hs
    rw [isValidPayload, htype] at hpayload
    dsimp only at hpayload
    rw [decide_eq_true_eq] at hpayload
    obtain ⟨hrank, hcount, -, htext⟩ := hpayload
    exact selection_matches h hrank hcount htext
  · cases hs

theorem frameOf_edit (htype : event.type = .backspace ∨ event.type = .delete)
    (hpos : event.editCount ≠ 0) (hle : event.editCount.toNat ≤ 1024) :
    (frameOf event).validateEdit = .ok () := by
  have hselect : event.type ≠ .select := by
    rcases htype with h | h <;> rw [h] <;> decide
  have hcommit : event.type ≠ .commit := by
    rcases htype with h | h <;> rw [h] <;> decide
  rw [NativeFrameV1.validateEdit, reject_ok_iff, frameOf]
  dsimp only
  rw [if_neg hselect, if_pos htype, if_neg hcommit]
  rintro (h | h | h | h | h | h)
  · cases h
  · exact h rfl
  · exact hpos h
  · exact absurd hle (not_le.mpr h)
  · exact h rfl
  · exact h rfl

theorem frameOf_payload (h : event.Valid) : (frameOf event).validateType = .ok () := by
  have hpayload := h.payload
  rw [isValidPayload] at hpayload
  rw [NativeFrameV1.validateType, frameOf]
  cases htype : event.type with
  | composition => rfl
  | abort => rfl
  | select => rfl
  | commit =>
    rw [htype] at hpayload
    have htext := (isValidText_ok hpayload).1
    exact (bind_ok_iff _).mpr ⟨rfl, (validateText_ok_iff).mpr htext⟩
  | backspace =>
    rw [htype] at hpayload
    dsimp only at hpayload
    rw [decide_eq_true_eq] at hpayload
    have hedit := frameOf_edit event (.inl htype) hpayload.1 hpayload.2
    rw [frameOf, htype] at hedit
    exact hedit
  | delete =>
    rw [htype] at hpayload
    dsimp only at hpayload
    rw [decide_eq_true_eq] at hpayload
    have hedit := frameOf_edit event (.inr htype) hpayload.1 hpayload.2
    rw [frameOf, htype] at hedit
    exact hedit

theorem frameOf_valid (h : event.Valid) : (frameOf event).Valid := by
  refine ⟨rfl, h.utc, ?_, ?_, frameOf_payload event h⟩
  · rintro _ ⟨rfl⟩
    exact compositionOf_valid _ h.composition
  · exact fun s hs => ⟨_, rfl, frameOf_selection event h s hs⟩

/-- Every event that the ring takes is read back from the text that is written for it, unless the
text is too long. -/
theorem recorder_output_readable (producer : ReplayNativeProducer) (event : ReplayNativeEvent)
    (haccepted : (producer.tryPush event).2 = true)
    (hsize : (serializeEvent event).length ≤ 8192) :
    decodeNativeFrameV1 (serializeEvent event) = .ok (frameOf event) := by
  have hvalid := isValidEvent_spec event (tryPush_valid haccepted)
  have hdenotes := denotes_serializeEvent event hvalid
  have hread : unmarshal {} nativeFields (serializeEvent event) = some (frameOf event) := by
    rw [unmarshal, decodeOne_denotes _ hdenotes]
    exact store_frame event hvalid.composition
  have hinside : ¬(serializeEvent event = [] ∨ (serializeEvent event).length > maxEventBytes) := by
    rw [not_or, not_lt]
    exact ⟨hdenotes.nonempty, hsize⟩
  rw [decodeNativeFrameV1, if_neg hinside, hread]
  dsimp only
  rw [(NativeFrameV1.validate_ok_iff _).mpr (frameOf_valid event hvalid)]
  rfl

def textOf (capacity : ℕ) (bytes : Bytes) (h : bytes.length ≤ capacity) : ReplayText capacity :=
  ⟨bytes ++ List.replicate (capacity+1-bytes.length) 0, UInt16.ofNat bytes.length, by
    rw [length_append, length_replicate]
    omega⟩

def sampleEvent : ReplayNativeEvent :=
  { type := .commit
    monotonicUS := 5
    utcUnixUS := 7
    composition := default
    selectionRank := 0
    selectionText := default
    editCount := 0
    finalText := textOf 2048 [0x22, 0x0A, 0x1F, 0xE4, 0xBD, 0xA0] (by decide) }

theorem recorder_output_sample :
    decodeNativeFrameV1 (serializeEvent sampleEvent) = .ok (frameOf sampleEvent) :=
  recorder_output_readable { enabled := true } sampleEvent (by decide +kernel) (by decide +kernel)

end Recorder
end YunPin
