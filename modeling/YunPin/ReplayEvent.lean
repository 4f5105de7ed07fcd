import YunPin.GoJson
import YunPin.CivilTime

/-! The interchange record of the replay lab: its checks, and its JSON text in both directions. -/
namespace YunPin
open ByteText JsonText

namespace Replay
open CivilTime (isCanonicalUTC)

def eventVersionV1 : Bytes := lit "yunpin.replay.event.v1"
def maxEventBytes : ℕ := 8*1024
def maxCandidates : ℕ := 8
def maxEpisodes : ℕ := 1000000
def maxInputBytes : ℕ := 512
def maxPinyinBytes : ℕ := 512
def maxCandidateBytes : ℕ := 256
def maxCommitBytes : ℕ := 2048
def maxEditCount : ℕ := 1024
def maxDropCount : ℕ := 2^40

inductive EventType where
  | composition | select | commit | backspace | delete | abort | pause | resume | dropCount
  | other (name : Bytes)
  deriving DecidableEq, Repr

def EventType.text : EventType → Bytes
  | .composition => lit "composition_snapshot"
  | .select => lit "select"
  | .commit => lit "commit"
  | .backspace => lit "backspace"
  | .delete => lit "delete"
  | .abort => lit "abort"
  | .pause => lit "pause"
  | .resume => lit "resume"
  | .dropCount => lit "drop_count"
  | .other name => name

def EventType.known : List EventType :=
  [.composition, .select, .commit, .backspace, .delete, .abort, .pause, .resume, .dropCount]

def EventType.ofText (name : Bytes) : EventType :=
  (EventType.known.find? (fun type => type.text = name)).getD (.other name)

structure CandidateV1 where
  text : Bytes := []
  isCorrection : Bool := false
  highlighted : Bool := false
  deriving DecidableEq, Repr

structure CompositionV1 where
  rawInput : Bytes := []
  normalizedPinyin : Bytes := []
  caretByte : ℤ := 0
  exactPathAvailable : Bool := false
  candidates : Option (List CandidateV1) := none
  deriving DecidableEq, Repr

def CompositionV1.shown (composition : CompositionV1) : List CandidateV1 :=
  composition.candidates.getD []

structure SelectionV1 where
  rank : ℤ := 0
  text : Bytes := []
  deriving DecidableEq, Repr

structure CommitV1 where
  text : Bytes := []
  source : Bytes := []
  deriving DecidableEq, Repr

structure FinalTextV1 where
  text : Bytes := []
  scope : Bytes := []
  confidence : Bytes := []
  deriving DecidableEq, Repr

structure EventV1 where
  version : Bytes := []
  sessionID : Bytes := []
  episodeID : Bytes := []
  seq : UInt64 := 0
  monotonicUS : UInt64 := 0
  utc : Bytes := []
  type : EventType := .other []
  composition : Option CompositionV1 := none
  selection : Option SelectionV1 := none
  commit : Option CommitV1 := none
  editCount : UInt32 := 0
  dropCount : UInt64 := 0
  finalText : Option FinalTextV1 := none
  deriving DecidableEq, Repr

def CandidateV1.members (candidate : CandidateV1) : List Member :=
  [.ofString (lit "text") candidate.text, .ofBool (lit "is_correction") candidate.isCorrection,
    .ofBool (lit "highlighted") candidate.highlighted]

def CompositionV1.members (composition : CompositionV1) : List Member :=
  [.ofString (lit "raw_input") composition.rawInput,
    .ofString (lit "normalized_pinyin") composition.normalizedPinyin,
    .ofInt (lit "caret_byte") composition.caretByte,
    .ofBool (lit "exact_path_available") composition.exactPathAvailable,
    .ofSlice (lit "candidates") (composition.candidates.map (List.map CandidateV1.members))]

def SelectionV1.members (selection : SelectionV1) : List Member :=
  [.ofInt (lit "rank") selection.rank, .ofString (lit "text") selection.text]

def CommitV1.members (commit : CommitV1) : List Member :=
  [.ofString (lit "text") commit.text, .ofString (lit "source") commit.source]

def FinalTextV1.members (final : FinalTextV1) : List Member :=
  [.ofString (lit "text") final.text, .ofString (lit "scope") final.scope,
    .ofString (lit "confidence") final.confidence]

def optionMember {α : Type} (key : Bytes) (members : α → List Member) (value : Option α) :
    List Member :=
  (value.map (fun a => Member.ofObject key (members a))).toList

def counterMember (key : Bytes) (n : ℕ) : List Member := if n = 0 then [] else [.ofNat key n]

/-- The members that every event has. The others are left out when they are empty. -/
def EventV1.required (event : EventV1) : List Member :=
  [.ofString (lit "version") event.version, .ofString (lit "session_id") event.sessionID,
    .ofString (lit "episode_id") event.episodeID, .ofNat (lit "seq") event.seq.toNat,
    .ofNat (lit "monotonic_us") event.monotonicUS.toNat, .ofString (lit "utc") event.utc,
    .ofString (lit "type") event.type.text]

def EventV1.members (event : EventV1) : List Member :=
  event.required ++ (optionMember (lit "composition") CompositionV1.members event.composition ++
    (optionMember (lit "selection") SelectionV1.members event.selection ++
      (optionMember (lit "commit") CommitV1.members event.commit ++
        (counterMember (lit "edit_count") event.editCount.toNat ++
          (counterMember (lit "drop_count") event.dropCount.toNat ++
            optionMember (lit "final_text") FinalTextV1.members event.finalText)))))

def EventV1.marshal (event : EventV1) : Bytes := memberTexts event.members

def quoted (value : Bytes) : String := "\"" ++ asciiText value ++ "\""

def reject (failed : Prop) [Decidable failed] (message : String) : Except String Unit :=
  if failed then .error message else .ok ()

def checkPointer {α : Type} (check : α → Except String Unit) : Option α → Except String Unit
  | none => .ok ()
  | some a => check a

def validateText (name : String) (value : Bytes) (maxBytes : ℕ) (allowEmpty : Bool) :
    Except String Unit := do
  reject (validUTF8 value = false) (name ++ " is not valid UTF-8")
  reject (allowEmpty = false ∧ value = []) (name ++ " must not be empty")
  reject (value.length > maxBytes) (name ++ " is " ++ toString value.length ++
    " bytes; maximum is " ++ toString maxBytes)
  reject (0 ∈ value) (name ++ " contains NUL")

def validID (value : Bytes) : Bool :=
  value.length = 32 ∧ value.all (fun c => (0x30 ≤ c ∧ c ≤ 0x39) ∨ (0x61 ≤ c ∧ c ≤ 0x66))

def validateCandidates : ℕ → List CandidateV1 → Except String Unit
  | _, [] => .ok ()
  | index, candidate :: rest => do
    validateText ("candidate[" ++ toString index ++ "].text") candidate.text maxCandidateBytes false
    validateCandidates (index+1) rest

def CompositionV1.validate (composition : CompositionV1) : Except String Unit := do
  validateText "raw_input" composition.rawInput maxInputBytes true
  validateText "normalized_pinyin" composition.normalizedPinyin maxPinyinBytes true
  reject (composition.caretByte < 0 ∨ composition.caretByte > composition.rawInput.length)
    "caret_byte is outside raw_input"
  reject (composition.caretByte > 0 ∧ composition.caretByte ≠ composition.rawInput.length ∧
      isCont (composition.rawInput.getD composition.caretByte.toNat 0))
    "caret_byte splits a UTF-8 code point"
  reject (composition.shown.length > maxCandidates) ("candidate count " ++
    toString composition.shown.length ++ " exceeds maximum " ++ toString maxCandidates)
  validateCandidates 0 composition.shown
  reject (composition.shown.countP (fun candidate => candidate.highlighted) > 1)
    "at most one candidate may be highlighted"

def FinalTextV1.validate (final : FinalTextV1) : Except String Unit := do
  validateText "final_text.text" final.text maxCommitBytes false
  reject (final.scope ∉ [lit "composition", lit "clause", lit "episode"])
    ("unsupported final_text scope " ++ quoted final.scope)
  reject (final.confidence ∉ [lit "observed", lit "user_confirmed", lit "inferred"])
    ("unsupported final_text confidence " ++ quoted final.confidence)

def CommitV1.validate (commit : CommitV1) : Except String Unit := do
  validateText "commit text" commit.text maxCommitBytes false
  reject (commit.source ∉ [lit "candidate", lit "raw", lit "prediction", lit "unknown"])
    ("unsupported commit source " ++ quoted commit.source)

def SelectionV1.inRange (selection : SelectionV1) (composition : CompositionV1) : Bool :=
  1 ≤ selection.rank ∧ selection.rank ≤ composition.shown.length

def SelectionV1.matchesRank (selection : SelectionV1) (composition : CompositionV1) : Bool :=
  selection.text = (composition.shown.getD (selection.rank-1).toNat {}).text

def EventV1.validateSelection (event : EventV1) (selection : SelectionV1) : Except String Unit :=
  match event.composition with
  | none => .error "selection requires a composition snapshot"
  | some composition => do
    reject (selection.inRange composition = false)
      "selection rank is outside the candidate snapshot"
    reject (selection.matchesRank composition = false)
      "selection text does not match its candidate rank"

def EventV1.unexpected (event : EventV1)
    (allowComposition allowSelection allowCommit allowFinal : Bool) : Except String Unit :=
  reject ((allowComposition = false ∧ event.composition ≠ none) ∨
      (allowSelection = false ∧ event.selection ≠ none) ∨
      (allowCommit = false ∧ event.commit ≠ none) ∨ (allowFinal = false ∧ event.finalText ≠ none))
    ("event type " ++ quoted event.type.text ++ " contains an unsupported payload")

def EventV1.validateEdit (event : EventV1) : Except String Unit := do
  reject (event.editCount = 0 ∨ event.editCount.toNat > maxEditCount ∨ event.dropCount ≠ 0)
    (asciiText event.type.text ++ " requires edit_count between 1 and " ++ toString maxEditCount)
  event.unexpected true false false false

def EventV1.validateControl (event : EventV1) : Except String Unit := do
  reject (event.editCount ≠ 0 ∨ event.dropCount ≠ 0)
    (asciiText event.type.text ++ " does not accept counters")
  event.unexpected false false false false

def EventV1.validateTypeShape (event : EventV1) : Except String Unit :=
  match event.type with
  | .composition =>
    reject (event.composition = none ∨ event.selection ≠ none ∨ event.commit ≠ none ∨
        event.finalText ≠ none ∨ event.editCount ≠ 0 ∨ event.dropCount ≠ 0)
      "composition_snapshot requires only composition"
  | .select =>
    reject (event.composition = none ∨ event.selection = none ∨ event.commit ≠ none ∨
        event.finalText ≠ none ∨ event.editCount ≠ 0 ∨ event.dropCount ≠ 0)
      "select requires composition and selection only"
  | .commit => do
    reject (event.composition = none ∨ event.commit = none ∨ event.finalText = none ∨
        event.editCount ≠ 0 ∨ event.dropCount ≠ 0)
      "commit requires composition, commit, and final_text"
    reject (event.commit.map CommitV1.text ≠ event.finalText.map FinalTextV1.text)
      "commit text and final_text text must match"
  | .backspace => event.validateEdit
  | .delete => event.validateEdit
  | .abort => do
    reject (event.editCount ≠ 0 ∨ event.dropCount ≠ 0) "abort does not accept counters"
    event.unexpected true false false false
  | .pause => event.validateControl
  | .resume => event.validateControl
  | .dropCount => do
    reject (event.dropCount = 0 ∨ event.dropCount.toNat > maxDropCount ∨ event.editCount ≠ 0)
      ("drop_count requires drop_count between 1 and " ++ toString maxDropCount)
    event.unexpected false false false false
  | .other name => .error ("unsupported event type " ++ quoted name)

def EventV1.validate (event : EventV1) : Except String Unit := do
  reject (event.version ≠ eventVersionV1) ("unsupported event version " ++ quoted event.version)
  reject (validID event.sessionID = false ∨ validID event.episodeID = false)
    "session_id and episode_id must be 32 lowercase hexadecimal characters"
  reject (event.seq = 0) "seq must start at 1"
  reject (isCanonicalUTC event.utc = false)
    "utc must be canonical RFC3339Nano in UTC (ending in Z)"
  checkPointer (fun composition => composition.validate.mapError ("composition: " ++ ·))
    event.composition
  checkPointer event.validateSelection event.selection
  checkPointer CommitV1.validate event.commit
  checkPointer FinalTextV1.validate event.finalText
  event.validateTypeShape
  reject (event.marshal.length > maxEventBytes) ("encoded event is " ++
    toString event.marshal.length ++ " bytes; maximum is " ++ toString maxEventBytes)

open Target (field string bool int uint64 pointer slice struct)

def candidateFields : List (Target.Field CandidateV1) :=
  [field (lit "text") (·.text) (fun c v => { c with text := v }) string,
    field (lit "is_correction") (·.isCorrection) (fun c v => { c with isCorrection := v }) bool,
    field (lit "highlighted") (·.highlighted) (fun c v => { c with highlighted := v }) bool]

def compositionFields : List (Target.Field CompositionV1) :=
  [field (lit "raw_input") (·.rawInput) (fun c v => { c with rawInput := v }) string,
    field (lit "normalized_pinyin") (·.normalizedPinyin)
      (fun c v => { c with normalizedPinyin := v }) string,
    field (lit "caret_byte") (·.caretByte) (fun c v => { c with caretByte := v }) int,
    field (lit "exact_path_available") (·.exactPathAvailable)
      (fun c v => { c with exactPathAvailable := v }) bool,
    field (lit "candidates") (·.candidates) (fun c v => { c with candidates := v })
      (slice {} (struct candidateFields))]

def selectionFields : List (Target.Field SelectionV1) :=
  [field (lit "rank") (·.rank) (fun s v => { s with rank := v }) int,
    field (lit "text") (·.text) (fun s v => { s with text := v }) string]

def commitFields : List (Target.Field CommitV1) :=
  [field (lit "text") (·.text) (fun c v => { c with text := v }) string,
    field (lit "source") (·.source) (fun c v => { c with source := v }) string]

def finalTextFields : List (Target.Field FinalTextV1) :=
  [field (lit "text") (·.text) (fun f v => { f with text := v }) string,
    field (lit "scope") (·.scope) (fun f v => { f with scope := v }) string,
    field (lit "confidence") (·.confidence) (fun f v => { f with confidence := v }) string]

def eventFields : List (Target.Field EventV1) :=
  [field (lit "version") (·.version) (fun e v => { e with version := v }) string,
    field (lit "session_id") (·.sessionID) (fun e v => { e with sessionID := v }) string,
    field (lit "episode_id") (·.episodeID) (fun e v => { e with episodeID := v }) string,
    field (lit "seq") (·.seq) (fun e v => { e with seq := v }) uint64,
    field (lit "monotonic_us") (·.monotonicUS) (fun e v => { e with monotonicUS := v }) uint64,
    field (lit "utc") (·.utc) (fun e v => { e with utc := v }) string,
    field (lit "type") (·.type.text) (fun e v => { e with type := .ofText v }) string,
    field (lit "composition") (·.composition) (fun e v => { e with composition := v })
      (pointer {} (struct compositionFields)),
    field (lit "selection") (·.selection) (fun e v => { e with selection := v })
      (pointer {} (struct selectionFields)),
    field (lit "commit") (·.commit) (fun e v => { e with commit := v })
      (pointer {} (struct commitFields)),
    field (lit "edit_count") (·.editCount) (fun e v => { e with editCount := v })
      Target.uint32,
    field (lit "drop_count") (·.dropCount) (fun e v => { e with dropCount := v }) uint64,
    field (lit "final_text") (·.finalText) (fun e v => { e with finalText := v })
      (pointer {} (struct finalTextFields))]

def unmarshal {α : Type} (zero : α) (fields : List (Target.Field α)) (line : Bytes) : Option α :=
  match decodeOne line with
  | none => none
  | some v => struct fields zero v

def decodeEventV1 (line : Bytes) : Except String EventV1 :=
  if line = [] then .error "empty event"
  else if line.length > maxEventBytes then
    .error ("event is " ++ toString line.length ++ " bytes; maximum is " ++ toString maxEventBytes)
  else
    match unmarshal {} eventFields line with
    | none => .error "decode event v1"
    | some event => event.validate.map (fun _ => event)

def encodeEventV1 (event : EventV1) : Except String Bytes := do
  event.validate
  reject (event.marshal.length > maxEventBytes) ("encoded event is " ++
    toString event.marshal.length ++ " bytes; maximum is " ++ toString maxEventBytes)
  pure event.marshal

theorem reject_ok_iff (failed : Prop) [Decidable failed] (message : String) :
    reject failed message = .ok () ↔ ¬failed := by
  rw [reject]
  split_ifs with h <;> simp [h]

theorem bind_ok_iff {α : Type} {check : Except String Unit} (next : Unit → Except String α) {a : α} :
    (check >>= next) = .ok a ↔ check = .ok () ∧ next () = .ok a := by
  cases check with
  | error message =>
    refine ⟨fun h => ?_, fun h => ?_⟩
    · cases h
    · cases h.1
  | ok u => exact ⟨fun h => ⟨rfl, h⟩, fun h => h.2⟩

theorem checkPointer_ok_iff {α : Type} (check : α → Except String Unit) (value : Option α) :
    checkPointer check value = .ok () ↔ ∀ a ∈ value, check a = .ok () := by
  cases value with
  | none => exact ⟨fun _ a ha => (by cases ha), fun _ => rfl⟩
  | some a =>
    refine ⟨fun h b hb => ?_, fun h => h a rfl⟩
    cases hb
    exact h

theorem mapError_ok_iff (check : Except String Unit) (f : String → String) :
    check.mapError f = .ok () ↔ check = .ok () := by
  cases check with
  | error message => exact ⟨fun h => (by cases h), fun h => (by cases h)⟩
  | ok u => exact Iff.rfl

structure TextOk (value : Bytes) (maxBytes : ℕ) (allowEmpty : Bool) : Prop where
  utf8 : validUTF8 value = true
  nonempty : allowEmpty = false → value ≠ []
  short : value.length ≤ maxBytes
  noNul : 0 ∉ value

theorem validateText_ok_iff {name : String} {value : Bytes} {maxBytes : ℕ} {allowEmpty : Bool} :
    validateText name value maxBytes allowEmpty = .ok () ↔ TextOk value maxBytes allowEmpty := by
  rw [validateText, bind_ok_iff, bind_ok_iff, bind_ok_iff, reject_ok_iff, reject_ok_iff,
    reject_ok_iff, reject_ok_iff, Bool.not_eq_false, not_and, not_lt]
  exact ⟨fun h => ⟨h.1, h.2.1, h.2.2.1, h.2.2.2⟩, fun h => ⟨h.utf8, h.nonempty, h.short, h.noNul⟩⟩

theorem validateCandidates_ok_iff (index : ℕ) (candidates : List CandidateV1) :
    validateCandidates index candidates = .ok () ↔
      ∀ candidate ∈ candidates, TextOk candidate.text maxCandidateBytes false := by
  induction candidates generalizing index with
  | nil => exact ⟨fun _ c hc => absurd hc List.not_mem_nil, fun _ => rfl⟩
  | cons candidate rest ih =>
    rw [validateCandidates, bind_ok_iff, validateText_ok_iff, ih, List.forall_mem_cons]

structure CompositionV1.Valid (composition : CompositionV1) : Prop where
  raw : TextOk composition.rawInput maxInputBytes true
  pinyin : TextOk composition.normalizedPinyin maxPinyinBytes true
  caret : 0 ≤ composition.caretByte ∧ composition.caretByte ≤ composition.rawInput.length
  whole : ¬(composition.caretByte > 0 ∧ composition.caretByte ≠ composition.rawInput.length ∧
    isCont (composition.rawInput.getD composition.caretByte.toNat 0) = true)
  few : composition.shown.length ≤ maxCandidates
  texts : ∀ candidate ∈ composition.shown, TextOk candidate.text maxCandidateBytes false
  single : composition.shown.countP (fun candidate => candidate.highlighted) ≤ 1

theorem CompositionV1.validate_ok_iff (composition : CompositionV1) :
    composition.validate = .ok () ↔ composition.Valid := by
  rw [CompositionV1.validate, bind_ok_iff, bind_ok_iff, bind_ok_iff, bind_ok_iff, bind_ok_iff,
    bind_ok_iff, validateText_ok_iff, validateText_ok_iff, reject_ok_iff, reject_ok_iff,
    reject_ok_iff, reject_ok_iff, validateCandidates_ok_iff, not_or, not_lt, not_lt, not_lt, not_lt]
  refine ⟨fun h => ?_, fun h => ?_⟩
  · obtain ⟨hraw, hpinyin, hcaret, hwhole, hfew, htexts, hsingle⟩ := h
    exact ⟨hraw, hpinyin, hcaret, hwhole, hfew, htexts, hsingle⟩
  · exact ⟨h.raw, h.pinyin, h.caret, h.whole, h.few, h.texts, h.single⟩

/-- What an event has to be, apart from the payloads of its type. -/
structure EventV1.Valid (event : EventV1) : Prop where
  version : event.version = eventVersionV1
  sessionID : validID event.sessionID = true
  episodeID : validID event.episodeID = true
  seq : event.seq ≠ 0
  utc : isCanonicalUTC event.utc = true
  composition : ∀ c ∈ event.composition, c.Valid
  selection : ∀ s ∈ event.selection, event.validateSelection s = .ok ()
  commit : ∀ c ∈ event.commit, c.validate = .ok ()
  finalText : ∀ f ∈ event.finalText, f.validate = .ok ()
  shape : event.validateTypeShape = .ok ()
  size : event.marshal.length ≤ maxEventBytes

theorem EventV1.validate_ok_iff (event : EventV1) : event.validate = .ok () ↔ event.Valid := by
  have hcomposition : (∀ c ∈ event.composition,
      c.validate.mapError ("composition: " ++ ·) = .ok ()) ↔ ∀ c ∈ event.composition, c.Valid := by
    refine forall₂_congr (fun c _ => ?_)
    rw [mapError_ok_iff, CompositionV1.validate_ok_iff]
  rw [EventV1.validate]
  simp only [bind_ok_iff, reject_ok_iff, checkPointer_ok_iff, hcomposition, not_or, not_not,
    not_lt, Bool.not_eq_false]
  refine ⟨fun h => ?_, fun h => ?_⟩
  · obtain ⟨hversion, hids, hseq, hutc, hcomp, hselection, hcommit, hfinal, hshape, hsize⟩ := h
    exact ⟨hversion, hids.1, hids.2, hseq, hutc, hcomp, hselection, hcommit, hfinal, hshape, hsize⟩
  · exact ⟨h.version, ⟨h.sessionID, h.episodeID⟩, h.seq, h.utc, h.composition, h.selection, h.commit,
      h.finalText, h.shape, h.size⟩

theorem encodeEventV1_ok_iff (event : EventV1) (text : Bytes) :
    encodeEventV1 event = .ok text ↔ event.Valid ∧ text = event.marshal := by
  rw [encodeEventV1, bind_ok_iff, bind_ok_iff, reject_ok_iff, EventV1.validate_ok_iff, not_lt]
  refine ⟨fun h => ⟨h.1, ?_⟩, fun h => ⟨h.1, h.1.size, ?_⟩⟩
  · exact (Except.ok.inj h.2.2).symm
  · rw [h.2]
    rfl

end Replay
end YunPin
