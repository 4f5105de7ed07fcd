import YunPin.NativeFrame
import YunPin.ReplayStore

/-! The analysis of a native recording: frames become events of one session, which the analyzer counts
in the order of their sequence. -/
namespace YunPin
open ByteText JsonText

namespace Replay

structure Sha256 where
  sum : Bytes → Bytes
  length_eq : ∀ message, (sum message).length = 32

structure NativeEventConverter where
  sessionID : Bytes
  seq : UInt64 := 0
  mono : UInt64 := 0
  utc : ℤ := zeroTime
  episode : Bytes := []
  counter : UInt64 := 0
  closed : Bool := false
  deriving DecidableEq, Repr

def newNativeEventConverter (sessionID : Bytes) : Except String NativeEventConverter :=
  if validID sessionID = false then .error "native converter requires a valid session id"
  else .ok { sessionID := sessionID }

/-- The time of an unsigned number of microseconds, which is read as a signed one. -/
def unixMicro (us : UInt64) : ℤ := us.toInt64.toInt*1000

def highlightedText (candidates : List CandidateV1) : Bytes :=
  ((candidates.find? (fun candidate => candidate.highlighted)).map CandidateV1.text).getD []

def highlightedRank (candidates : List CandidateV1) : ℕ :=
  match candidates.findIdx? (fun candidate => candidate.highlighted) with
  | some index => index+1
  | none => 0

def episodeID (sha : Sha256) (sessionID : Bytes) (counter : UInt64) : Bytes :=
  hexEncode ((sha.sum (sessionID ++ 0x3A :: decimal counter.toNat)).take 16)

namespace NativeEventConverter

def nextEpisode (sha : Sha256) (converter : NativeEventConverter) : NativeEventConverter :=
  { converter with
    counter := converter.counter+1
    episode := episodeID sha converter.sessionID (converter.counter+1) }

def frameUTC (converter : NativeEventConverter) (frame : NativeFrameV1) : ℤ :=
  if converter.utc ≠ zeroTime ∧ unixMicro frame.utcUnixUS < converter.utc then converter.utc
  else unixMicro frame.utcUnixUS

def frameMono (converter : NativeEventConverter) (frame : NativeFrameV1) : UInt64 :=
  if converter.seq ≠ 0 ∧ frame.monotonicUS ≤ converter.mono then converter.mono+1
  else frame.monotonicUS

def opened (sha : Sha256) (converter : NativeEventConverter) (frame : NativeFrameV1) :
    NativeEventConverter :=
  if converter.seq = 0 then
    { converter.nextEpisode sha with
      seq := 1
      mono := converter.frameMono frame
      utc := converter.frameUTC frame }
  else converter

def resumeEvent (converter : NativeEventConverter) : EventV1 :=
  { version := eventVersionV1
    sessionID := converter.sessionID
    episodeID := converter.episode
    seq := converter.seq
    monotonicUS := converter.mono
    utc := canonicalUTC converter.utc
    type := .resume }

def openingEvents (sha : Sha256) (converter : NativeEventConverter) (frame : NativeFrameV1) :
    List EventV1 :=
  if converter.seq = 0 then [(converter.opened sha frame).resumeEvent] else []

def eventMono (converter : NativeEventConverter) (frame : NativeFrameV1) : UInt64 :=
  if converter.seq = 0 then converter.frameMono frame+1 else converter.frameMono frame

/-- The converter when it has taken a frame: after a closed episode a new one begins. -/
def entered (sha : Sha256) (converter : NativeEventConverter) (frame : NativeFrameV1)
    (mono : UInt64) (utc : ℤ) : NativeEventConverter :=
  let current := if converter.closed = true ∧ frame.type ≠ .dropCount then
    { converter.nextEpisode sha with closed := false } else converter
  { current with seq := current.seq+1, mono := mono, utc := utc }

def commitOf (frame : NativeFrameV1) : Option CommitV1 :=
  if frame.type = .commit then
    some ⟨frame.finalText,
      if highlightedText ((frame.composition.map CompositionV1.shown).getD []) = frame.finalText then
        lit "candidate"
      else lit "unknown"⟩
  else none

def finalTextOf (frame : NativeFrameV1) : Option FinalTextV1 :=
  if frame.type = .commit then some ⟨frame.finalText, lit "composition", lit "observed"⟩ else none

def eventOf (converter : NativeEventConverter) (frame : NativeFrameV1) : EventV1 :=
  { version := eventVersionV1
    sessionID := converter.sessionID
    episodeID := converter.episode
    seq := converter.seq
    monotonicUS := converter.mono
    utc := canonicalUTC converter.utc
    type := frame.type
    composition := frame.composition
    selection := frame.selection
    commit := commitOf frame
    editCount := frame.editCount
    dropCount := frame.dropCount
    finalText := finalTextOf frame }

def left (converter : NativeEventConverter) (frame : NativeFrameV1) : NativeEventConverter :=
  if frame.type = .commit ∨ frame.type = .abort then { converter with closed := true }
  else converter

def taken (sha : Sha256) (converter : NativeEventConverter) (frame : NativeFrameV1) :
    NativeEventConverter :=
  (converter.opened sha frame).entered sha frame (converter.eventMono frame)
    (converter.frameUTC frame)

def convert (sha : Sha256) (converter : NativeEventConverter) (frame : NativeFrameV1) :
    NativeEventConverter × Except String (List EventV1) :=
  match frame.validate with
  | .error message => (converter, .error message)
  | .ok () =>
    let event := (converter.taken sha frame).eventOf frame
    match event.validate with
    | .error message =>
      (converter.taken sha frame, .error ("convert native frame: " ++ message))
    | .ok () =>
      ((converter.taken sha frame).left frame, .ok (converter.openingEvents sha frame ++ [event]))

end NativeEventConverter

structure Report where
  version : Bytes := lit "yunpin.replay.report.v1"
  sessionID : Bytes := []
  eventCount : Int64 := 0
  nativeEventCount : Int64 := 0
  episodeCount : Int64 := 0
  commitCount : Int64 := 0
  backspaceCount : UInt64 := 0
  deleteCount : UInt64 := 0
  droppedEventCount : UInt64 := 0
  editedEpisodeCount : Int64 := 0
  candidateSelections : Int64 := 0
  selectionRankHistogram : SortedMap Bytes Int64 := ∅
  exactPathCorrectionFirstCount : Int64 := 0
  samePinyinRerankCount : Int64 := 0
  samePinyinAfterEditReplaceCount : Int64 := 0

structure EpisodeReportState where
  edited : Bool := false
  selectionObserved : Bool := false
  lastComposition : Option CompositionV1 := none
  beforeEditPinyin : Bytes := []
  beforeEditText : Bytes := []
  alreadyCountedEdit : Bool := false

structure Analyzer where
  report : Report := {}
  sequence : SequenceState := {}
  currentEpisodeID : Bytes := []
  currentEpisode : EpisodeReportState := {}
  selectionRankSum : Int64 := 0
  finished : Bool := false

def hasOrdinaryCandidate (candidates : List CandidateV1) : Bool :=
  candidates.any (fun candidate => !candidate.isCorrection)

def isSamePinyinRerank (event : EventV1) : Bool :=
  match event.composition, event.selection with
  | some composition, some selection =>
    composition.exactPathAvailable = true ∧ selection.rank > 1 ∧
      (composition.shown.getD (selection.rank-1).toNat {}).isCorrection = false ∧
      composition.shown ≠ [] ∧ (composition.shown.headD {}).isCorrection = false
  | _, _ => false

def markFirstEdit (state : EpisodeReportState) (composition : Option CompositionV1) :
    EpisodeReportState :=
  let state := { state with edited := true }
  if state.alreadyCountedEdit then state
  else
    let state := { state with alreadyCountedEdit := true }
    match composition.or state.lastComposition with
    | none => state
    | some composition =>
      let text := highlightedText composition.shown
      { state with
        beforeEditPinyin := composition.normalizedPinyin
        beforeEditText := if text = [] ∧ composition.shown ≠ [] then
          (composition.shown.headD {}).text else text }

namespace Analyzer

def finishEpisode (analyzer : Analyzer) : Analyzer :=
  if analyzer.currentEpisodeID ≠ [] ∧ analyzer.currentEpisode.edited = true then
    { analyzer with report := { analyzer.report with
        editedEpisodeCount := analyzer.report.editedEpisodeCount+1 } }
  else analyzer

def countSelection (analyzer : Analyzer) (rank : ℤ) : Analyzer :=
  { analyzer with
    selectionRankSum := analyzer.selectionRankSum+Int64.ofInt rank
    report := { analyzer.report with
      candidateSelections := analyzer.report.candidateSelections+1
      selectionRankHistogram := analyzer.report.selectionRankHistogram.insert (intText rank)
        ((analyzer.report.selectionRankHistogram.find? (intText rank)).getD 0+1) } }

def enterEpisode (analyzer : Analyzer) (event : EventV1) : Analyzer :=
  if event.episodeID ≠ analyzer.currentEpisodeID then
    let analyzer := analyzer.finishEpisode
    { analyzer with
      currentEpisodeID := event.episodeID
      currentEpisode := {}
      report := { analyzer.report with episodeCount := analyzer.report.episodeCount+1 } }
  else analyzer

def noteComposition (analyzer : Analyzer) (event : EventV1) : Analyzer :=
  match event.composition with
  | none => analyzer
  | some composition =>
    let first := event.type = .composition ∧ composition.exactPathAvailable = true ∧
      composition.shown.length > 1 ∧ (composition.shown.headD {}).isCorrection = true ∧
      hasOrdinaryCandidate composition.shown.tail = true
    { analyzer with
      currentEpisode := { analyzer.currentEpisode with lastComposition := some composition }
      report := { analyzer.report with
        exactPathCorrectionFirstCount := if first then
          analyzer.report.exactPathCorrectionFirstCount+1
        else analyzer.report.exactPathCorrectionFirstCount } }

def noteSelect (analyzer : Analyzer) (event : EventV1) : Analyzer :=
  let analyzer := { analyzer with
    currentEpisode := { analyzer.currentEpisode with selectionObserved := true } }
  let analyzer := analyzer.countSelection ((event.selection.map SelectionV1.rank).getD 0)
  if isSamePinyinRerank event then
    { analyzer with report := { analyzer.report with
        samePinyinRerankCount := analyzer.report.samePinyinRerankCount+1 } }
  else analyzer

def noteCommit (analyzer : Analyzer) (event : EventV1) : Analyzer :=
  let shown := (event.composition.map CompositionV1.shown).getD []
  let analyzer := { analyzer with report := { analyzer.report with
    commitCount := analyzer.report.commitCount+1 } }
  let analyzer := if analyzer.currentEpisode.selectionObserved = false ∧ highlightedRank shown > 0
    then analyzer.countSelection (highlightedRank shown) else analyzer
  let state := analyzer.currentEpisode
  if state.edited = true ∧
      (event.composition.map CompositionV1.normalizedPinyin).getD [] = state.beforeEditPinyin ∧
      state.beforeEditText ≠ [] ∧
      (event.finalText.map FinalTextV1.text).getD [] ≠ state.beforeEditText then
    { analyzer with report := { analyzer.report with
        samePinyinAfterEditReplaceCount := analyzer.report.samePinyinAfterEditReplaceCount+1 } }
  else analyzer

def noteType (analyzer : Analyzer) (event : EventV1) : Analyzer :=
  match event.type with
  | .select => analyzer.noteSelect event
  | .backspace =>
    { analyzer with
      currentEpisode := markFirstEdit analyzer.currentEpisode event.composition
      report := { analyzer.report with
        backspaceCount := analyzer.report.backspaceCount+event.editCount.toUInt64 } }
  | .delete =>
    { analyzer with
      currentEpisode := markFirstEdit analyzer.currentEpisode event.composition
      report := { analyzer.report with
        deleteCount := analyzer.report.deleteCount+event.editCount.toUInt64 } }
  | .dropCount =>
    { analyzer with report := { analyzer.report with
        droppedEventCount := analyzer.report.droppedEventCount+event.dropCount } }
  | .commit => analyzer.noteCommit event
  | _ => analyzer

def count (analyzer : Analyzer) (event : EventV1) (sequence : SequenceState) : Analyzer :=
  { analyzer with
    sequence := sequence
    report := { analyzer.report with
      eventCount := analyzer.report.eventCount+1
      sessionID := if analyzer.report.sessionID = [] then event.sessionID
        else analyzer.report.sessionID } }

def note (analyzer : Analyzer) (event : EventV1) (sequence : SequenceState) : Analyzer :=
  (((analyzer.count event sequence).enterEpisode event).noteComposition event).noteType event

def accept (analyzer : Analyzer) (event : EventV1) : Except String Analyzer :=
  if analyzer.finished then .error "analyzer is already finished"
  else
    match analyzer.sequence.accept event with
    | .error message => .error ("event " ++ toString (analyzer.report.eventCount+1).toInt ++ ": " ++
        message)
    | .ok sequence => .ok (analyzer.note event sequence)

def finish (analyzer : Analyzer) : Analyzer :=
  if analyzer.finished then analyzer else { analyzer.finishEpisode with finished := true }

end Analyzer

/-- The loop of `analyzeNativeFile` over the decoded frames, from a line number on. -/
def analyzeFrames (sha : Sha256) :
    ℕ → NativeEventConverter → Analyzer → List NativeFrameV1 → Except String Analyzer
  | _, _, analyzer, [] => .ok analyzer
  | line, converter, analyzer, frame :: rest =>
    match converter.convert sha frame with
    | (_, .error message) =>
      .error ("native frame line " ++ toString line ++ ": " ++ message)
    | (converter, .ok events) =>
      match events.foldlM Analyzer.accept analyzer with
      | .error message => .error message
      | .ok analyzer => analyzeFrames sha (line+1) converter analyzer rest

def analyzeNative (sha : Sha256) (sessionID : Bytes) (frames : List NativeFrameV1) :
    Except String Report := do
  let converter ← newNativeEventConverter sessionID
  let analyzer ← analyzeFrames sha 1 converter {} frames
  pure { analyzer.finish.report with nativeEventCount := Int64.ofNat frames.length }

end Replay
end YunPin
