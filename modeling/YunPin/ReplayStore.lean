import YunPin.ReplaySequence
import YunPin.ReplayCodec
import YunPin.SortedMap

/-! The store of the replay lab: a log of events that is only appended to, and the metadata of the
session, replaced as a whole after each event. -/
namespace YunPin
open ByteText JsonText List

namespace Replay
open CivilTime (isCanonicalUTC formatUTC parseUTC InFourDigitYears)

def sessionVersion : Bytes := lit "yunpin.replay.session.v1"

inductive LabState where
  | disabled | running | paused
  | other (name : Bytes)
  deriving DecidableEq, Repr

def LabState.text : LabState → Bytes
  | .disabled => lit "disabled"
  | .running => lit "running"
  | .paused => lit "paused"
  | .other name => name

structure SessionMetadata where
  version : Bytes := []
  sessionID : Bytes := []
  state : LabState := .other []
  startedUTC : Bytes := []
  updatedUTC : Bytes := []
  eventFile : Bytes := []
  lastEpisodeID : Bytes := []
  lastSeq : UInt64 := 0
  lastMonotonicUS : UInt64 := 0
  lastUTC : Bytes := []
  episodeClosed : Bool := false
  deriving DecidableEq, Repr

/-- What outlives the process: the metadata, and the logs by their names below the root. -/
structure Disk where
  metadata : SessionMetadata
  files : SortedMap Bytes Bytes

/-- The cached metadata with the cached sequence, once they are there. -/
structure Store where
  disk : Disk
  cache : Option (SessionMetadata × SequenceState)

structure Clock where
  instant : ℤ
  sane : InFourDigitYears instant

structure RandomID where
  raw : Bytes
  length_eq : raw.length = 16

def newID (id : RandomID) : Bytes := hexEncode id.raw

def canonicalUTC (t : ℤ) : Bytes := formatUTC t

def eventFileOf (sessionID : Bytes) : Bytes :=
  lit "sessions/" ++ (sessionID ++ lit ".yunpinreplay")

/-- The lines of a scanner. What follows the last line end is one more line, unless it is empty. -/
def scanLines (data : Bytes) : List Bytes :=
  let lines := data.splitOn 0x0A
  if lines.getLast? = some [] then lines.dropLast else lines

def dropCR (line : Bytes) : Bytes :=
  if line.getLast? = some 0x0D then line.dropLast else line

def atLine {α : Type} (line : ℕ) (result : Except String α) : Except String α :=
  result.mapError (fun message => "event log line " ++ toString line ++ ": " ++ message)

/-- The loop of `forEachEvent`, from a line number on. The buffer of the scanner holds a line of the
maximal size and its end. -/
def forEachLine {σ : Type} (accept : σ → EventV1 → Except String σ) :
    ℕ → σ → List Bytes → Except String σ
  | _, s, [] => .ok s
  | line, s, text :: rest =>
    if text.length > maxEventBytes then .error "read event log: bufio.Scanner: token too long"
    else do
      let event ← atLine line (decodeEventV1 (dropCR text))
      let s ← atLine line (accept s event)
      forEachLine accept (line+1) s rest

def forEachEvent {σ : Type} (accept : σ → EventV1 → Except String σ) (s : σ) (data : Bytes) :
    Except String σ := forEachLine accept 1 s (scanLines data)

def collect (events : List EventV1) (event : EventV1) : Except String (List EventV1) :=
  .ok (events ++ [event])

def readEvents (data : Bytes) : Except String (List EventV1) := forEachEvent collect [] data

def Disk.scanSession (disk : Disk) (relative : Bytes) : Except String SequenceState :=
  if relative = [] then .ok {}
  else
    match disk.files.find? relative with
    | none => .ok {}
    | some data => forEachEvent SequenceState.accept {} data

def SessionMetadata.check (metadata : SessionMetadata) : Except String Unit := do
  reject (metadata.version ≠ sessionVersion) "unsupported session metadata version"
  reject (isCanonicalUTC metadata.updatedUTC = false) "session updated_utc is invalid"
  match metadata.state with
  | .disabled =>
    reject (metadata.sessionID ≠ [] ∨ metadata.eventFile ≠ [] ∨ metadata.startedUTC ≠ [] ∨
        metadata.lastUTC ≠ [] ∨ metadata.lastSeq ≠ 0)
      "disabled session metadata contains active state"
  | .other name => .error ("unknown lab state " ++ quoted name)
  | _ =>
    reject (validID metadata.sessionID = false ∨ validID metadata.lastEpisodeID = false ∨
        metadata.lastSeq = 0 ∨ isCanonicalUTC metadata.startedUTC = false ∨
        isCanonicalUTC metadata.lastUTC = false ∨
        metadata.eventFile ≠ eventFileOf metadata.sessionID)
      "active session metadata identity is invalid"

def Disk.loadMetadata (disk : Disk) : Except String SessionMetadata :=
  disk.metadata.check.map (fun _ => disk.metadata)

def SequenceState.name (state : SequenceState) : LabState :=
  if state.paused then .paused else .running

def SessionMetadata.advance (metadata : SessionMetadata) (state : SequenceState)
    (updatedUTC : Bytes) : SessionMetadata :=
  { metadata with
    lastSeq := state.lastSeq
    lastEpisodeID := state.lastEpisodeID
    lastMonotonicUS := state.lastMonotonicUS
    lastUTC := canonicalUTC state.lastUTC
    episodeClosed := state.episodeClosed
    state := state.name
    updatedUTC := updatedUTC }

structure SessionMetadata.Agrees (metadata : SessionMetadata) (state : SequenceState) : Prop where
  lastSeq : metadata.lastSeq = state.lastSeq
  lastEpisodeID : metadata.lastEpisodeID = state.lastEpisodeID
  lastMonotonicUS : metadata.lastMonotonicUS = state.lastMonotonicUS
  lastUTC : metadata.lastUTC = canonicalUTC state.lastUTC
  episodeClosed : metadata.episodeClosed = state.episodeClosed
  state : metadata.state = state.name

namespace Store

def openAt (disk : Disk) : Store := ⟨disk, none⟩

def saveMetadata (disk : Disk) (metadata : SessionMetadata) : Disk :=
  { disk with metadata := metadata }

/-- The cross-checks of `Status`. A log that is ahead of the metadata repairs them. -/
def crossCheck (store : Store) (clock : Clock) (metadata : SessionMetadata)
    (state : SequenceState) : Store × Except String SessionMetadata :=
  if state.sessionID ≠ [] ∧ state.sessionID ≠ metadata.sessionID then
    (store, .error "session metadata does not match append-only event log")
  else if state.lastSeq < metadata.lastSeq then
    (store, .error "append-only event log is behind session metadata")
  else if state.lastSeq > metadata.lastSeq then
    let repaired := metadata.advance state (canonicalUTC clock.instant)
    (⟨saveMetadata store.disk repaired, some (repaired, state)⟩, .ok repaired)
  else if state.lastSeq > 0 ∧ (state.lastEpisodeID ≠ metadata.lastEpisodeID ∨
      state.lastMonotonicUS ≠ metadata.lastMonotonicUS ∨
      canonicalUTC state.lastUTC ≠ metadata.lastUTC ∨
      state.episodeClosed ≠ metadata.episodeClosed ∨ state.name ≠ metadata.state) then
    (store, .error "session metadata disagrees with append-only event log")
  else (⟨store.disk, some (metadata, state)⟩, .ok metadata)

def status (store : Store) (clock : Clock) : Store × Except String SessionMetadata :=
  match store.cache with
  | some (metadata, _) => (store, .ok metadata)
  | none =>
    match store.disk.loadMetadata with
    | .error message => (store, .error message)
    | .ok metadata =>
      if metadata.sessionID = [] then (⟨store.disk, some (metadata, {})⟩, .ok metadata)
      else
        match store.disk.scanSession metadata.eventFile with
        | .error message => (store, .error message)
        | .ok state => store.crossCheck clock metadata state

end Store

/-- What an operation has decided when it opens the log: the event, and the metadata and the cache
that follow the write. -/
structure Write where
  event : EventV1
  metadata : SessionMetadata
  cache : Option (SessionMetadata × SequenceState)

def eventLine (event : EventV1) : Bytes := event.marshal ++ [0x0A]

def appendEventFile (files : SortedMap Bytes Bytes) (path : Bytes) (event : EventV1) (bytes : ℕ) :
    SortedMap Bytes Bytes :=
  files.insert path ((files.find? path).getD [] ++ (eventLine event).take bytes)

namespace Store

/-- What is on disk when the process stops after so many bytes of the line. -/
def crash (store : Store) (write : Write) (bytes : ℕ) : Disk :=
  { store.disk with
    files := appendEventFile store.disk.files write.metadata.eventFile write.event bytes }

def complete (store : Store) (write : Write) : Store :=
  ⟨saveMetadata (store.crash write (eventLine write.event).length) write.metadata, write.cache⟩

def cachedSequence (store : Store) : SequenceState := (store.cache.map Prod.snd).getD {}

def prepareAppend (store : Store) (clock : Clock) (event : EventV1) :
    Store × Except String Write :=
  match store.status clock with
  | (store, .error message) => (store, .error message)
  | (store, .ok metadata) =>
    if metadata.state = .disabled then (store, .error "lab is disabled; run start before ingest")
    else
      match store.cachedSequence.accept event with
      | .error message => (store, .error ("reject event: " ++ message))
      | .ok state =>
        match encodeEventV1 event with
        | .error message => (store, .error message)
        | .ok _ =>
          let metadata := metadata.advance state event.utc
          (store, .ok ⟨event, metadata, some (metadata, state)⟩)

def startEvent (now : ℤ) (sessionID episodeID : Bytes) : EventV1 :=
  { version := eventVersionV1
    sessionID := sessionID
    episodeID := episodeID
    seq := 1
    monotonicUS := 0
    utc := canonicalUTC now
    type := .resume }

def startMetadata (now : ℤ) (sessionID episodeID : Bytes) : SessionMetadata :=
  { version := sessionVersion
    sessionID := sessionID
    state := .running
    startedUTC := canonicalUTC now
    updatedUTC := canonicalUTC now
    eventFile := eventFileOf sessionID
    lastEpisodeID := episodeID
    lastSeq := 1
    lastUTC := canonicalUTC now
    episodeClosed := false }

def prepareStart (store : Store) (now : ℤ) (session episode : RandomID) :
    Store × Except String Write :=
  match store.disk.loadMetadata with
  | .error message => (store, .error message)
  | .ok current =>
    if current.state ≠ .disabled then
      (store, .error ("lab state is " ++ quoted current.state.text ++
        "; clear the lab to begin a new session"))
    else
      let event := startEvent now (newID session) (newID episode)
      match encodeEventV1 event with
      | .error message => (store, .error message)
      | .ok _ =>
        let metadata := startMetadata now (newID session) (newID episode)
        let cache := match ({} : SequenceState).accept event with
          | .ok state => some (metadata, state)
          -- The metadata have been saved by then.
          | .error _ => store.cache
        (store, .ok ⟨event, metadata, cache⟩)

def elapsedUS (started now : ℤ) : UInt64 := UInt64.ofNat ((min (now-started) (2^63-1)/1000).toNat)

def controlEvent (metadata : SessionMetadata) (kind : EventType) (episodeID : Bytes) (now : ℤ) :
    EventV1 :=
  let mono := metadata.lastMonotonicUS+1
  let mono := match parseUTC metadata.startedUTC with
    | none => mono
    | some started =>
      if started < now ∧ mono < elapsedUS started now then elapsedUS started now else mono
  { version := eventVersionV1
    sessionID := metadata.sessionID
    episodeID := episodeID
    seq := metadata.lastSeq+1
    monotonicUS := mono
    utc := canonicalUTC now
    type := kind }

def prepareControl (store : Store) (clock : Clock) (verb : String) (needed : LabState)
    (event : SessionMetadata → EventV1) : Store × Except String Write :=
  match store.status clock with
  | (store, .error message) => (store, .error message)
  | (store, .ok metadata) =>
    if metadata.state ≠ needed then
      (store, .error ("cannot " ++ verb ++ " lab in state " ++ quoted metadata.state.text))
    else store.prepareAppend clock (event metadata)

def preparePause (store : Store) (clock : Clock) (now : ℤ) : Store × Except String Write :=
  store.prepareControl clock "pause" .running (fun metadata =>
    controlEvent metadata .pause metadata.lastEpisodeID now)

def prepareResume (store : Store) (clock : Clock) (now : ℤ) (episode : RandomID) :
    Store × Except String Write :=
  store.prepareControl clock "resume" .paused (fun metadata =>
    controlEvent metadata .resume (newID episode) now)

end Store

/-- A call with the times and the random bytes that it draws. -/
inductive Op where
  | start (now : ℤ) (session episode : RandomID)
  | append (clock : Clock) (event : EventV1)
  | pause (clock : Clock) (now : ℤ)
  | resume (clock : Clock) (now : ℤ) (episode : RandomID)

def Op.isStart : Op → Bool
  | .start .. => true
  | _ => false

/-- The process calls an operation, or ends and a later one opens the store again. -/
inductive Move where
  | call (op : Op)
  | reopen

namespace Store

def prepare (store : Store) : Op → Store × Except String Write
  | .start now session episode => store.prepareStart now session episode
  | .append clock event => store.prepareAppend clock event
  | .pause clock now => store.preparePause clock now
  | .resume clock now episode => store.prepareResume clock now episode

def call (store : Store) (op : Op) : Store × Except String Unit :=
  match store.prepare op with
  | (store, .error message) => (store, .error message)
  | (store, .ok write) => (store.complete write, .ok ())

def step (store : Store) : Move → Store
  | .call op => (store.call op).1
  | .reopen => openAt store.disk

def run (store : Store) (moves : List Move) : Store := moves.foldl step store

def appended (store : Store) : Move → List EventV1
  | .reopen => []
  | .call op =>
    match store.prepare op with
    | (_, .error _) => []
    | (_, .ok write) => [write.event]

def completed : Store → List Move → List EventV1
  | _, [] => []
  | store, move :: rest => store.appended move ++ completed (store.step move) rest

def events (store : Store) (clock : Clock) : Store × Except String (List EventV1) :=
  match store.status clock with
  | (store, .error message) => (store, .error message)
  | (store, .ok metadata) =>
    if metadata.eventFile = [] then (store, .ok [])
    else
      match store.disk.files.find? metadata.eventFile with
      | none => (store, .error "no such file")
      | some data => (store, readEvents data)

end Store

def Disk.init (now : Clock) : Disk :=
  ⟨{ version := sessionVersion, state := .disabled, updatedUTC := canonicalUTC now.instant }, ∅⟩

theorem intercalate_rows (c : UInt8) (rows : List Bytes) (tail : Bytes) :
    [c].intercalate (rows ++ [tail]) = rows.flatMap (fun row => row ++ [c]) ++ tail := by
  induction rows with
  | nil => simp [List.intercalate]
  | cons row rest ih =>
    have hne : rest ++ [tail] ≠ [] := by simp
    obtain ⟨first, others, hsplit⟩ := exists_cons_of_ne_nil hne
    rw [cons_append, hsplit, intercalate_cons_cons, ← hsplit, ih]
    simp

theorem scanLines_rows (rows : List Bytes) (tail : Bytes) (hrows : ∀ row ∈ rows, 0x0A ∉ row)
    (htail : 0x0A ∉ tail) :
    scanLines (rows.flatMap (fun row => row ++ [0x0A]) ++ tail) =
      if tail = [] then rows else rows ++ [tail] := by
  have hsplit : (rows.flatMap (fun row => row ++ [0x0A]) ++ tail).splitOn 0x0A = rows ++ [tail] := by
    rw [← intercalate_rows]
    apply splitOn_intercalate
    · intro row hrow
      rcases mem_append.mp hrow with hmem | hmem
      · exact hrows row hmem
      · rw [mem_singleton.mp hmem]
        exact htail
    · simp
  rw [scanLines, hsplit, getLast?_concat, dropLast_concat]
  simp only [Option.some.injEq]

variable {text : Bytes}

theorem dropCR_visible (h : Visible text) : dropCR text = text := by
  rw [dropCR, if_neg]
  intro hlast
  exact absurd (h _ (mem_of_getLast? hlast)) (by decide)

theorem newline_not_mem (h : Visible text) : 0x0A ∉ text :=
  fun hmem => absurd (h _ hmem) (by decide)

theorem visible_take (h : Visible text) (k : ℕ) : Visible (text.take k) :=
  fun b hb => h b (mem_of_mem_take hb)

theorem scanLines_log {log : List EventV1} {tail : Bytes} (hlog : ∀ e ∈ log, e.Valid)
    (htail : Visible tail) :
    scanLines (log.flatMap eventLine ++ tail) =
      if tail = [] then log.map EventV1.marshal else log.map EventV1.marshal ++ [tail] := by
  have hrows : log.flatMap eventLine =
      (log.map EventV1.marshal).flatMap (fun row => row ++ [0x0A]) := by
    rw [flatMap_map]
    rfl
  rw [hrows]
  apply scanLines_rows
  · intro row hrow
    obtain ⟨event, hevent, rfl⟩ := mem_map.mp hrow
    exact newline_not_mem (denotes_event event (hlog event hevent)).visible
  · exact newline_not_mem htail

theorem forEachLine_log {σ : Type} (accept : σ → EventV1 → Except String σ) (line : ℕ) (s : σ) {s' : σ}
    {log : List EventV1} (rest : List Bytes) (hlog : ∀ e ∈ log, e.Valid)
    (haccept : log.foldlM accept s = .ok s') :
    forEachLine accept line s (log.map EventV1.marshal ++ rest) =
      forEachLine accept (line+log.length) s' rest := by
  induction log generalizing line s with
  | nil =>
    cases haccept
    rfl
  | cons event log ih =>
    obtain ⟨hevent, hrest⟩ := forall_mem_cons.mp hlog
    rw [foldlM_cons] at haccept
    cases hnext : accept s event with
    | error message =>
      rw [hnext] at haccept
      cases haccept
    | ok next =>
      rw [hnext] at haccept
      have hlong : ¬event.marshal.length > maxEventBytes := not_lt.mpr hevent.size
      rw [map_cons, cons_append, forEachLine, if_neg hlong,
        dropCR_visible (denotes_event event hevent).visible, decodeEventV1_marshal event hevent]
      have hstep : atLine line (accept s event) = .ok next := by
        rw [hnext]
        rfl
      calc _ = atLine line (accept s event) >>= (fun s => forEachLine accept (line+1) s
              (log.map EventV1.marshal ++ rest)) := rfl
        _ = forEachLine accept (line+1) next (log.map EventV1.marshal ++ rest) := by
          rw [hstep]
          rfl
        _ = forEachLine accept (line+1+log.length) s' rest := ih (line+1) next hrest haccept
        _ = _ := by rw [length_cons, Nat.add_right_comm, Nat.add_assoc]

theorem forEachLine_bad {σ : Type} (accept : σ → EventV1 → Except String σ) (line : ℕ) (s : σ)
    (rest : List Bytes) (hvisible : Visible text) (hbad : ∀ event, decodeEventV1 text ≠ .ok event) :
    ∀ s', forEachLine accept line s (text :: rest) ≠ .ok s' := by
  intro s' hok
  rw [forEachLine, dropCR_visible hvisible] at hok
  split_ifs at hok
  cases hdecode : decodeEventV1 text with
  | error message =>
    rw [hdecode] at hok
    cases hok
  | ok event => exact hbad event hdecode

theorem foldlM_collect (log events : List EventV1) :
    log.foldlM collect events = .ok (events ++ log) := by
  induction log generalizing events with
  | nil => exact congrArg Except.ok (append_nil events).symm
  | cons event log ih =>
    rw [foldlM_cons]
    calc _ = log.foldlM collect (events ++ [event]) := rfl
      _ = .ok (events ++ [event] ++ log) := ih (events ++ [event])
      _ = _ := by rw [append_assoc, singleton_append]

end Replay
end YunPin
