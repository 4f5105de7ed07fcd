import YunPin.ReplayEvent

/-! The order of the events of a session: one sequence, times that do not go back, and the episodes
between start, pause and resume. -/
namespace YunPin
open ByteText JsonText

namespace Replay
open CivilTime (parseUTC)

/-- The zero `time.Time` of Go, in nanoseconds from 1970. -/
def zeroTime : ℤ := -62135596800*10^9

/-- What is remembered of the events so far. -/
structure SequenceState where
  sessionID : Bytes := []
  lastEpisodeID : Bytes := []
  lastSeq : UInt64 := 0
  lastMonotonicUS : UInt64 := 0
  lastUTC : ℤ := zeroTime
  paused : Bool := false
  episodeClosed : Bool := false
  seenEpisodes : List Bytes := []
  deriving DecidableEq, Repr

def EventV1.time (event : EventV1) : ℤ := (parseUTC event.utc).getD zeroTime

namespace SequenceState

def acceptOrder (state : SequenceState) (event : EventV1) : Except String Unit :=
  if state.sessionID = [] then do
    reject (event.seq ≠ 1) "the first event in a session must have seq 1"
    reject (event.type ≠ .resume) "the first event in a session must be resume"
  else do
    reject (event.sessionID ≠ state.sessionID) "event session_id does not match the active session"
    reject (event.seq ≠ state.lastSeq+1) ("event seq " ++ toString event.seq.toNat ++
      " is not the expected " ++ toString (state.lastSeq+1).toNat)
    reject (event.monotonicUS < state.lastMonotonicUS) "monotonic_us moved backwards"
    reject (event.time < state.lastUTC) "utc moved backwards"

/-- The event is the first one of its episode. -/
def newEpisode (state : SequenceState) (event : EventV1) : Bool :=
  state.lastEpisodeID = [] ∨ event.episodeID ≠ state.lastEpisodeID

def acceptEpisode (state : SequenceState) (event : EventV1) : Except String Unit := do
  reject (state.newEpisode event = true ∧ event.episodeID ∈ state.seenEpisodes)
    "episode_id was already closed and cannot be reused"
  reject (state.newEpisode event = true ∧ state.seenEpisodes.length ≥ maxEpisodes)
    ("session exceeds the maximum " ++ toString maxEpisodes ++ " episodes")
  reject (state.newEpisode event = true ∧ state.lastEpisodeID ≠ [] ∧ state.episodeClosed = false ∧
      state.paused = false)
    "episode_id changed before commit, abort, or pause"
  reject (state.newEpisode event = true ∧ state.lastEpisodeID ≠ [] ∧ event.type ≠ .composition ∧
      event.type ≠ .resume)
    "a new episode_id must start with composition_snapshot or resume"
  reject (state.newEpisode event = false ∧ state.episodeClosed = true ∧ event.type ≠ .pause ∧
      event.type ≠ .dropCount)
    "a closed episode_id cannot receive more input events"
  reject (state.paused = true ∧ event.type ≠ .resume ∧ event.type ≠ .dropCount)
    "only resume or drop_count is accepted while paused"

/-- Whether the session is paused and the episode closed after the event. -/
def lifecycle (state : SequenceState) (event : EventV1) : Except String (Bool × Bool) :=
  match event.type with
  | .resume => do
    reject (state.lastSeq ≠ 0 ∧ state.paused = false)
      "resume is only valid at session start or after pause"
    reject (state.lastSeq ≠ 0 ∧ state.newEpisode event = false)
      "resume after pause must start a new episode_id"
    pure (false, false)
  | .pause => do
    reject (state.paused = true) "session is already paused"
    pure (true, true)
  | .commit => pure (state.paused, true)
  | .abort => pure (state.paused, true)
  | .dropCount => pure (state.paused, state.episodeClosed)
  | .other name => .error ("unsupported event type " ++ quoted name)
  | _ => pure (state.paused, if state.newEpisode event then false else state.episodeClosed)

def next (state : SequenceState) (event : EventV1) (status : Bool × Bool) : SequenceState :=
  { sessionID := if state.sessionID = [] then event.sessionID else state.sessionID
    lastEpisodeID := event.episodeID
    lastSeq := event.seq
    lastMonotonicUS := event.monotonicUS
    lastUTC := event.time
    paused := status.1
    episodeClosed := status.2
    seenEpisodes := if state.newEpisode event then state.seenEpisodes ++ [event.episodeID]
      else state.seenEpisodes }

def accept (state : SequenceState) (event : EventV1) : Except String SequenceState := do
  event.validate
  state.acceptOrder event
  state.acceptEpisode event
  let status ← state.lifecycle event
  pure (state.next event status)

/-- The event comes next: the first one resumes, the others follow their predecessor. -/
structure InOrder (state : SequenceState) (event : EventV1) : Prop where
  first : state.sessionID = [] → event.seq = 1 ∧ event.type = .resume
  later : state.sessionID ≠ [] → event.sessionID = state.sessionID ∧
    event.seq = state.lastSeq+1 ∧ state.lastMonotonicUS ≤ event.monotonicUS ∧
    state.lastUTC ≤ event.time

theorem acceptOrder_ok_iff (state : SequenceState) (event : EventV1) :
    state.acceptOrder event = .ok () ↔ state.InOrder event := by
  rw [acceptOrder]
  by_cases hfirst : state.sessionID = []
  · rw [if_pos hfirst, bind_ok_iff, reject_ok_iff, reject_ok_iff, not_not, not_not]
    exact ⟨fun h => ⟨fun _ => h, fun hne => absurd hfirst hne⟩, fun h => h.first hfirst⟩
  · rw [if_neg hfirst, bind_ok_iff, bind_ok_iff, bind_ok_iff, reject_ok_iff, reject_ok_iff,
      reject_ok_iff, reject_ok_iff, not_not, not_not, not_lt]
    refine ⟨fun h => ⟨fun he => absurd he hfirst, fun _ => ?_⟩, fun h => ?_⟩
    · exact ⟨h.1, h.2.1, UInt64.not_lt.mp h.2.2.1, h.2.2.2⟩
    · obtain ⟨hid, hseq, hmono, hutc⟩ := h.later hfirst
      exact ⟨hid, hseq, UInt64.not_lt.mpr hmono, hutc⟩

/-- The event fits into the episodes: a new one starts after the end of the last. -/
structure EpisodeOk (state : SequenceState) (event : EventV1) : Prop where
  fresh : state.newEpisode event = true → event.episodeID ∉ state.seenEpisodes
  room : state.newEpisode event = true → state.seenEpisodes.length < maxEpisodes
  ended : state.newEpisode event = true → state.lastEpisodeID ≠ [] →
    state.episodeClosed = true ∨ state.paused = true
  start : state.newEpisode event = true → state.lastEpisodeID ≠ [] →
    event.type = .composition ∨ event.type = .resume
  stays : state.newEpisode event = false → state.episodeClosed = true →
    event.type = .pause ∨ event.type = .dropCount
  quiet : state.paused = true → event.type = .resume ∨ event.type = .dropCount

theorem acceptEpisode_ok_iff (state : SequenceState) (event : EventV1) :
    state.acceptEpisode event = .ok () ↔ state.EpisodeOk event := by
  rw [acceptEpisode]
  simp only [bind_ok_iff, reject_ok_iff]
  constructor
  · rintro ⟨hfresh, hroom, hended, hstart, hstays, hquiet⟩
    refine ⟨fun hnew hmem => hfresh ⟨hnew, hmem⟩, fun hnew => ?_, fun hnew hlast => ?_,
      fun hnew hlast => ?_, fun hold hclosed => ?_, fun hpaused => ?_⟩
    · exact not_le.mp (fun hfull => hroom ⟨hnew, hfull⟩)
    · by_contra hopen
      rw [not_or, Bool.not_eq_true, Bool.not_eq_true] at hopen
      exact hended ⟨hnew, hlast, hopen.1, hopen.2⟩
    · by_contra hother
      rw [not_or] at hother
      exact hstart ⟨hnew, hlast, hother.1, hother.2⟩
    · by_contra hother
      rw [not_or] at hother
      exact hstays ⟨hold, hclosed, hother.1, hother.2⟩
    · by_contra hother
      rw [not_or] at hother
      exact hquiet ⟨hpaused, hother.1, hother.2⟩
  · intro h
    refine ⟨fun hbad => h.fresh hbad.1 hbad.2, fun hbad => ?_, fun hbad => ?_, fun hbad => ?_,
      fun hbad => ?_, fun hbad => ?_⟩
    · exact absurd (h.room hbad.1) (not_lt.mpr hbad.2)
    · obtain ⟨hnew, hlast, hclosed, hpaused⟩ := hbad
      have hended := h.ended hnew hlast
      rw [hclosed, hpaused] at hended
      rcases hended with hfalse | hfalse <;> cases hfalse
    · rcases h.start hbad.1 hbad.2.1 with htype | htype
      · exact hbad.2.2.1 htype
      · exact hbad.2.2.2 htype
    · rcases h.stays hbad.1 hbad.2.1 with htype | htype
      · exact hbad.2.2.1 htype
      · exact hbad.2.2.2 htype
    · rcases h.quiet hbad.1 with htype | htype
      · exact hbad.2.1 htype
      · exact hbad.2.2 htype

theorem accept_ok_iff (state : SequenceState) (event : EventV1) (state' : SequenceState) :
    state.accept event = .ok state' ↔ event.Valid ∧ state.InOrder event ∧ state.EpisodeOk event ∧
      ∃ status, state.lifecycle event = .ok status ∧ state' = state.next event status := by
  rw [accept, bind_ok_iff, bind_ok_iff, bind_ok_iff, EventV1.validate_ok_iff, acceptOrder_ok_iff,
    acceptEpisode_ok_iff]
  refine and_congr_right (fun _ => and_congr_right (fun _ => and_congr_right (fun _ => ?_)))
  cases state.lifecycle event with
  | error message =>
    refine ⟨fun h => ?_, fun h => ?_⟩
    · cases h
    · obtain ⟨status, hstatus, -⟩ := h
      cases hstatus
  | ok status =>
    refine ⟨fun h => ⟨status, rfl, (Except.ok.inj h).symm⟩, fun h => ?_⟩
    obtain ⟨status', hstatus, rfl⟩ := h
    cases hstatus
    rfl

end SequenceState
end Replay
end YunPin
