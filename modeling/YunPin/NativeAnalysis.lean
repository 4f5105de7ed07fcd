import YunPin.NativeFollowing

/-! When a native recording can be analysed: the clocks stay in their ranges, every converted event is
short enough, and what follows a commit or an abort is a composition or a report of lost events. -/
namespace YunPin
open ByteText JsonText List

namespace Replay
open CivilTime (isCanonicalUTC formatUTC parseUTC InFourDigitYears)
open NativeEventConverter

structure Analyzer.Keeps (before after : Analyzer) : Prop where
  sequence : after.sequence = before.sequence
  eventCount : after.report.eventCount = before.report.eventCount
  finished : after.finished = before.finished

namespace Analyzer

theorem Keeps.trans {a b c : Analyzer} (h : a.Keeps b) (h' : b.Keeps c) : a.Keeps c :=
  ⟨h'.sequence.trans h.sequence, h'.eventCount.trans h.eventCount, h'.finished.trans h.finished⟩

theorem Keeps.refl {a : Analyzer} : a.Keeps a := ⟨rfl, rfl, rfl⟩

variable (analyzer : Analyzer) (event : EventV1)

theorem keeps_finishEpisode : analyzer.Keeps analyzer.finishEpisode := by
  rw [finishEpisode]
  split_ifs
  · exact ⟨rfl, rfl, rfl⟩
  · exact Keeps.refl

theorem keeps_enterEpisode : analyzer.Keeps (analyzer.enterEpisode event) := by
  rw [enterEpisode]
  split_ifs
  · exact (keeps_finishEpisode analyzer).trans ⟨rfl, rfl, rfl⟩
  · exact Keeps.refl

theorem keeps_noteComposition : analyzer.Keeps (analyzer.noteComposition event) := by
  rw [noteComposition]
  cases event.composition with
  | none => exact Keeps.refl
  | some composition => exact ⟨rfl, rfl, rfl⟩

theorem keeps_noteSelect : analyzer.Keeps (analyzer.noteSelect event) := by
  rw [noteSelect]
  dsimp only
  split_ifs
  · exact ⟨rfl, rfl, rfl⟩
  · exact ⟨rfl, rfl, rfl⟩

theorem keeps_noteCommit : analyzer.Keeps (analyzer.noteCommit event) := by
  rw [noteCommit]
  dsimp only
  split_ifs <;> exact ⟨rfl, rfl, rfl⟩

theorem keeps_noteType : analyzer.Keeps (analyzer.noteType event) := by
  rw [noteType]
  split
  · exact keeps_noteSelect analyzer event
  · exact ⟨rfl, rfl, rfl⟩
  · exact ⟨rfl, rfl, rfl⟩
  · exact ⟨rfl, rfl, rfl⟩
  · exact keeps_noteCommit analyzer event
  · exact Keeps.refl

theorem note_facts (sequence : SequenceState) : (analyzer.note event sequence).sequence = sequence ∧
      (analyzer.note event sequence).report.eventCount = analyzer.report.eventCount+1 ∧
      (analyzer.note event sequence).finished = analyzer.finished := by
  rw [note]
  have hkeeps := (keeps_enterEpisode (analyzer.count event sequence) event).trans
    ((keeps_noteComposition _ event).trans (keeps_noteType _ event))
  exact ⟨hkeeps.sequence, hkeeps.eventCount, hkeeps.finished⟩

theorem accept_ok {sequence : SequenceState} (hopen : analyzer.finished = false)
    (h : analyzer.sequence.accept event = .ok sequence) :
    analyzer.accept event = .ok (analyzer.note event sequence) := by
  rw [accept, hopen, h]
  rfl

theorem accept_inv {after : Analyzer} {event : EventV1} (hopen : analyzer.finished = false)
    (h : analyzer.accept event = .ok after) :
    ∃ sequence, analyzer.sequence.accept event = .ok sequence ∧
      after = analyzer.note event sequence := by
  rw [accept, hopen] at h
  cases hsequence : analyzer.sequence.accept event with
  | error message =>
    rw [hsequence] at h
    cases h
  | ok sequence =>
    rw [hsequence] at h
    exact ⟨sequence, rfl, (Except.ok.inj h).symm⟩

theorem foldlM_single : [event].foldlM accept analyzer = analyzer.accept event := by
  rw [foldlM_cons]
  cases analyzer.accept event with
  | error message => rfl
  | ok after => rfl

end Analyzer

structure Linked (sha : Sha256) (converter : NativeEventConverter) (analyzer : Analyzer) :
    Prop where
  isOpen : analyzer.finished = false
  fresh : converter.seq = 0 → analyzer.sequence = {} ∧ validID converter.sessionID = true ∧
    converter.counter = 0 ∧ converter.closed = false
  follows : converter.seq ≠ 0 → Follows sha converter analyzer.sequence

/-- What the analysis asks of a frame: its order after a closed episode, the ranges of the two
clocks, and the size of the event. -/
structure Convertible (sha : Sha256) (converter : NativeEventConverter) (frame : NativeFrameV1) :
    Prop where
  order : converter.closed = true → frame.type = .composition ∨ frame.type = .dropCount
  mono : (converter.opened sha frame).mono+1 ≠ 0
  zero : converter.seq ≠ 0 → converter.utc = zeroTime → zeroTime ≤ unixMicro frame.utcUnixUS
  years : InFourDigitYears (converter.frameUTC frame)
  size : ((converter.taken sha frame).eventOf frame).marshal.length ≤ maxEventBytes

instance (sha : Sha256) (converter : NativeEventConverter) (frame : NativeFrameV1) :
    Decidable (Convertible sha converter frame) :=
  decidable_of_iff ((converter.closed = true → frame.type = .composition ∨ frame.type = .dropCount) ∧
    (converter.opened sha frame).mono+1 ≠ 0 ∧
    (converter.seq ≠ 0 → converter.utc = zeroTime → zeroTime ≤ unixMicro frame.utcUnixUS) ∧
    InFourDigitYears (converter.frameUTC frame) ∧
    ((converter.taken sha frame).eventOf frame).marshal.length ≤ maxEventBytes)
    ⟨fun ⟨order, mono, zero, years, size⟩ => ⟨order, mono, zero, years, size⟩,
      fun h => ⟨h.order, h.mono, h.zero, h.years, h.size⟩⟩

variable (sha : Sha256) {sessionID : Bytes} (converter : NativeEventConverter)
  (frame : NativeFrameV1)

namespace NativeEventConverter

theorem le_succ_iff {n : UInt64} : n ≤ n+1 ↔ n+1 ≠ 0 := by
  have hn := n.toNat_lt
  rw [UInt64.le_iff_toNat_le, Ne, ← UInt64.toNat_inj, UInt64.toNat_add]
  change n.toNat ≤ (n.toNat+1)%2^64 ↔ ¬(n.toNat+1)%2^64 = 0
  omega

theorem later_iff : (converter.opened sha frame).mono ≤ converter.eventMono frame ↔
      (converter.opened sha frame).mono+1 ≠ 0 := by
  rw [opened, eventMono]
  by_cases hfirst : converter.seq = 0
  · rw [if_pos hfirst, if_pos hfirst]
    exact le_succ_iff
  · rw [if_neg hfirst, if_neg hfirst, frameMono]
    by_cases hback : frame.monotonicUS ≤ converter.mono
    · rw [if_pos ⟨hfirst, hback⟩]
      exact le_succ_iff
    · have hlt := UInt64.not_le.mp hback
      rw [if_neg (fun h => hback h.2), ← le_succ_iff]
      refine ⟨fun _ => ?_, fun _ => UInt64.le_of_lt hlt⟩
      have hbound := frame.monotonicUS.toNat_lt
      rw [UInt64.lt_iff_toNat_lt] at hlt
      rw [UInt64.le_iff_toNat_le, UInt64.toNat_add]
      change converter.mono.toNat ≤ (converter.mono.toNat+1)%2^64
      omega

theorem laterUTC_iff : (converter.opened sha frame).utc ≤ converter.frameUTC frame ↔
      (converter.seq ≠ 0 → converter.utc = zeroTime → zeroTime ≤ unixMicro frame.utcUnixUS) := by
  rw [opened]
  by_cases hfirst : converter.seq = 0
  · rw [if_pos hfirst]
    exact ⟨fun _ hne => absurd hfirst hne, fun _ => le_refl _⟩
  · rw [if_neg hfirst, frameUTC]
    by_cases hback : converter.utc ≠ zeroTime ∧ unixMicro frame.utcUnixUS < converter.utc
    · rw [if_pos hback]
      exact ⟨fun _ _ hzero => absurd hzero hback.1, fun _ => le_refl _⟩
    · rw [if_neg hback]
      constructor
      · intro hle _ hzero
        rw [← hzero]
        exact hle
      · intro hrange
        by_cases hzero : converter.utc = zeroTime
        · rw [hzero]
          exact hrange hfirst hzero
        · exact not_lt.mp (fun hlt => hback ⟨hzero, hlt⟩)

theorem closed_opened : (converter.opened sha frame).closed = converter.closed := by
  rw [opened]
  split_ifs
  · rfl
  · rfl

end NativeEventConverter

theorem joins_iff : Joins sha (converter.opened sha frame) frame (converter.eventMono frame)
      (converter.frameUTC frame) ↔ Convertible sha converter frame := by
  refine ⟨fun h => ⟨?_, ?_, ?_, h.years, h.size⟩, fun h => ⟨?_, ?_, ?_, h.years, h.size⟩⟩
  · rw [← closed_opened sha converter frame]
    exact h.order
  · exact (later_iff sha converter frame).mp h.later
  · exact (laterUTC_iff sha converter frame).mp h.laterUTC
  · rw [closed_opened sha converter frame]
    exact h.order
  · exact (later_iff sha converter frame).mpr h.mono
  · exact (laterUTC_iff sha converter frame).mpr h.zero

theorem resumeEvent_valid (hsession : validID converter.sessionID = true)
    (hepisode : validID converter.episode = true) (hseq : converter.seq ≠ 0)
    (hyears : InFourDigitYears converter.utc) :
    converter.resumeEvent.Valid := by
  have hutc : isCanonicalUTC (canonicalUTC converter.utc) = true :=
    (CivilTime.isCanonicalUTC_formatUTC _).mpr hyears
  have hknown : EventType.resume ∈ EventType.known := by decide
  exact EventV1.bare_valid rfl hsession hepisode hseq hutc hknown rfl rfl rfl rfl rfl rfl

theorem follows_first (hfirst : converter.seq = 0) (hvalid : validID converter.sessionID = true)
    (hcounter : converter.counter = 0) (hclosed : converter.closed = false)
    (hyears : InFourDigitYears (converter.frameUTC frame)) :
    Follows sha (converter.opened sha frame)
      (({} : SequenceState).next (converter.opened sha frame).resumeEvent (false, false)) := by
  have hopened : converter.opened sha frame =
      { sessionID := converter.sessionID
        seq := 1
        mono := converter.frameMono frame
        utc := converter.frameUTC frame
        episode := episodeID sha converter.sessionID 1
        counter := 1
        closed := false } := by
    rw [opened, if_pos hfirst, nextEpisode, hcounter, hclosed]
    rfl
  have hone : (1 : UInt64) ≠ 0 := by decide
  rw [hopened]
  refine ⟨hone, hvalid, hone, rfl, rfl, rfl, rfl, rfl, ?_, rfl, rfl, rfl⟩
  change (parseUTC (formatUTC (converter.frameUTC frame))).getD zeroTime = _
  rw [CivilTime.parseUTC_formatUTC hyears, Option.getD_some]

theorem open_step {analyzer : Analyzer} {frame : NativeFrameV1} (h : Linked sha converter analyzer)
    (hyears : InFourDigitYears (converter.frameUTC frame)) :
    ∃ after, (converter.openingEvents sha frame).foldlM Analyzer.accept analyzer = .ok after ∧
      after.finished = false ∧ Follows sha (converter.opened sha frame) after.sequence ∧
      after.report.eventCount =
        analyzer.report.eventCount+Int64.ofNat (converter.openingEvents sha frame).length := by
  by_cases hfirst : converter.seq = 0
  · obtain ⟨hsequence, hvalid, hcounter, hclosed⟩ := h.fresh hfirst
    have hfollows := follows_first sha converter frame hfirst hvalid hcounter hclosed hyears
    have hutc : (converter.opened sha frame).utc = converter.frameUTC frame := by
      rw [opened, if_pos hfirst]
    have hone : (converter.opened sha frame).seq = 1 := by
      rw [opened, if_pos hfirst]
    have hepisode : validID (converter.opened sha frame).episode = true := by
      rw [hfollows.episode]
      exact validID_episodeID
    have hevent := resumeEvent_valid (converter.opened sha frame) hfollows.valid hepisode
      hfollows.started (hutc ▸ hyears)
    have haccept := SequenceState.accept_first hone rfl hevent
    rw [← hsequence] at haccept
    obtain ⟨hnote, hcount, hopen⟩ := analyzer.note_facts (converter.opened sha frame).resumeEvent
      (analyzer.sequence.next (converter.opened sha frame).resumeEvent (false, false))
    rw [openingEvents, if_pos hfirst, Analyzer.foldlM_single,
      Analyzer.accept_ok analyzer _ h.isOpen haccept]
    refine ⟨_, rfl, hopen.trans h.isOpen, ?_, hcount⟩
    rw [hnote, hsequence]
    exact hfollows
  · rw [openingEvents, opened, if_neg hfirst, if_neg hfirst]
    exact ⟨analyzer, rfl, h.isOpen, h.follows hfirst, by simp⟩

namespace NativeEventConverter

def newEpisodes (converter : NativeEventConverter) (frame : NativeFrameV1) : ℕ :=
  (if converter.seq = 0 then 1 else 0)+(if converter.Renews frame then 1 else 0)

def after (sha : Sha256) (converter : NativeEventConverter) (frame : NativeFrameV1) :
    NativeEventConverter := (converter.taken sha frame).left frame

theorem renews_opened : (converter.opened sha frame).Renews frame ↔ converter.Renews frame := by
  rw [Renews, Renews, closed_opened]

theorem sessionID_opened : (converter.opened sha frame).sessionID = converter.sessionID := by
  rw [opened]
  split_ifs
  · rfl
  · rfl

theorem counter_opened (h : converter.counter.toNat+1 < 2^64) :
    (converter.opened sha frame).counter.toNat =
      converter.counter.toNat+if converter.seq = 0 then 1 else 0 := by
  rw [opened]
  split_ifs
  · exact counter_succ h
  · rfl

theorem seq_opened : (converter.opened sha frame).seq.toNat ≤ converter.seq.toNat+1 := by
  rw [opened]
  split_ifs
  · change 1 ≤ converter.seq.toNat+1
    omega
  · omega

end NativeEventConverter

section Frame

variable {sha converter frame} {analyzer : Analyzer} {total : ℕ}

theorem episodeID_fresh {counter : UInt64} (hcount : counter.toNat+1 ≤ total)
    (htotal : total < maxEpisodes) (hnodup : (episodeIDs sha sessionID total).Nodup) :
    episodeID sha sessionID (counter+1) ∉ episodeIDs sha sessionID counter.toNat := by
  have hsmall : counter.toNat+1 < 2^64 := by
    rw [maxEpisodes] at htotal
    omega
  have hnext := episodeIDs_nodup hcount hnodup
  rw [episodeIDs_succ, ← counter_succ hsmall, UInt64.ofNat_toNat] at hnext
  intro hmem
  exact (disjoint_of_nodup_append hnext) hmem (mem_singleton_self _)

variable {events : List EventV1}

theorem convert_ok_iff (hf : frame.Valid) {after : NativeEventConverter} :
    converter.convert sha frame = (after, .ok events) ↔
      ((converter.taken sha frame).eventOf frame).Valid ∧
        after = converter.after sha frame ∧
        events = converter.openingEvents sha frame ++
          [(converter.taken sha frame).eventOf frame] := by
  rw [convert, (NativeFrameV1.validate_ok_iff frame).mpr hf]
  dsimp only
  cases hvalidate : ((converter.taken sha frame).eventOf frame).validate with
  | error message =>
    refine ⟨fun h => ?_, fun h => ?_⟩
    · cases h
    · rw [(EventV1.validate_ok_iff _).mpr h.1] at hvalidate
      cases hvalidate
  | ok u =>
    have hvalid := (EventV1.validate_ok_iff _).mp hvalidate
    refine ⟨fun h => ?_, fun ⟨_, hafter, hevents⟩ => ?_⟩
    · cases h
      exact ⟨hvalid, rfl, rfl⟩
    · rw [hafter, hevents]
      rfl

theorem foldlM_snoc {mid : Analyzer} {event : EventV1}
    (h : events.foldlM Analyzer.accept analyzer = .ok mid) :
    (events ++ [event]).foldlM Analyzer.accept analyzer = mid.accept event := by
  rw [foldlM_append, h]
  exact Analyzer.foldlM_single mid event

/-- What is needed of the converter when it takes a frame: its counters do not wrap, and the next
identifier is new. -/
structure Room (sha : Sha256) (converter : NativeEventConverter) (frame : NativeFrameV1)
    (total : ℕ) : Prop where
  seq : converter.seq.toNat+2 < 2^64
  count : converter.counter.toNat+converter.newEpisodes frame ≤ total
  few : total < maxEpisodes
  distinct : (episodeIDs sha converter.sessionID total).Nodup

theorem Room.next (h : Room sha converter frame total) :
    (converter.opened sha frame).seq+1 ≠ 0 := by
  have hopened := seq_opened sha converter frame
  have hseq := h.seq
  intro hzero
  have hnat := congrArg UInt64.toNat hzero
  rw [counter_succ (by omega)] at hnat
  exact Nat.succ_ne_zero _ hnat

theorem Room.small (h : Room sha converter frame total) : total < 2^64-1 := by
  have hfew := h.few
  rw [maxEpisodes] at hfew
  omega

theorem Room.counter (h : Room sha converter frame total) :
    (converter.opened sha frame).counter.toNat =
      converter.counter.toNat+if converter.seq = 0 then 1 else 0 := by
  have hcount := h.count
  have hsmall := h.small
  exact counter_opened sha converter frame (by omega)

theorem Room.fresh (h : Room sha converter frame total) {state : SequenceState}
    (hfollows : Follows sha (converter.opened sha frame) state) :
    (converter.opened sha frame).Renews frame → episodeID sha (converter.opened sha frame).sessionID
      ((converter.opened sha frame).counter+1) ∉ state.seenEpisodes := by
  intro hrenews
  have hcount := h.count
  rw [newEpisodes, if_pos ((renews_opened sha converter frame).mp hrenews), ← add_assoc,
    ← h.counter] at hcount
  rw [hfollows.seenEpisodes, sessionID_opened]
  exact episodeID_fresh hcount h.few h.distinct

theorem Room.places (h : Room sha converter frame total) {state : SequenceState}
    (hfollows : Follows sha (converter.opened sha frame) state) :
    state.seenEpisodes.length < maxEpisodes := by
  have hcount := h.count
  rw [newEpisodes, ← add_assoc, ← h.counter] at hcount
  rw [hfollows.seenEpisodes, episodeIDs, length_map, length_range]
  exact lt_of_le_of_lt (le_trans (Nat.le_add_right _ _) hcount) h.few

theorem analyse_convertible (h : Linked sha converter analyzer) (hf : frame.Valid)
    (hroom : Room sha converter frame total) (hconvertible : Convertible sha converter frame) :
    ∃ events analyzer', converter.convert sha frame = (converter.after sha frame, .ok events) ∧
      events.foldlM Analyzer.accept analyzer = .ok analyzer' ∧
      Linked sha (converter.after sha frame) analyzer' ∧
      analyzer'.report.eventCount = analyzer.report.eventCount+
        Int64.ofNat ((converter.openingEvents sha frame).length+1) := by
  obtain ⟨mid, hfold, hopen, hfollows, hmid⟩ :=
    open_step sha converter h hconvertible.years
  have hfresh := hroom.fresh hfollows
  obtain ⟨state, haccept⟩ := (accept_entered_iff hfollows rfl hf hfresh hroom.next
    (hroom.places hfollows)).mpr ((joins_iff sha converter frame).mpr hconvertible)
  have hcounter : (converter.opened sha frame).counter.toNat+1 < 2^64 := by
    have hcount := hroom.count
    have hsmall := hroom.small
    rw [newEpisodes, ← add_assoc, ← hroom.counter] at hcount
    omega
  have hafter := hfollows.entered rfl hf hfresh hroom.next hcounter haccept
  obtain ⟨hsequence, hcount, hfinished⟩ := mid.note_facts ((converter.taken sha frame).eventOf frame)
    state
  refine ⟨_, _, (convert_ok_iff hf).mpr ⟨SequenceState.accept_valid haccept, rfl, rfl⟩, ?_,
    ⟨hfinished.trans hopen, fun hzero => absurd hzero hafter.started, fun _ => ?_⟩, ?_⟩
  · rw [foldlM_snoc hfold]
    exact Analyzer.accept_ok mid _ hopen haccept
  · rw [hsequence]
    exact hafter
  · rw [hcount, hmid, Int64.ofNat_add, ← Int64.add_assoc]
    rfl

theorem convertible_of_analysed (h : Linked sha converter analyzer) (hf : frame.Valid)
    (hroom : Room sha converter frame total) {converter' : NativeEventConverter} {analyzer' : Analyzer}
    (hconvert : converter.convert sha frame = (converter', .ok events))
    (haccepted : events.foldlM Analyzer.accept analyzer = .ok analyzer') :
    Convertible sha converter frame := by
  obtain ⟨hvalid, -, rfl⟩ := (convert_ok_iff hf).mp hconvert
  have hyears : InFourDigitYears (converter.frameUTC frame) := by
    have hutc := (entered_fields sha (converter.opened sha frame) frame (converter.eventMono frame)
      (converter.frameUTC frame)).2.2.2
    rw [← CivilTime.isCanonicalUTC_formatUTC, ← hutc]
    exact hvalid.utc
  obtain ⟨mid, hfold, hopen, hfollows, -⟩ := open_step sha converter h hyears
  rw [foldlM_snoc hfold] at haccepted
  obtain ⟨state, haccept, -⟩ := Analyzer.accept_inv mid hopen haccepted
  exact (joins_iff sha converter frame).mp ((accept_entered_iff hfollows rfl hf
    (hroom.fresh hfollows) hroom.next (hroom.places hfollows)).mp ⟨state, haccept⟩)

end Frame

def Analysable (sha : Sha256) : NativeEventConverter → List NativeFrameV1 → Prop
  | _, [] => True
  | converter, frame :: rest =>
    Convertible sha converter frame ∧ Analysable sha (converter.after sha frame) rest

instance decidableAnalysable (sha : Sha256) (converter : NativeEventConverter) :
    (frames : List NativeFrameV1) → Decidable (Analysable sha converter frames)
  | [] => isTrue trivial
  | frame :: rest =>
    have := decidableAnalysable sha (converter.after sha frame) rest
    inferInstanceAs (Decidable (_ ∧ _))

def episodeCount (sha : Sha256) : NativeEventConverter → List NativeFrameV1 → ℕ
  | _, [] => 0
  | converter, frame :: rest =>
    converter.newEpisodes frame+episodeCount sha (converter.after sha frame) rest

namespace NativeEventConverter

theorem after_fields : (converter.after sha frame).sessionID = converter.sessionID ∧
      (converter.after sha frame).seq = (converter.opened sha frame).seq+1 := by
  obtain ⟨hsession, hseq, -⟩ := entered_fields sha (converter.opened sha frame) frame
    (converter.eventMono frame) (converter.frameUTC frame)
  obtain ⟨lseq, lsession, -⟩ := left_fields (converter.taken sha frame) frame
  exact ⟨lsession.trans (hsession.trans (sessionID_opened sha converter frame)),
    lseq.trans hseq⟩

theorem counter_after (h : converter.counter.toNat+converter.newEpisodes frame < 2^64-1) :
    (converter.after sha frame).counter.toNat =
      converter.counter.toNat+converter.newEpisodes frame := by
  have hopened := counter_opened sha converter frame (by omega)
  rw [after, (left_fields _ frame).2.2.1, taken, newEpisodes, ← add_assoc, ← hopened]
  rw [newEpisodes, ← add_assoc, ← hopened] at h
  by_cases hrenews : converter.Renews frame
  · rw [entered_new _ _ _ ((renews_opened sha converter frame).mpr hrenews), if_pos hrenews]
    exact counter_succ (by omega)
  · rw [entered_same _ _ _ (mt (renews_opened sha converter frame).mp hrenews),
      if_neg hrenews]
    rfl

end NativeEventConverter

theorem length_openingEvents : (converter.openingEvents sha frame).length =
      if converter.seq = 0 then 1 else 0 := by
  rw [openingEvents]
  split_ifs
  · rfl
  · rfl

/-- The loop passes exactly the analysable frames, and counts one event for each of them and one for
the start of the session. -/
theorem analyzeFrames_iff {sha : Sha256} {total : ℕ} (hfew : total < maxEpisodes)
    {frames : List NativeFrameV1} (line : ℕ) (converter : NativeEventConverter)
    (analyzer : Analyzer) (h : Linked sha converter analyzer)
    (hvalid : ∀ frame ∈ frames, frame.Valid) (hseq : converter.seq.toNat+2*frames.length+1 < 2^64)
    (hcount : converter.counter.toNat+episodeCount sha converter frames ≤ total)
    (hdistinct : (episodeIDs sha converter.sessionID total).Nodup) :
    ((∃ after, analyzeFrames sha line converter analyzer frames = .ok after) ↔
        Analysable sha converter frames) ∧
      ∀ after, analyzeFrames sha line converter analyzer frames = .ok after →
        after.report.eventCount = analyzer.report.eventCount+
          Int64.ofNat (frames.length+if converter.seq = 0 ∧ frames ≠ [] then 1 else 0) := by
  induction frames generalizing line converter analyzer with
  | nil =>
    refine ⟨⟨fun _ => trivial, fun _ => ⟨analyzer, rfl⟩⟩, fun after hafter => ?_⟩
    cases hafter
    simp
  | cons frame rest ih =>
    obtain ⟨hf, hrest⟩ := forall_mem_cons.mp hvalid
    rw [episodeCount, ← add_assoc] at hcount
    rw [length_cons] at hseq
    have hroom : Room sha converter frame total := ⟨by omega, by omega, hfew, hdistinct⟩
    have hsmall := hroom.small
    obtain ⟨hsession, hnext⟩ := after_fields sha converter frame
    have hcounter := counter_after sha converter frame (by omega)
    have hopened := seq_opened sha converter frame
    have hseqNext : (converter.after sha frame).seq.toNat =
        (converter.opened sha frame).seq.toNat+1 := by
      rw [hnext]
      exact counter_succ (by omega)
    have hloop (events : List EventV1) (analyzer' : Analyzer)
        (hconvert : converter.convert sha frame = (converter.after sha frame, .ok events))
        (haccept : events.foldlM Analyzer.accept analyzer = .ok analyzer') :
        analyzeFrames sha line converter analyzer (frame :: rest) =
          analyzeFrames sha (line+1) (converter.after sha frame) analyzer' rest := by
      rw [analyzeFrames, hconvert]
      dsimp only
      rw [haccept]
    have hpassed (after : Analyzer)
        (hafter : analyzeFrames sha line converter analyzer (frame :: rest) = .ok after) :
        Convertible sha converter frame := by
      rw [analyzeFrames] at hafter
      cases hconvert : converter.convert sha frame with
      | mk converter' result =>
        rw [hconvert] at hafter
        cases result with
        | error message => cases hafter
        | ok events =>
          dsimp only at hafter
          cases hfold : events.foldlM Analyzer.accept analyzer with
          | error message =>
            rw [hfold] at hafter
            cases hafter
          | ok analyzer' =>
            exact convertible_of_analysed h hf hroom hconvert hfold
    by_cases hconvertible : Convertible sha converter frame
    · obtain ⟨events, analyzer', hconvert, haccept, hlinked, hevents⟩ :=
        analyse_convertible h hf hroom hconvertible
      obtain ⟨hiff, hcounted⟩ := ih (line+1) (converter.after sha frame) analyzer' hlinked hrest
        (by omega) (by omega) (hsession ▸ hdistinct)
      rw [hloop events analyzer' hconvert haccept, Analysable]
      refine ⟨hiff.trans ⟨fun hothers => ⟨hconvertible, hothers⟩, And.right⟩, fun after hafter => ?_⟩
      have hstarted : (converter.after sha frame).seq ≠ 0 := by
        intro hzero
        rw [hzero, UInt64.toNat_zero] at hseqNext
        exact Nat.succ_ne_zero _ hseqNext.symm
      have hlater : ¬((converter.after sha frame).seq = 0 ∧ rest ≠ []) :=
        fun hboth => hstarted hboth.1
      rw [hcounted after hafter, if_neg hlater, hevents, length_openingEvents, Int64.add_assoc,
        ← Int64.ofNat_add]
      congr 2
      simp only [length_cons, ne_eq, reduceCtorEq, not_false_eq_true, and_true]
      omega
    · refine ⟨⟨fun ⟨last, hlast⟩ => absurd (hpassed last hlast) hconvertible,
        fun hall => absurd hall.1 hconvertible⟩, fun after hafter => ?_⟩
      exact absurd (hpassed after hafter) hconvertible

theorem linked_fresh (sessionID : Bytes) (h : validID sessionID = true) :
    Linked sha { sessionID := sessionID } {} :=
  ⟨rfl, fun _ => ⟨rfl, h, rfl, rfl⟩, fun hne => absurd rfl hne⟩

theorem eventCount_finish (analyzer : Analyzer) :
    analyzer.finish.report.eventCount = analyzer.report.eventCount := by
  rw [Analyzer.finish]
  split_ifs
  · rfl
  · exact (Analyzer.keeps_finishEpisode analyzer).eventCount

theorem analyzeNative_eq (hsession : validID sessionID = true) (frames : List NativeFrameV1) :
    analyzeNative sha sessionID frames =
      (analyzeFrames sha 1 { sessionID := sessionID } {} frames).map (fun analyzer =>
        { analyzer.finish.report with nativeEventCount := Int64.ofNat frames.length }) := by
  rw [analyzeNative, newNativeEventConverter, if_neg (by rw [hsession]; decide)]
  change (analyzeFrames sha 1 { sessionID := sessionID } {} frames >>= fun analyzer => pure
    { analyzer.finish.report with nativeEventCount := Int64.ofNat frames.length }) = _
  cases analyzeFrames sha 1 { sessionID := sessionID } {} frames with
  | error message => rfl
  | ok analyzer => rfl

theorem analyzeNative_ok (hsession : validID sessionID = true) {frames : List NativeFrameV1}
    {report : Report} (h : analyzeNative sha sessionID frames = .ok report) :
    ∃ analyzer, analyzeFrames sha 1 { sessionID := sessionID } {} frames = .ok analyzer := by
  rw [analyzeNative_eq sha hsession] at h
  cases hloop : analyzeFrames sha 1 { sessionID := sessionID } {} frames with
  | error message =>
    rw [hloop] at h
    cases h
  | ok analyzer => exact ⟨analyzer, rfl⟩

/-- A recording of valid frames is analysed, with one event for each frame and one for the start,
exactly when each frame is convertible after those before it and the count has room in an `int`. -/
theorem native_recording_analysed (sha : Sha256) (sessionID : Bytes)
    (hsession : validID sessionID = true) (frames : List NativeFrameV1)
    (hvalid : ∀ frame ∈ frames, frame.validate = .ok ())
    (hfew : episodeCount sha { sessionID := sessionID } frames < 10^6)
    (hdistinct : (episodeIDs sha sessionID
      (episodeCount sha { sessionID := sessionID } frames)).Nodup) :
    (∃ report, analyzeNative sha sessionID frames = .ok report ∧
        (frames ≠ [] → report.eventCount.toInt = frames.length+1)) ↔
      Analysable sha { sessionID := sessionID } frames ∧ frames.length+1 < 2^63 := by
  have hframes : ∀ frame ∈ frames, frame.Valid :=
    fun frame hframe => (NativeFrameV1.validate_ok_iff frame).mp (hvalid frame hframe)
  by_cases hlength : frames.length+1 < 2^63
  · have hseq : (0 : UInt64).toNat+2*frames.length+1 < 2^64 := by
      rw [UInt64.toNat_zero]
      omega
    obtain ⟨hiff, hcounted⟩ := analyzeFrames_iff hfew 1 { sessionID := sessionID } {}
      (linked_fresh sha sessionID hsession) hframes hseq (le_of_eq (Nat.zero_add _)) hdistinct
    rw [and_iff_left hlength, ← hiff]
    constructor
    · rintro ⟨report, hreport, -⟩
      exact analyzeNative_ok sha hsession hreport
    · rintro ⟨analyzer, hanalyzer⟩
      refine ⟨_, by rw [analyzeNative_eq sha hsession, hanalyzer]; rfl, fun hne => ?_⟩
      change analyzer.finish.report.eventCount.toInt = _
      rw [eventCount_finish, hcounted analyzer hanalyzer, if_pos ⟨rfl, hne⟩]
      change (0+Int64.ofNat (frames.length+1)).toInt = _
      rw [Int64.zero_add, Int64.toInt_ofNat_of_lt hlength]
      rfl
  · refine ⟨fun ⟨report, _, hcount⟩ => ?_, fun hboth => absurd hboth.2 hlength⟩
    have hne : frames ≠ [] := by
      rintro rfl
      exact hlength (by decide)
    have hbound := report.eventCount.toInt_lt
    rw [hcount hne] at hbound
    omega

def sampleSha : Sha256 where
  sum message := (message.reverse ++ List.replicate 32 0).take 32
  length_eq message := by
    rw [length_take, length_append, length_replicate]
    omega

def sampleSession : Bytes := List.replicate 32 0x30

def frameAt (time : UInt64) (type : EventType) : NativeFrameV1 :=
  { version := nativeEventVersionV1, monotonicUS := time, utcUnixUS := time, type
    composition := some {} }

def commitFrame : NativeFrameV1 := { frameAt 1 .commit with finalText := lit "a" }

def backspaceFrame : NativeFrameV1 := { frameAt 2 .backspace with editCount := 1 }

/-- A commit, a drop count in the closed episode, and a new composition after the clock went
back. -/
def laggingFrames : List NativeFrameV1 :=
  [commitFrame, { frameAt 9 .dropCount with composition := none, dropCount := 3 },
    frameAt 2 .composition]

theorem native_recording_sample : ∃ report,
    analyzeNative sampleSha sampleSession laggingFrames = .ok report ∧
      (laggingFrames ≠ [] → report.eventCount.toInt = laggingFrames.length+1) :=
  (native_recording_analysed sampleSha sampleSession (by decide) laggingFrames (by decide +kernel)
    (by decide) (by decide +kernel)).mpr ⟨by decide +kernel, by decide⟩

/-- Two valid frames that the analyzer does not take: after a commit comes a backspace. -/
theorem commit_then_backspace :
    (∀ frame ∈ [commitFrame, backspaceFrame], frame.validate = .ok ()) ∧
      episodeCount sampleSha { sessionID := sampleSession } [commitFrame, backspaceFrame] = 2 ∧
      (episodeIDs sampleSha sampleSession 2).Nodup ∧
      ∀ report, analyzeNative sampleSha sampleSession [commitFrame, backspaceFrame] ≠ .ok report := by
  have hvalid : ∀ frame ∈ [commitFrame, backspaceFrame], frame.validate = .ok () := by
    decide +kernel
  have hdistinct : (episodeIDs sampleSha sampleSession 2).Nodup := by decide +kernel
  refine ⟨hvalid, by decide, hdistinct, fun report hreport => ?_⟩
  have hlinked := linked_fresh sampleSha sampleSession (by decide)
  have hall := (analyzeFrames_iff (by decide) 1 _ _ hlinked
    (fun frame hframe => (NativeFrameV1.validate_ok_iff frame).mp (hvalid frame hframe)) (by decide)
    (by decide) hdistinct).1.mp (analyzeNative_ok sampleSha (by decide) hreport)
  rcases hall.2.1.order (by decide) with htype | htype <;> cases htype

end Replay
end YunPin
