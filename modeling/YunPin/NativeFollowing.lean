import YunPin.NativeConversion
import YunPin.ReplayRun

/-! The converter of native frames follows the sequence of the events that it produces: an event is
accepted exactly when its frame joins those before it. -/
namespace YunPin
open ByteText JsonText List

namespace Replay
open CivilTime (isCanonicalUTC formatUTC parseUTC InFourDigitYears)

namespace NativeEventConverter

variable (converter : NativeEventConverter) {frame : NativeFrameV1}

theorem commitOf_none (frame : NativeFrameV1) (h : frame.type ≠ .commit) :
    commitOf frame = none ∧ finalTextOf frame = none := by
  rw [commitOf, finalTextOf, if_neg h, if_neg h]
  exact ⟨rfl, rfl⟩

theorem eventOf_edit (htype : frame.type ≠ .commit) (h : frame.validateEdit = .ok ()) :
    (converter.eventOf frame).validateEdit = .ok () := by
  obtain ⟨hcommit, hfinal⟩ := commitOf_none frame htype
  rw [NativeFrameV1.validateEdit, reject_ok_iff] at h
  rw [EventV1.validateEdit, EventV1.unexpected, bind_ok_iff, reject_ok_iff, reject_ok_iff]
  simp only [eventOf, hcommit, hfinal]
  refine ⟨fun hbad => h ?_, fun hbad => h ?_⟩ <;> tauto

/-- The event of a frame with a valid payload has the shape of its type. -/
theorem eventOf_shape {converter : NativeEventConverter} {frame : NativeFrameV1}
    (h : frame.validateType = .ok ()) : (converter.eventOf frame).validateTypeShape = .ok () := by
  have htype : (converter.eventOf frame).type = frame.type := rfl
  rw [EventV1.validateTypeShape, htype]
  rw [NativeFrameV1.validateType] at h
  by_cases hcommitted : frame.type = .commit
  · rw [hcommitted] at h ⊢
    dsimp only at h ⊢
    rw [bind_ok_iff, reject_ok_iff] at h ⊢
    simp only [reject_ok_iff, eventOf, commitOf, finalTextOf, hcommitted, if_true,
      Option.map_some] at h ⊢
    tauto
  obtain ⟨hcommit, hfinal⟩ := commitOf_none frame hcommitted
  cases hkind : frame.type with
  | commit => exact absurd hkind hcommitted
  | composition | select | abort | dropCount =>
    rw [hkind] at h
    dsimp only at h ⊢
    rw [reject_ok_iff] at h
    simp only [bind_ok_iff, reject_ok_iff, EventV1.unexpected, NativeFrameV1.invalidPayload,
      eventOf, hcommit, hfinal] at h ⊢
    tauto
  | backspace | delete =>
    rw [hkind] at h
    exact eventOf_edit converter hcommitted h
  | pause | resume | other name =>
    rw [hkind] at h
    cases h

theorem commitOf_valid (h : frame.validateType = .ok ()) :
    (∀ commit ∈ commitOf frame, commit.validate = .ok ()) ∧
      ∀ final ∈ finalTextOf frame, final.validate = .ok () := by
  by_cases htype : frame.type = .commit
  · rw [NativeFrameV1.validateType, htype] at h
    have htext := (validateText_ok_iff).mp ((bind_ok_iff _).mp h).2
    rw [commitOf, finalTextOf, if_pos htype, if_pos htype]
    refine ⟨?_, ?_⟩
    · rintro _ ⟨rfl⟩
      rw [CommitV1.validate, bind_ok_iff, validateText_ok_iff, reject_ok_iff, not_not]
      refine ⟨htext, ?_⟩
      dsimp only
      split_ifs <;> decide
    · rintro _ ⟨rfl⟩
      rw [FinalTextV1.validate, bind_ok_iff, bind_ok_iff, validateText_ok_iff]
      exact ⟨htext, rfl, rfl⟩
  · obtain ⟨hcommit, hfinal⟩ := commitOf_none frame htype
    rw [hcommit, hfinal]
    exact ⟨fun _ hmem => (by cases hmem), fun _ hmem => (by cases hmem)⟩

theorem eventOf_valid_iff (h : frame.Valid) (hsession : validID converter.sessionID = true)
    (hepisode : validID converter.episode = true) (hseq : converter.seq ≠ 0) :
    (converter.eventOf frame).Valid ↔ InFourDigitYears converter.utc ∧
      (converter.eventOf frame).marshal.length ≤ maxEventBytes := by
  have hutc : isCanonicalUTC (canonicalUTC converter.utc) = true ↔ InFourDigitYears converter.utc :=
    CivilTime.isCanonicalUTC_formatUTC converter.utc
  refine ⟨fun hvalid => ⟨hutc.mp hvalid.utc, hvalid.size⟩, fun ⟨hyears, hsize⟩ => ?_⟩
  obtain ⟨hcommit, hfinal⟩ := commitOf_valid h.payload
  refine ⟨rfl, hsession, hepisode, hseq, hutc.mpr hyears, h.composition, ?_, hcommit, hfinal,
    eventOf_shape h.payload, hsize⟩
  intro selection hselection
  obtain ⟨composition, hcomposition, hrange, hmatches⟩ := h.selection selection hselection
  have hevent : (converter.eventOf frame).composition = some composition := hcomposition
  rw [EventV1.validateSelection, hevent]
  dsimp only
  rw [bind_ok_iff, reject_ok_iff, reject_ok_iff, hrange, hmatches]
  exact ⟨Bool.noConfusion, Bool.noConfusion⟩

theorem counter_succ {n : UInt64} (h : n.toNat+1 < 2^64) : (n+1).toNat = n.toNat+1 := by
  rw [UInt64.toNat_add, UInt64.toNat_one]
  exact Nat.mod_eq_of_lt h

theorem type_frame (h : frame.validateType = .ok ()) :
    frame.type ≠ .resume ∧ frame.type ≠ .pause ∧ ∀ name, frame.type ≠ .other name := by
  rw [NativeFrameV1.validateType] at h
  refine ⟨fun htype => ?_, fun htype => ?_, fun name htype => ?_⟩
  all_goals
    rw [htype] at h
    cases h

end NativeEventConverter

variable {sha : Sha256} {sessionID : Bytes}

theorem validID_episodeID {counter : UInt64} :
    validID (episodeID sha sessionID counter) = true := by
  rw [validID, decide_eq_true_eq, episodeID, hexEncode_length, length_take, sha.length_eq,
    all_eq_true]
  exact ⟨rfl, fun c hc => decide_eq_true (hexEncode_lower _ c hc)⟩

/-- The identifiers of the first episodes of a session. -/
def episodeIDs (sha : Sha256) (sessionID : Bytes) (count : ℕ) : List Bytes :=
  (List.range count).map (fun i => episodeID sha sessionID (UInt64.ofNat (i+1)))

theorem episodeIDs_succ (sha : Sha256) (sessionID : Bytes) (count : ℕ) :
    episodeIDs sha sessionID (count+1) =
      episodeIDs sha sessionID count ++ [episodeID sha sessionID (UInt64.ofNat (count+1))] := by
  rw [episodeIDs, range_succ, map_append, map_singleton]
  rfl

theorem episodeIDs_nodup {count total : ℕ} (hle : count ≤ total)
    (h : (episodeIDs sha sessionID total).Nodup) :
    (episodeIDs sha sessionID count).Nodup :=
  h.sublist ((range_sublist.mpr hle).map _)

/-- The sequence is in the state that the events of the converter so far have led to. -/
structure Follows (sha : Sha256) (converter : NativeEventConverter) (state : SequenceState) :
    Prop where
  started : converter.seq ≠ 0
  valid : validID converter.sessionID = true
  counted : converter.counter ≠ 0
  episode : converter.episode = episodeID sha converter.sessionID converter.counter
  sessionID : state.sessionID = converter.sessionID
  lastEpisodeID : state.lastEpisodeID = converter.episode
  lastSeq : state.lastSeq = converter.seq
  lastMonotonicUS : state.lastMonotonicUS = converter.mono
  lastUTC : state.lastUTC = converter.utc
  paused : state.paused = false
  episodeClosed : state.episodeClosed = converter.closed
  seenEpisodes : state.seenEpisodes =
    episodeIDs sha converter.sessionID converter.counter.toNat

/-- The frame joins those before it: it is not late, nor later than its episode has room
for, and its event fits a line of the log. -/
structure Joins (sha : Sha256) (converter : NativeEventConverter) (frame : NativeFrameV1)
    (mono : UInt64) (utc : ℤ) : Prop where
  order : converter.closed = true → frame.type = .composition ∨ frame.type = .dropCount
  later : converter.mono ≤ mono
  laterUTC : converter.utc ≤ utc
  years : InFourDigitYears utc
  size : ((converter.entered sha frame mono utc).eventOf frame).marshal.length ≤ maxEventBytes

namespace NativeEventConverter

/-- The frame opens a new episode: the last one is closed, and it is no count of drops. -/
def Renews (converter : NativeEventConverter) (frame : NativeFrameV1) : Prop :=
  converter.closed = true ∧ frame.type ≠ .dropCount

instance (converter : NativeEventConverter) (frame : NativeFrameV1) :
    Decidable (converter.Renews frame) := inferInstanceAs (Decidable (_ ∧ _))

variable {converter : NativeEventConverter} {frame : NativeFrameV1}

theorem entered_new (sha : Sha256) (mono : UInt64) (utc : ℤ) (h : converter.Renews frame) :
    converter.entered sha frame mono utc =
      { sessionID := converter.sessionID
        seq := converter.seq+1
        mono := mono
        utc := utc
        episode := episodeID sha converter.sessionID (converter.counter+1)
        counter := converter.counter+1
        closed := false } := by
  have hclosed : converter.closed = true ∧ frame.type ≠ .dropCount := h
  rw [entered, if_pos hclosed]
  rfl

theorem left_fields (converter : NativeEventConverter) (frame : NativeFrameV1) :
    (converter.left frame).seq = converter.seq ∧
      (converter.left frame).sessionID = converter.sessionID ∧
      (converter.left frame).counter = converter.counter ∧
      (converter.left frame).episode = converter.episode ∧
      (converter.left frame).mono = converter.mono ∧ (converter.left frame).utc = converter.utc := by
  rw [left]
  split_ifs
  · exact ⟨rfl, rfl, rfl, rfl, rfl, rfl⟩
  · exact ⟨rfl, rfl, rfl, rfl, rfl, rfl⟩

theorem entered_same (sha : Sha256) (mono : UInt64) (utc : ℤ) (h : ¬converter.Renews frame) :
    converter.entered sha frame mono utc =
      { converter with seq := converter.seq+1, mono := mono, utc := utc } := by
  have hclosed : ¬(converter.closed = true ∧ frame.type ≠ .dropCount) := h
  rw [entered, if_neg hclosed]

theorem entered_fields (sha : Sha256) (converter : NativeEventConverter) (frame : NativeFrameV1)
    (mono : UInt64) (utc : ℤ) :
    (converter.entered sha frame mono utc).sessionID = converter.sessionID ∧
      (converter.entered sha frame mono utc).seq = converter.seq+1 ∧
      (converter.entered sha frame mono utc).mono = mono ∧
      (converter.entered sha frame mono utc).utc = utc := by
  by_cases hnew : converter.Renews frame
  · rw [entered_new sha mono utc hnew]
    exact ⟨rfl, rfl, rfl, rfl⟩
  · rw [entered_same sha mono utc hnew]
    exact ⟨rfl, rfl, rfl, rfl⟩

end NativeEventConverter

open NativeEventConverter

section Step

variable {converter next : NativeEventConverter} {state : SequenceState}
  {frame : NativeFrameV1} {mono : UInt64} {utc : ℤ}

theorem entered_time (hyears : InFourDigitYears utc) :
    ((converter.entered sha frame mono utc).eventOf frame).time = utc := by
  have hutc := (entered_fields sha converter frame mono utc).2.2.2
  rw [EventV1.time, eventOf, hutc, canonicalUTC, CivilTime.parseUTC_formatUTC hyears,
    Option.getD_some]

variable (h : Follows sha converter state)

include h

theorem Follows.session_ne_nil : state.sessionID ≠ [] := by
  rw [h.sessionID]
  exact validID_ne_nil h.valid

theorem Follows.lastEpisode_ne_nil : state.lastEpisodeID ≠ [] := by
  rw [h.lastEpisodeID, h.episode]
  exact validID_ne_nil (validID_episodeID)

theorem Follows.episode_mem : converter.episode ∈ state.seenEpisodes := by
  have hpos : 0 < converter.counter.toNat :=
    Nat.pos_of_ne_zero (fun hzero => h.counted (UInt64.toNat_inj.mp hzero))
  rw [h.seenEpisodes, h.episode, episodeIDs, mem_map]
  refine ⟨converter.counter.toNat-1, mem_range.mpr (by omega), ?_⟩
  rw [Nat.sub_add_cancel hpos, UInt64.ofNat_toNat]

variable (hn : converter.entered sha frame mono utc = next)

include hn

theorem entered_inOrder_iff (hyears : InFourDigitYears utc) :
    state.InOrder (next.eventOf frame) ↔ converter.mono ≤ mono ∧ converter.utc ≤ utc := by
  obtain ⟨hsession, hseq, hmono, hutc⟩ := entered_fields sha converter frame mono utc
  have htime : ((converter.entered sha frame mono utc).eventOf frame).time = utc :=
    entered_time hyears
  rw [hn] at hsession hseq hmono htime
  constructor
  · intro horder
    obtain ⟨-, -, hlater, hlaterUTC⟩ := horder.later h.session_ne_nil
    rw [eventOf, hmono, h.lastMonotonicUS] at hlater
    rw [htime, h.lastUTC] at hlaterUTC
    exact ⟨hlater, hlaterUTC⟩
  · rintro ⟨hlater, hlaterUTC⟩
    refine ⟨fun hempty => absurd hempty h.session_ne_nil, fun _ => ⟨?_, ?_, ?_, ?_⟩⟩
    · rw [eventOf, hsession, h.sessionID]
    · rw [eventOf, hseq, h.lastSeq]
    · rw [eventOf, hmono, h.lastMonotonicUS]
      exact hlater
    · rw [htime, h.lastUTC]
      exact hlaterUTC

theorem entered_valid_iff (hf : frame.Valid) (hseq : converter.seq+1 ≠ 0) :
    (next.eventOf frame).Valid ↔
      InFourDigitYears utc ∧ (next.eventOf frame).marshal.length ≤ maxEventBytes := by
  have hepisode : validID converter.episode = true := by
    rw [h.episode]
    exact validID_episodeID
  subst hn
  by_cases hnew : converter.Renews frame
  · rw [entered_new sha mono utc hnew]
    exact eventOf_valid_iff _ hf h.valid (validID_episodeID) hseq
  · rw [entered_same sha mono utc hnew]
    exact eventOf_valid_iff _ hf h.valid hepisode hseq

variable (hf : frame.Valid) (hfresh : converter.Renews frame →
  episodeID sha converter.sessionID (converter.counter+1) ∉ state.seenEpisodes)

include hfresh

/-- The sequence sees a new episode exactly when the converter has opened one. -/
theorem newEpisode_iff : state.newEpisode (next.eventOf frame) = true ↔ converter.Renews frame := by
  subst hn
  rw [SequenceState.newEpisode, decide_eq_true_eq]
  by_cases hnew : converter.Renews frame
  · rw [entered_new sha mono utc hnew]
    refine ⟨fun _ => hnew, fun _ => .inr (fun heq => hfresh hnew ?_)⟩
    change episodeID sha converter.sessionID (converter.counter+1) = state.lastEpisodeID at heq
    rw [heq, h.lastEpisodeID]
    exact h.episode_mem
  · rw [entered_same sha mono utc hnew]
    refine ⟨fun hother => ?_, fun hyes => absurd hyes hnew⟩
    rcases hother with hnil | hne
    · exact absurd hnil h.lastEpisode_ne_nil
    · exact absurd h.lastEpisodeID.symm hne

include hf

theorem entered_episodeOk_iff (hroom : state.seenEpisodes.length < maxEpisodes) :
    state.EpisodeOk (next.eventOf frame) ↔
      (converter.closed = true → frame.type = .composition ∨ frame.type = .dropCount) := by
  have hnew := newEpisode_iff h hn hfresh
  have htype : (next.eventOf frame).type = frame.type := rfl
  obtain ⟨hresume, hpause, -⟩ := type_frame hf.payload
  constructor
  · intro hok hclosed
    by_contra hother
    rw [not_or] at hother
    have hstart := hok.start (hnew.mpr ⟨hclosed, hother.2⟩) h.lastEpisode_ne_nil
    rw [htype] at hstart
    rcases hstart with hcomposition | hagain
    · exact hother.1 hcomposition
    · exact hresume hagain
  · intro horder
    refine ⟨fun hyes => ?_, fun _ => hroom, fun hyes _ => ?_, fun hyes _ => ?_,
      fun hno hclosed => ?_, fun hpaused => ?_⟩
    · have hrenews := hnew.mp hyes
      rw [← hn, entered_new sha mono utc hrenews]
      exact hfresh hrenews
    · exact .inl (h.episodeClosed.trans (hnew.mp hyes).1)
    · rw [htype]
      exact .inl ((horder (hnew.mp hyes).1).resolve_right (hnew.mp hyes).2)
    · rw [htype]
      by_contra hother
      rw [not_or] at hother
      rw [hnew.mpr ⟨h.episodeClosed.symm.trans hclosed, hother.2⟩] at hno
      cases hno
    · rw [h.paused] at hpaused
      cases hpaused

theorem entered_lifecycle :
    state.lifecycle (next.eventOf frame) = .ok (false, (next.left frame).closed) := by
  have hnew := newEpisode_iff h hn hfresh
  have htype : (next.eventOf frame).type = frame.type := rfl
  obtain ⟨hresume, hpause, hother⟩ := type_frame hf.payload
  have hopen (hcommit : frame.type ≠ .commit) (habort : frame.type ≠ .abort) :
      (next.left frame).closed =
        if state.newEpisode (next.eventOf frame) then false else state.episodeClosed := by
    rw [left, if_neg (not_or.mpr ⟨hcommit, habort⟩)]
    by_cases hrenews : converter.Renews frame
    · rw [hnew.mpr hrenews, ← hn, entered_new sha mono utc hrenews]
      rfl
    · have hno := Bool.eq_false_iff.mpr (mt hnew.mp hrenews)
      rw [hno, ← hn, entered_same sha mono utc hrenews, h.episodeClosed]
      rfl
  have hclosed (hends : frame.type = .commit ∨ frame.type = .abort) :
      (next.left frame).closed = true := by
    rw [left, if_pos hends]
  rw [SequenceState.lifecycle, htype, h.paused]
  cases hkind : frame.type with
  | resume => exact absurd hkind hresume
  | pause => exact absurd hkind hpause
  | other name => exact absurd hkind (hother name)
  | commit =>
    rw [hclosed (.inl hkind)]
    rfl
  | abort =>
    rw [hclosed (.inr hkind)]
    rfl
  | dropCount =>
    have hno : state.newEpisode (next.eventOf frame) = false :=
      Bool.eq_false_iff.mpr (fun hyes => (hnew.mp hyes).2 hkind)
    rw [hopen (by rw [hkind]; decide) (by rw [hkind]; decide), hno]
    rfl
  | composition | select | backspace | delete =>
    rw [hopen (by rw [hkind]; decide) (by rw [hkind]; decide)]
    rfl

/-- The next event is accepted exactly when its frame joins those before it. -/
theorem accept_entered_iff (hseq : converter.seq+1 ≠ 0)
    (hroom : state.seenEpisodes.length < maxEpisodes) :
    (∃ state', state.accept (next.eventOf frame) = .ok state') ↔
      Joins sha converter frame mono utc := by
  simp only [SequenceState.accept_ok_iff]
  rw [entered_valid_iff h hn hf hseq]
  constructor
  · rintro ⟨state', ⟨hyears, hsize⟩, horder, hepisode, -⟩
    obtain ⟨hlater, hlaterUTC⟩ := (entered_inOrder_iff h hn hyears).mp horder
    exact ⟨(entered_episodeOk_iff h hn hf hfresh hroom).mp hepisode, hlater, hlaterUTC, hyears,
      hn ▸ hsize⟩
  · intro hjoins
    exact ⟨_, ⟨hjoins.years, hn ▸ hjoins.size⟩,
      (entered_inOrder_iff h hn hjoins.years).mpr ⟨hjoins.later, hjoins.laterUTC⟩,
      (entered_episodeOk_iff h hn hf hfresh hroom).mpr hjoins.order, _,
      entered_lifecycle h hn hf hfresh, rfl⟩

/-- And the converter follows the sequence again after it. -/
theorem Follows.entered (hseq : converter.seq+1 ≠ 0) (hcounter : converter.counter.toNat+1 < 2^64)
    {state' : SequenceState} (haccept : state.accept (next.eventOf frame) = .ok state') :
    Follows sha (next.left frame) state' := by
  obtain ⟨hvalid, -, -, status, hstatus, rfl⟩ := (SequenceState.accept_ok_iff _ _ _).mp haccept
  rw [entered_lifecycle h hn hf hfresh] at hstatus
  cases hstatus
  have hnew := newEpisode_iff h hn hfresh
  have hyears := ((entered_valid_iff h hn hf hseq).mp hvalid).1
  obtain ⟨hsession, hcount, hmono, hutc⟩ := entered_fields sha converter frame mono utc
  rw [hn] at hsession hcount hmono hutc
  obtain ⟨lseq, lsession, lcounter, lepisode, lmono, lutc⟩ := left_fields next frame
  obtain ⟨hcounted, hepisode, hseen⟩ : next.counter ≠ 0 ∧
      next.episode = episodeID sha converter.sessionID next.counter ∧
      (state.next (next.eventOf frame) (false, (next.left frame).closed)).seenEpisodes =
        episodeIDs sha converter.sessionID next.counter.toNat := by
    have hsucc := counter_succ hcounter
    rw [SequenceState.next]
    by_cases hrenews : converter.Renews frame
    · rw [hnew.mpr hrenews, ← hn, entered_new sha mono utc hrenews]
      refine ⟨fun hzero => ?_, rfl, ?_⟩
      · have hnat := congrArg UInt64.toNat hzero
        change (converter.counter+1).toNat = 0 at hnat
        omega
      · change state.seenEpisodes ++ [episodeID sha converter.sessionID (converter.counter+1)] =
          episodeIDs sha converter.sessionID (converter.counter+1).toNat
        rw [hsucc, episodeIDs_succ, ← h.seenEpisodes, ← hsucc, UInt64.ofNat_toNat]
    · rw [Bool.eq_false_iff.mpr (mt hnew.mp hrenews), ← hn, entered_same sha mono utc hrenews]
      exact ⟨h.counted, h.episode, h.seenEpisodes⟩
  refine ⟨?_, ?_, ?_, ?_, ?_, ?_, ?_, ?_, ?_, rfl, rfl, ?_⟩
  · rw [lseq, hcount]
    exact hseq
  · rw [lsession, hsession]
    exact h.valid
  · rw [lcounter]
    exact hcounted
  · rw [lepisode, lsession, hsession, lcounter]
    exact hepisode
  · rw [SequenceState.next, if_neg h.session_ne_nil, lsession, hsession]
    exact h.sessionID
  · exact lepisode.symm
  · exact lseq.symm
  · exact lmono.symm
  · rw [lutc, hutc, ← hn]
    exact entered_time hyears
  · rw [hseen, lsession, hsession, lcounter]

end Step

end Replay
end YunPin
