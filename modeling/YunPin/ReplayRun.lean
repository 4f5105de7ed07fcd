import YunPin.ReplayStore

/-! What the runs of the store keep: the metadata say of the log's end what the log says, or are one
event behind it after a crash, and the log holds the events that have been appended. -/
namespace YunPin
open ByteText JsonText List

namespace Replay
open CivilTime (isCanonicalUTC formatUTC parseUTC InFourDigitYears)

structure SequenceState.Live (state : SequenceState) : Prop where
  sessionID : validID state.sessionID = true
  episodeID : validID state.lastEpisodeID = true
  lastSeq : state.lastSeq ≠ 0
  lastUTC : InFourDigitYears state.lastUTC

theorem validID_ne_nil {value : Bytes} (h : validID value = true) : value ≠ [] := by
  rintro rfl
  cases h

theorem EventV1.Valid.time {event : EventV1} (h : event.Valid) :
    canonicalUTC event.time = event.utc ∧ InFourDigitYears event.time := by
  have hutc := h.utc
  rw [isCanonicalUTC] at hutc
  cases hparse : parseUTC event.utc with
  | none =>
    rw [hparse] at hutc
    cases hutc
  | some t =>
    rw [hparse] at hutc
    have hformat : formatUTC t = event.utc := of_decide_eq_true hutc
    rw [EventV1.time, hparse, Option.getD_some]
    refine ⟨hformat, (CivilTime.isCanonicalUTC_formatUTC t).mp ?_⟩
    rw [hformat]
    exact h.utc

variable {disk : Disk} {data : Bytes} (log : List EventV1) (event : EventV1)

theorem EventV1.bare_valid {event : EventV1} (hversion : event.version = eventVersionV1)
    (hsession : validID event.sessionID = true) (hepisode : validID event.episodeID = true)
    (hpos : event.seq ≠ 0) (hutc : isCanonicalUTC event.utc = true)
    (htype : event.type ∈ EventType.known) (hshape : event.validateTypeShape = .ok ())
    (hcomposition : event.composition = none) (hselection : event.selection = none)
    (hcommit : event.commit = none) (hedit : event.editCount = 0)
    (hfinal : event.finalText = none) : event.Valid := by
  have hname : event.type.text.length ≤ 20 := by
    simp only [EventType.known, mem_cons, not_mem_nil, or_false] at htype
    rcases htype with h | h | h | h | h | h | h | h | h <;> rw [h] <;> decide
  have hdate := (CivilTime.isCanonicalUTC_plain hutc).1
  have hversionText := goQuote_length event.version
  have hsessionText := goQuote_length event.sessionID
  have hepisodeText := goQuote_length event.episodeID
  have hutcText := goQuote_length event.utc
  have htypeText := goQuote_length event.type.text
  have hnumber (n : UInt64) : (decimal n.toNat).length ≤ 20 :=
    decimal_length_le n.toNat (by decide) (lt_trans n.toNat_lt (by decide))
  have hseq := hnumber event.seq
  have hmono := hnumber event.monotonicUS
  have hdrop : ((counterMember (lit "drop_count") event.dropCount.toNat).map
      (fun m => m.key.length+m.text.length+4)).sum ≤ 34 := by
    rw [counterMember]
    split_ifs
    · exact Nat.zero_le _
    · have hcount := hnumber event.dropCount
      have hkey : (lit "drop_count").length = 10 := by decide
      simp only [map_cons, map_nil, sum_cons, sum_nil, Member.ofNat]
      omega
  have hversionSize : eventVersionV1.length = 22 := by decide
  have hkeys : (lit "version").length = 7 ∧ (lit "session_id").length = 10 ∧
      (lit "episode_id").length = 10 ∧ (lit "seq").length = 3 ∧ (lit "monotonic_us").length = 12 ∧
      (lit "utc").length = 3 ∧ (lit "type").length = 4 := by decide
  rw [hversion, hversionSize] at hversionText
  rw [(validID_bytes hsession).1] at hsessionText
  rw [(validID_bytes hepisode).1] at hepisodeText
  have hsum : (event.members.map (fun m => m.key.length+m.text.length+4)).sum ≤ 1024 := by
    rw [EventV1.members, EventV1.required, hcomposition, hselection, hcommit, hedit, hfinal]
    simp only [optionMember, Option.map_none, Option.toList_none, nil_append, append_nil,
      UInt32.toNat_zero, map_append, sum_append, map_cons, map_nil,
      sum_cons, sum_nil, Member.ofString, Member.ofNat, hversion]
    rw [counterMember, if_pos rfl, map_nil, sum_nil]
    omega
  have hsize : event.marshal.length ≤ maxEventBytes := by
    rw [maxEventBytes]
    exact le_trans (memberTexts_length _) (by omega)
  exact ⟨hversion, hsession, hepisode, hpos, hutc, by simp [hcomposition], by simp [hselection],
    by simp [hcommit], by simp [hfinal], hshape, hsize⟩

namespace SequenceState

variable {state state' : SequenceState} {event}

theorem accept_next (h : state.accept event = .ok state') : state'.lastSeq = event.seq ∧
      state'.lastEpisodeID = event.episodeID ∧ state'.lastUTC = event.time ∧
      state'.sessionID = event.sessionID := by
  obtain ⟨-, horder, -, status, -, rfl⟩ := (accept_ok_iff state event state').mp h
  refine ⟨rfl, rfl, rfl, ?_⟩
  change (if state.sessionID = [] then event.sessionID else state.sessionID) = event.sessionID
  split_ifs with hfirst
  · rfl
  · exact (horder.later hfirst).1.symm

theorem accept_first (hseq : event.seq = 1) (htype : event.type = .resume) (h : event.Valid) :
    ({} : SequenceState).accept event = .ok (({} : SequenceState).next event (false, false)) := by
  have hlifecycle : ({} : SequenceState).lifecycle event = .ok (false, false) := by
    rw [lifecycle, htype]
    rfl
  refine (accept_ok_iff _ _ _).mpr ⟨h, ⟨fun _ => ⟨hseq, htype⟩, fun hne => ?_⟩,
    ⟨fun _ => not_mem_nil, fun _ => by decide, fun _ hne => ?_, fun _ hne => ?_,
      fun _ hclosed => ?_, fun hpaused => ?_⟩, (false, false), hlifecycle, rfl⟩
  · exact absurd rfl hne
  · exact absurd rfl hne
  · exact absurd rfl hne
  · cases hclosed
  · cases hpaused

theorem accept_valid (h : state.accept event = .ok state') : event.Valid :=
  ((accept_ok_iff state event state').mp h).1

theorem accept_live (h : state.accept event = .ok state') : state'.Live := by
  have hvalid := accept_valid h
  obtain ⟨hseq, hepisode, hutc, hsession⟩ := accept_next h
  refine ⟨?_, ?_, ?_, ?_⟩
  · rw [hsession]
    exact hvalid.sessionID
  · rw [hepisode]
    exact hvalid.episodeID
  · rw [hseq]
    exact hvalid.seq
  · rw [hutc]
    exact hvalid.time.2

theorem accept_later (hlive : state.Live) (h : state.accept event = .ok state') :
    state'.sessionID = state.sessionID ∧ event.seq = state.lastSeq+1 := by
  obtain ⟨-, horder, -⟩ := (accept_ok_iff state event state').mp h
  obtain ⟨hsession, hseq, -⟩ := horder.later (validID_ne_nil hlive.sessionID)
  exact ⟨(accept_next h).2.2.2.trans hsession, hseq⟩

theorem accept_ahead (hlive : state.Live) (h : state.accept event = .ok state') :
    state.lastSeq < state'.lastSeq := by
  have hseq := (accept_later hlive h).2
  have hne := (accept_valid h).seq
  rw [(accept_next h).1]
  rw [hseq] at hne ⊢
  have hbound := state.lastSeq.toNat_lt
  rw [UInt64.lt_iff_toNat_lt, UInt64.toNat_add]
  rw [Ne, ← UInt64.toNat_inj, UInt64.toNat_add] at hne
  simp only [UInt64.toNat_one, UInt64.toNat_zero] at hne ⊢
  omega

def dropEvent (state : SequenceState) : EventV1 :=
  { version := eventVersionV1
    sessionID := state.sessionID
    episodeID := state.lastEpisodeID
    seq := state.lastSeq+1
    monotonicUS := state.lastMonotonicUS
    utc := canonicalUTC state.lastUTC
    type := .dropCount
    dropCount := 1 }

theorem accept_dropEvent (h : state.Live) (hseq : state.lastSeq+1 ≠ 0) :
    ∃ state', state.accept state.dropEvent = .ok state' := by
  have hutc : isCanonicalUTC (canonicalUTC state.lastUTC) = true :=
    (CivilTime.isCanonicalUTC_formatUTC _).mpr h.lastUTC
  have hknown : EventType.dropCount ∈ EventType.known := by decide
  have htime : state.dropEvent.time = state.lastUTC := by
    rw [EventV1.time]
    change (parseUTC (formatUTC state.lastUTC)).getD zeroTime = _
    rw [CivilTime.parseUTC_formatUTC h.lastUTC, Option.getD_some]
  have hold : state.newEpisode state.dropEvent = false := by
    rw [newEpisode, decide_eq_false_iff_not, not_or, not_not]
    exact ⟨validID_ne_nil h.episodeID, rfl⟩
  refine ⟨_, (accept_ok_iff _ _ _).mpr ⟨?_, ⟨?_, ?_⟩, ?_, (state.paused, state.episodeClosed), rfl,
    rfl⟩⟩
  · exact EventV1.bare_valid rfl h.sessionID h.episodeID hseq hutc hknown rfl rfl rfl rfl rfl rfl
  · exact fun hempty => absurd hempty (validID_ne_nil h.sessionID)
  · exact fun _ => ⟨rfl, rfl, UInt64.le_refl _, le_of_eq htime.symm⟩
  · refine ⟨fun hnew => ?_, fun hnew => ?_, fun hnew => ?_, fun hnew => ?_, fun _ _ => .inr rfl,
      fun _ => .inr rfl⟩
    all_goals
      rw [hold] at hnew
      cases hnew

end SequenceState

structure SessionMetadata.Disabled (metadata : SessionMetadata) : Prop where
  version : metadata.version = sessionVersion
  updatedUTC : isCanonicalUTC metadata.updatedUTC = true
  state : metadata.state = .disabled
  sessionID : metadata.sessionID = []
  eventFile : metadata.eventFile = []
  startedUTC : metadata.startedUTC = []
  lastUTC : metadata.lastUTC = []
  lastSeq : metadata.lastSeq = 0

structure SessionMetadata.Active (metadata : SessionMetadata) : Prop where
  version : metadata.version = sessionVersion
  updatedUTC : isCanonicalUTC metadata.updatedUTC = true
  state : metadata.state = .running ∨ metadata.state = .paused
  sessionID : validID metadata.sessionID = true
  lastEpisodeID : validID metadata.lastEpisodeID = true
  lastSeq : metadata.lastSeq ≠ 0
  startedUTC : isCanonicalUTC metadata.startedUTC = true
  lastUTC : isCanonicalUTC metadata.lastUTC = true
  eventFile : metadata.eventFile = eventFileOf metadata.sessionID

variable {metadata : SessionMetadata}

namespace SessionMetadata

theorem Disabled.check (h : metadata.Disabled) : metadata.check = .ok () := by
  rw [SessionMetadata.check, h.state]
  simp only [bind_ok_iff, reject_ok_iff, not_or, not_not, Bool.not_eq_false]
  exact ⟨h.version, h.updatedUTC, h.sessionID, h.eventFile, h.startedUTC, h.lastUTC, h.lastSeq⟩

theorem Active.check (h : metadata.Active) : metadata.check = .ok () := by
  rw [SessionMetadata.check]
  rcases h.state with hstate | hstate
  all_goals
    rw [hstate]
    simp only [bind_ok_iff, reject_ok_iff, not_or, not_not, Bool.not_eq_false]
    exact ⟨h.version, h.updatedUTC, h.sessionID, h.lastEpisodeID, h.lastSeq, h.startedUTC,
      h.lastUTC, h.eventFile⟩

theorem Active.ne_disabled (h : metadata.Active) : metadata.state ≠ .disabled := by
  rcases h.state with hstate | hstate
  · rw [hstate]
    decide
  · rw [hstate]
    decide

theorem Active.eventFile_ne_nil (h : metadata.Active) : metadata.eventFile ≠ [] := by
  rw [h.eventFile]
  exact append_ne_nil_of_left_ne_nil (by decide) _

theorem Active.advance (h : metadata.Active) {state : SequenceState} (hlive : state.Live)
    {updatedUTC : Bytes} (hupdated : isCanonicalUTC updatedUTC = true) :
    (metadata.advance state updatedUTC).Active := by
  have hlast := (CivilTime.isCanonicalUTC_formatUTC _).mpr hlive.lastUTC
  refine ⟨h.version, hupdated, ?_, h.sessionID, hlive.episodeID, hlive.lastSeq, h.startedUTC, hlast,
    h.eventFile⟩
  change state.name = _ ∨ state.name = _
  rw [SequenceState.name]
  split_ifs
  · exact .inr rfl
  · exact .inl rfl

theorem agrees_advance {state : SequenceState} {updatedUTC : Bytes} :
    (metadata.advance state updatedUTC).Agrees state := ⟨rfl, rfl, rfl, rfl, rfl, rfl⟩

end SessionMetadata

/-- The log of the session holds the lines of the events, which end in a given state. -/
structure Logged (disk : Disk) (data : Bytes) (log : List EventV1) (state : SequenceState) :
    Prop where
  active : disk.metadata.Active
  file : disk.files.find? disk.metadata.eventFile = some data
  lines : scanLines data = log.map EventV1.marshal
  valid : ∀ event ∈ log, event.Valid
  accepted : log.foldlM SequenceState.accept {} = .ok state
  live : state.Live
  session : state.sessionID = disk.metadata.sessionID

variable {log} {state : SequenceState}

theorem Logged.forEachEvent (h : Logged disk data log state) {σ : Type}
    (accept : σ → EventV1 → Except String σ) {s s' : σ} (haccept : log.foldlM accept s = .ok s') :
    forEachEvent accept s data = .ok s' := by
  have hall := forEachLine_log accept 1 s [] h.valid haccept
  rw [append_nil] at hall
  rw [Replay.forEachEvent, h.lines, hall]
  rfl

theorem Logged.scanSession (h : Logged disk data log state) :
    disk.scanSession disk.metadata.eventFile = .ok state := by
  rw [Disk.scanSession, if_neg h.active.eventFile_ne_nil, h.file]
  exact h.forEachEvent SequenceState.accept h.accepted

theorem Logged.readEvents (h : Logged disk data log state) : readEvents data = .ok log :=
  h.forEachEvent collect (foldlM_collect log [])

theorem Logged.saveMetadata (h : Logged disk data log state) {updatedUTC : Bytes}
    (hupdated : isCanonicalUTC updatedUTC = true) :
    Logged (Store.saveMetadata disk (disk.metadata.advance state updatedUTC)) data log state :=
  ⟨h.active.advance h.live hupdated, h.file, h.lines, h.valid, h.accepted, h.live, h.session⟩

/-- An open store whose cache, metadata and log say the same. -/
structure Settled (store : Store) (data : Bytes) (log : List EventV1) (state : SequenceState) :
    Prop where
  logged : Logged store.disk data log state
  agrees : store.disk.metadata.Agrees state
  cache : store.cache = some (store.disk.metadata, state)

theorem Settled.behind {store : Store} {event : EventV1} {state' : SequenceState}
    (h : Settled store data log state) (haccept : state.accept event = .ok state') :
    store.disk.metadata.lastSeq < state'.lastSeq := by
  rw [h.agrees.lastSeq]
  exact SequenceState.accept_ahead h.logged.live haccept

namespace Store

theorem loadMetadata_ok (h : disk.metadata.check = .ok ()) :
    disk.loadMetadata = .ok disk.metadata := by
  rw [Disk.loadMetadata, h]
  rfl

variable (store : Store) (clock : Clock)

theorem crossCheck_agrees (hsession : state.sessionID = store.disk.metadata.sessionID)
    (hagrees : store.disk.metadata.Agrees state) :
    store.crossCheck clock store.disk.metadata state =
      (⟨store.disk, some (store.disk.metadata, state)⟩, .ok store.disk.metadata) := by
  have hlt := UInt64.lt_irrefl state.lastSeq
  rw [crossCheck, if_neg (fun h => h.2 hsession), hagrees.lastSeq, if_neg hlt, if_neg hlt, if_neg]
  rintro ⟨-, h | h | h | h | h⟩
  · exact h hagrees.lastEpisodeID.symm
  · exact h hagrees.lastMonotonicUS.symm
  · exact h hagrees.lastUTC.symm
  · exact h hagrees.episodeClosed.symm
  · exact h hagrees.state.symm

theorem crossCheck_behind (hsession : state.sessionID = store.disk.metadata.sessionID)
    (hbehind : store.disk.metadata.lastSeq < state.lastSeq) :
    store.crossCheck clock store.disk.metadata state =
      (⟨saveMetadata store.disk
          (store.disk.metadata.advance state (canonicalUTC clock.instant)),
        some (store.disk.metadata.advance state (canonicalUTC clock.instant), state)⟩,
        .ok (store.disk.metadata.advance state (canonicalUTC clock.instant))) := by
  rw [crossCheck, if_neg (fun h => h.2 hsession), if_neg (UInt64.lt_asymm hbehind), if_pos hbehind]

theorem status_openAt (clock : Clock) (h : Logged disk data log state)
    (hmetadata : disk.metadata.Agrees state ∨ disk.metadata.lastSeq < state.lastSeq) :
    ∃ store, (openAt disk).status clock = (store, .ok store.disk.metadata) ∧
      Settled store data log state := by
  have hstatus : (openAt disk).status clock =
      (openAt disk).crossCheck clock disk.metadata state := by
    rw [status]
    dsimp only [openAt]
    rw [loadMetadata_ok h.active.check]
    dsimp only
    rw [if_neg (validID_ne_nil h.active.sessionID), h.scanSession]
  rcases hmetadata with hagrees | hbehind
  · exact ⟨_, hstatus.trans (crossCheck_agrees (openAt disk) clock h.session hagrees),
      h, hagrees, rfl⟩
  · have hclock : isCanonicalUTC (canonicalUTC clock.instant) = true :=
      (CivilTime.isCanonicalUTC_formatUTC _).mpr clock.sane
    exact ⟨_, hstatus.trans (crossCheck_behind (openAt disk) clock h.session hbehind),
      h.saveMetadata hclock, SessionMetadata.agrees_advance, rfl⟩

theorem status_cached (h : store.cache = some (metadata, state)) :
    store.status clock = (store, .ok metadata) := by
  rw [status, h]

theorem status_disabled (h : store.disk.metadata.Disabled)
    (hcache : ∀ entry ∈ store.cache, entry = (store.disk.metadata, {})) :
    store.status clock =
      (⟨store.disk, some (store.disk.metadata, {})⟩, .ok store.disk.metadata) := by
  obtain ⟨disk, cache⟩ := store
  cases cache with
  | some entry =>
    rw [hcache entry rfl]
    rfl
  | none =>
    rw [status]
    dsimp only
    rw [loadMetadata_ok h.check]
    dsimp only
    rw [if_pos h.sessionID]

end Store

/-- The cache holds the metadata of the disk, which say of the log's end what the log says; without
a cache the metadata may also be behind the log. -/
def Store.Cached (store : Store) (state : SequenceState) : Prop :=
  store.cache = some (store.disk.metadata, state) ∧ store.disk.metadata.Agrees state ∨
    store.cache = none ∧ (store.disk.metadata.Agrees state ∨
      store.disk.metadata.lastSeq < state.lastSeq)

/-- A store without a session and with the files that were there, or a store whose log holds the
events. The last line end may be missing only where no event can follow. -/
inductive Tracks (stale : SortedMap Bytes Bytes) : Store → List EventV1 → Prop where
  | idle (store : Store) (disabled : store.disk.metadata.Disabled)
      (files : store.disk.files = stale)
      (cache : ∀ entry ∈ store.cache, entry = (store.disk.metadata, {})) : Tracks stale store []
  | active (store : Store) (data : Bytes) (log : List EventV1) (state : SequenceState)
      (logged : Logged store.disk data log state)
      (whole : data = log.flatMap eventLine ∨ state.lastSeq+1 = 0)
      (cache : store.Cached state) : Tracks stale store log

theorem Settled.tracks {store : Store} (h : Settled store data log state)
    (stale : SortedMap Bytes Bytes) (whole : data = log.flatMap eventLine ∨ state.lastSeq+1 = 0) :
    Tracks stale store log :=
  .active store data log state h.logged whole (.inl ⟨h.cache, h.agrees⟩)

namespace Store

variable (store : Store) (now : ℤ) (session episode : RandomID) (clock : Clock)

theorem status_active {store : Store} (clock : Clock) (h : Logged store.disk data log state)
    (hcache : store.Cached state) : ∃ store', store.status clock = (store', .ok store'.disk.metadata) ∧
      Settled store' data log state := by
  rcases hcache with ⟨hcache, hagrees⟩ | ⟨hcache, hmetadata⟩
  · exact ⟨store, status_cached store clock hcache, h, hagrees, hcache⟩
  · obtain ⟨disk, cache⟩ := store
    cases hcache
    exact status_openAt clock h hmetadata

theorem events_status {store' : Store} {clock : Clock}
    (hstatus : store.status clock = (store', .ok metadata)) (hne : metadata.eventFile ≠ [])
    (hfile : store'.disk.files.find? metadata.eventFile = some data) :
    store.events clock = (store', readEvents data) := by
  rw [events, hstatus]
  dsimp only
  rw [if_neg hne, hfile]

theorem events_tracks {stale : SortedMap Bytes Bytes} {store : Store} {clock : Clock}
    (h : Tracks stale store log) : (store.events clock).2 = .ok log := by
  cases h with
  | idle disabled files cache =>
    rw [events, status_disabled store clock disabled cache]
    dsimp only
    rw [if_pos disabled.eventFile]
  | active data _ state logged whole cache =>
    obtain ⟨store', hstatus, hsettled⟩ := status_active clock logged cache
    rw [events_status store hstatus hsettled.logged.active.eventFile_ne_nil hsettled.logged.file]
    exact hsettled.logged.readEvents

theorem status_tracks {stale : SortedMap Bytes Bytes} {store : Store} (clock : Clock)
    (h : Tracks stale store log) : ∃ metadata, (store.status clock).2 = .ok metadata := by
  cases h with
  | idle disabled files cache =>
    rw [status_disabled store clock disabled cache]
    exact ⟨_, rfl⟩
  | active data _ state logged whole cache =>
    obtain ⟨store', hstatus, -⟩ := status_active clock logged cache
    rw [hstatus]
    exact ⟨_, rfl⟩

def appendWrite (store : Store) (event : EventV1) (state : SequenceState) : Write :=
  ⟨event, store.disk.metadata.advance state event.utc,
    some (store.disk.metadata.advance state event.utc, state)⟩

/-- A call on an active session is refused, or appends an event that its log accepts. -/
def Appends (store : Store) (state : SequenceState) (result : Store × Except String Write) : Prop :=
  (∃ message, result = (store, .error message)) ∨ ∃ event state', state.accept event = .ok state' ∧
    result = (store, .ok (store.appendWrite event state'))

section Settled

-- The first call of `Status` settles the store, and what follows finds the cache.
variable {store clock} {store' : Store}
  (hstatus : store.status clock = (store', .ok store'.disk.metadata))
  (h : Settled store' data log state)
include hstatus h

theorem prepareAppend_eq (event : EventV1) : store.prepareAppend clock event =
    match state.accept event with
    | .error message => (store', .error ("reject event: " ++ message))
    | .ok state' => (store', .ok (store'.appendWrite event state')) := by
  have hsequence : store'.cachedSequence = state := by
    rw [cachedSequence, h.cache]
    rfl
  rw [prepareAppend, hstatus]
  dsimp only
  rw [if_neg h.logged.active.ne_disabled, hsequence]
  cases haccept : state.accept event with
  | error message => rfl
  | ok state' =>
    have hencode := (encodeEventV1_ok_iff event event.marshal).mpr
      ⟨SequenceState.accept_valid haccept, rfl⟩
    dsimp only
    rw [hencode]
    rfl

theorem prepareAppend_appends (event : EventV1) :
    store'.Appends state (store.prepareAppend clock event) := by
  rw [prepareAppend_eq hstatus h event]
  cases haccept : state.accept event with
  | error message => exact .inl ⟨_, rfl⟩
  | ok state' => exact .inr ⟨event, state', haccept, rfl⟩

theorem prepareControl_appends (verb : String) (needed : LabState)
    (make : SessionMetadata → EventV1) :
    store'.Appends state (store.prepareControl clock verb needed make) := by
  rw [prepareControl, hstatus]
  dsimp only
  split_ifs
  · exact .inl ⟨_, rfl⟩
  · exact prepareAppend_appends (status_cached store' clock h.cache) h _

end Settled

/-- On an active session an operation settles the store and appends at most an accepted event. -/
theorem prepare_active {store : Store} {op : Op} (hop : op.isStart = false)
    (h : Logged store.disk data log state) (hcache : store.Cached state) :
    ∃ store', Settled store' data log state ∧ store'.Appends state (store.prepare op) := by
  cases op with
  | start now session episode => cases hop
  | append clock event =>
    obtain ⟨store', hstatus, hsettled⟩ := status_active clock h hcache
    exact ⟨store', hsettled, prepareAppend_appends hstatus hsettled event⟩
  | pause clock now | resume clock now episode =>
    obtain ⟨store', hstatus, hsettled⟩ := status_active clock h hcache
    exact ⟨store', hsettled, prepareControl_appends hstatus hsettled _ _ _⟩

theorem prepareStart_active (h : store.disk.metadata.Active) :
    ∃ message, store.prepareStart now session episode = (store, .error message) := by
  rw [prepareStart, loadMetadata_ok h.check]
  dsimp only
  rw [if_pos h.ne_disabled]
  exact ⟨_, rfl⟩

theorem accept_startEvent {sessionID episodeID : Bytes}
    (h : (startEvent now sessionID episodeID).Valid) :
    ({} : SequenceState).accept (startEvent now sessionID episodeID) =
      .ok (({} : SequenceState).next (startEvent now sessionID episodeID) (false, false)) :=
  SequenceState.accept_first rfl rfl h

def startWrite (now : ℤ) (sessionID episodeID : Bytes) : Write :=
  ⟨startEvent now sessionID episodeID, startMetadata now sessionID episodeID,
    some (startMetadata now sessionID episodeID,
      ({} : SequenceState).next (startEvent now sessionID episodeID) (false, false))⟩

theorem validID_newID (id : RandomID) : validID (newID id) = true := by
  rw [validID, decide_eq_true_eq, newID, hexEncode_length, id.length_eq, all_eq_true]
  exact ⟨rfl, fun c hc => decide_eq_true (hexEncode_lower id.raw c hc)⟩

theorem startEvent_valid (now : Clock) (session episode : RandomID) :
    (startEvent now.instant (newID session) (newID episode)).Valid := by
  have hutc : isCanonicalUTC (canonicalUTC now.instant) = true :=
    (CivilTime.isCanonicalUTC_formatUTC _).mpr now.sane
  have hone : (1 : UInt64) ≠ 0 := by decide
  have hknown : EventType.resume ∈ EventType.known := by decide
  exact EventV1.bare_valid rfl (validID_newID session) (validID_newID episode) hone hutc hknown
    rfl rfl rfl rfl rfl rfl

theorem startMetadata_facts {sessionID episodeID : Bytes}
    (h : (startEvent now sessionID episodeID).Valid) :
    (startMetadata now sessionID episodeID).Active ∧
      (startMetadata now sessionID episodeID).Agrees
        (({} : SequenceState).next (startEvent now sessionID episodeID) (false, false)) := by
  have hutc : isCanonicalUTC (canonicalUTC now) = true := h.utc
  have hone : (1 : UInt64) ≠ 0 := by decide
  refine ⟨⟨rfl, hutc, .inl rfl, h.sessionID, h.episodeID, hone, hutc, hutc, rfl⟩,
    ⟨rfl, rfl, rfl, h.time.1.symm, rfl, rfl⟩⟩

theorem prepareStart_eq (h : store.disk.metadata.Disabled) :
    store.prepareStart now session episode =
      match encodeEventV1 (startEvent now (newID session) (newID episode)) with
      | .error message => (store, .error message)
      | .ok _ => (store, .ok (startWrite now (newID session) (newID episode))) := by
  rw [prepareStart, loadMetadata_ok h.check]
  dsimp only
  rw [if_neg (not_not.mpr h.state)]
  cases hencode : encodeEventV1 (startEvent now (newID session) (newID episode)) with
  | error message => rfl
  | ok text =>
    dsimp only
    rw [accept_startEvent now ((encodeEventV1_ok_iff _ _).mp hencode).1]
    rfl

theorem prepareStart_disabled (h : store.disk.metadata.Disabled) :
    (∃ message, store.prepareStart now session episode = (store, .error message)) ∨
      ((startEvent now (newID session) (newID episode)).Valid ∧
        store.prepareStart now session episode =
          (store, .ok (startWrite now (newID session) (newID episode)))) := by
  rw [prepareStart_eq store now session episode h]
  cases hencode : encodeEventV1 (startEvent now (newID session) (newID episode)) with
  | error message => exact .inl ⟨message, rfl⟩
  | ok text => exact .inr ⟨((encodeEventV1_ok_iff _ _).mp hencode).1, rfl⟩

theorem prepare_disabled {op : Op} (hop : op.isStart = false) (h : store.disk.metadata.Disabled)
    (hcache : ∀ entry ∈ store.cache, entry = (store.disk.metadata, {})) :
    ∃ message, store.prepare op =
      (⟨store.disk, some (store.disk.metadata, {})⟩, .error message) := by
  have hcontrol (clock : Clock) (verb : String) (needed : LabState)
      (make : SessionMetadata → EventV1) (hneeded : needed ≠ .disabled) :
      ∃ message, store.prepareControl clock verb needed make =
        (⟨store.disk, some (store.disk.metadata, {})⟩, .error message) := by
    rw [prepareControl, status_disabled store clock h hcache]
    dsimp only
    rw [h.state, if_pos hneeded.symm]
    exact ⟨_, rfl⟩
  cases op with
  | start now session episode => cases hop
  | append clock event =>
    rw [prepare, prepareAppend, status_disabled store clock h hcache]
    dsimp only
    rw [if_pos h.state]
    exact ⟨_, rfl⟩
  | pause clock now | resume clock now episode => exact hcontrol clock _ _ _ (by decide)

end Store

theorem take_eventLine : (eventLine event).take event.marshal.length = event.marshal ∧
      (eventLine event).take (event.marshal.length+1) = eventLine event := by
  rw [eventLine]
  refine ⟨take_left, take_of_length_le ?_⟩
  rw [length_append, length_singleton]

theorem flatMap_snoc :
    (log ++ [event]).flatMap eventLine = log.flatMap eventLine ++ eventLine event := by
  rw [flatMap_append, flatMap_singleton]

theorem scanLines_unended (hlog : ∀ e ∈ log, e.Valid) (hevent : event.Valid) :
    scanLines (log.flatMap eventLine ++ event.marshal) = (log ++ [event]).map EventV1.marshal := by
  have hdenotes := denotes_event event hevent
  rw [scanLines_log hlog hdenotes.visible, if_neg hdenotes.nonempty, map_append, map_singleton]

theorem scanLines_ended (hlog : ∀ e ∈ log, e.Valid) :
    scanLines (log.flatMap eventLine) = log.map EventV1.marshal := by
  have hall := scanLines_log hlog visible_nil
  rwa [append_nil, if_pos rfl] at hall

theorem scanLines_joined {second : EventV1} (hlog : ∀ e ∈ log, e.Valid) (hevent : event.Valid)
    (hsecond : second.Valid) :
    scanLines (log.flatMap eventLine ++ event.marshal ++ eventLine second) =
      log.map EventV1.marshal ++ [event.marshal ++ second.marshal] := by
  have hvisible := (denotes_event event hevent).visible.append
    (denotes_event second hsecond).visible
  have hrows := scanLines_rows (log.map EventV1.marshal ++ [event.marshal ++ second.marshal]) []
    (by
      intro row hrow
      rcases mem_append.mp hrow with hmem | hmem
      · obtain ⟨e, he, rfl⟩ := mem_map.mp hmem
        exact newline_not_mem (denotes_event e (hlog e he)).visible
      · rw [mem_singleton.mp hmem]
        exact newline_not_mem hvisible)
    not_mem_nil
  rw [if_pos rfl, append_nil, flatMap_append, flatMap_map, flatMap_singleton]
    at hrows
  rw [← hrows, eventLine, append_assoc, append_assoc]
  rfl

theorem accepted_snoc {state' : SequenceState}
    (hlog : log.foldlM SequenceState.accept {} = .ok state) (h : state.accept event = .ok state') :
    (log ++ [event]).foldlM SequenceState.accept {} = .ok state' := by
  rw [foldlM_append, hlog]
  change (state.accept event >>= fun s => pure s) = _
  rw [h]
  rfl

theorem valid_snoc (hlog : ∀ e ∈ log, e.Valid) (hevent : event.Valid) :
    ∀ e ∈ log ++ [event], e.Valid := by
  intro e he
  rcases mem_append.mp he with hmem | hmem
  · exact hlog e hmem
  · rw [mem_singleton.mp hmem]
    exact hevent

namespace Store

variable {store : Store}

theorem crash_file (event : EventV1) (state' : SequenceState) (bytes : ℕ)
    (h : store.disk.files.find? store.disk.metadata.eventFile = some data) :
    (store.crash (store.appendWrite event state') bytes).files.find?
      store.disk.metadata.eventFile = some (data ++ (eventLine event).take bytes) := by
  have hfile : (store.appendWrite event state').metadata.eventFile =
      store.disk.metadata.eventFile := rfl
  rw [crash, appendEventFile, hfile, SortedMap.find?_insert_self, h]
  rfl

theorem crash_logged {state' : SequenceState} {event : EventV1} {bytes : ℕ}
    (h : Logged store.disk data log state) (whole : data = log.flatMap eventLine)
    (haccept : state.accept event = .ok state')
    (hbytes : bytes = event.marshal.length ∨ bytes = event.marshal.length+1) :
    Logged (store.crash (store.appendWrite event state') bytes)
      (data ++ (eventLine event).take bytes) (log ++ [event]) state' := by
  have hevent := SequenceState.accept_valid haccept
  have hvalid := valid_snoc event h.valid hevent
  refine ⟨h.active, crash_file event state' bytes h.file, ?_, hvalid,
    accepted_snoc event h.accepted haccept, SequenceState.accept_live haccept,
    (SequenceState.accept_later h.live haccept).1.trans h.session⟩
  rw [whole]
  rcases hbytes with rfl | rfl
  · rw [(take_eventLine event).1]
    exact scanLines_unended event h.valid hevent
  · rw [(take_eventLine event).2, ← flatMap_snoc]
    exact scanLines_ended hvalid

theorem length_eventLine : (eventLine event).length = event.marshal.length+1 := by
  rw [eventLine, length_append, length_singleton]

theorem complete_append {state' : SequenceState} {event : EventV1}
    (h : Settled store data log state) (whole : data = log.flatMap eventLine)
    (haccept : state.accept event = .ok state') :
    Settled (store.complete (store.appendWrite event state'))
      ((log ++ [event]).flatMap eventLine) (log ++ [event]) state' := by
  have hlogged := crash_logged h.logged whole haccept (.inr rfl)
  rw [(take_eventLine event).2, whole, ← flatMap_snoc] at hlogged
  have hsaved := hlogged.saveMetadata (SequenceState.accept_valid haccept).utc
  rw [← length_eventLine] at hsaved
  exact ⟨hsaved, SessionMetadata.agrees_advance, rfl⟩

theorem complete_start {now : ℤ} {sessionID episodeID : Bytes}
    (hvalid : (startEvent now sessionID episodeID).Valid)
    (hfresh : store.disk.files.find? (eventFileOf sessionID) = none) :
    Settled (store.complete (startWrite now sessionID episodeID))
      ([startEvent now sessionID episodeID].flatMap eventLine) [startEvent now sessionID episodeID]
      (({} : SequenceState).next (startEvent now sessionID episodeID) (false, false)) := by
  obtain ⟨hactive, hagrees⟩ := startMetadata_facts now hvalid
  have haccept := accept_startEvent now hvalid
  have hall : ∀ e ∈ [startEvent now sessionID episodeID], e.Valid :=
    forall_mem_singleton.mpr hvalid
  refine ⟨⟨hactive, ?_, scanLines_ended hall, hall, @accepted_snoc [] _ {} _ rfl haccept,
    SequenceState.accept_live haccept, rfl⟩, hagrees, rfl⟩
  change (appendEventFile store.disk.files (eventFileOf sessionID)
    (startEvent now sessionID episodeID)
    (eventLine (startEvent now sessionID episodeID)).length).find? (eventFileOf sessionID) = _
  rw [appendEventFile, SortedMap.find?_insert_self, hfresh, flatMap_singleton]
  change some ([] ++ List.take _ _) = _
  rw [nil_append, take_of_length_le (le_refl _)]

end Store

theorem Op.start_of_isStart (op : Op) (h : op.isStart = true) :
    ∃ now session episode, op = .start now session episode := by
  cases op with
  | start now session episode => exact ⟨now, session, episode, rfl⟩
  | append clock event | pause clock now | resume clock now episode => cases h

def Move.Avoids (files : SortedMap Bytes Bytes) : Move → Prop
  | .call (.start _ session _) => files.find? (eventFileOf (newID session)) = none
  | _ => True

namespace Store

variable (stale : SortedMap Bytes Bytes) (store : Store)

theorem call_ok {store' : Store} {op : Op} {write : Write}
    (h : store.prepare op = (store', .ok write)) :
    store.step (.call op) = store'.complete write ∧ store.appended (.call op) = [write.event] := by
  rw [step, call, appended, h]
  exact ⟨rfl, rfl⟩

theorem whole_of_accept {state' : SequenceState} {event : EventV1} (hlive : state.Live)
    (haccept : state.accept event = .ok state')
    (h : data = log.flatMap eventLine ∨ state.lastSeq+1 = 0) : data = log.flatMap eventLine := by
  rcases h with hwhole | hend
  · exact hwhole
  · rw [← (SequenceState.accept_later hlive haccept).2] at hend
    exact absurd hend (SequenceState.accept_valid haccept).seq

/-- What an operation can decide: nothing, the start of a session, or an accepted event. -/
inductive Prepared (stale : SortedMap Bytes Bytes) (log : List EventV1) :
    Op → Store × Except String Write → Prop where
  | refused (op : Op) (store : Store) (message : String) (tracks : Tracks stale store log) :
      Prepared stale log op (store, .error message)
  | started (now : ℤ) (session episode : RandomID) (store : Store)
      (disabled : store.disk.metadata.Disabled) (files : store.disk.files = stale)
      (empty : log = []) (valid : (startEvent now (newID session) (newID episode)).Valid) :
      Prepared stale log (.start now session episode)
        (store, .ok (startWrite now (newID session) (newID episode)))
  | accepted (op : Op) (hop : op.isStart = false) (store : Store) (state state' : SequenceState)
      (event : EventV1) (settled : Settled store (log.flatMap eventLine) log state)
      (accept : state.accept event = .ok state') :
      Prepared stale log op (store, .ok (store.appendWrite event state'))

theorem prepare_tracks (op : Op) (h : Tracks stale store log) :
    Prepared stale log op (store.prepare op) := by
  cases h with
  | idle disabled files cache =>
    cases hop : op.isStart with
    | false =>
      obtain ⟨message, herror⟩ := prepare_disabled store hop disabled cache
      rw [herror]
      refine .refused op _ message (.idle _ disabled files (fun entry hentry => ?_))
      exact (Option.some.inj hentry).symm
    | true =>
      obtain ⟨now, session, episode, rfl⟩ := op.start_of_isStart hop
      rw [prepare]
      rcases prepareStart_disabled store now session episode disabled with
        ⟨message, herror⟩ | ⟨hvalid, hok⟩
      · rw [herror]
        exact .refused _ store message (.idle store disabled files cache)
      · rw [hok]
        exact .started now session episode store disabled files rfl hvalid
  | active data _ state logged whole cache =>
    cases hop : op.isStart with
    | true =>
      obtain ⟨now, session, episode, rfl⟩ := op.start_of_isStart hop
      obtain ⟨message, herror⟩ := prepareStart_active store now session episode logged.active
      rw [prepare, herror]
      exact .refused _ store message (.active store data log state logged whole cache)
    | false =>
      obtain ⟨store', hsettled, hresult⟩ := prepare_active hop logged cache
      rcases hresult with ⟨message, herror⟩ | ⟨event, state', haccept, hok⟩
      · rw [herror]
        exact .refused op store' message (hsettled.tracks stale whole)
      · rw [hok]
        rw [whole_of_accept logged.live haccept whole] at hsettled
        exact .accepted op hop store' state state' event hsettled haccept

theorem step_tracks {move : Move} (havoids : move.Avoids stale) (h : Tracks stale store log) :
    Tracks stale (store.step move) (log ++ store.appended move) := by
  cases move with
  | reopen =>
    rw [appended, append_nil]
    cases h with
    | idle disabled files cache =>
      exact .idle (openAt store.disk) disabled files (fun _ hmem => by cases hmem)
    | active data _ state logged whole cache =>
      refine .active (openAt store.disk) data log state logged whole (.inr ⟨rfl, ?_⟩)
      rcases cache with hcache | hcache
      · exact .inl hcache.2
      · exact hcache.2
  | call op =>
    have hprepared := prepare_tracks stale store op h
    rw [step, call, appended]
    generalize store.prepare op = result at hprepared
    cases hprepared with
    | refused _ store' message tracks =>
      rw [append_nil]
      exact tracks
    | started now session episode store' disabled files empty valid =>
      rw [Move.Avoids, ← files] at havoids
      rw [empty]
      exact (complete_start valid havoids).tracks stale (.inl rfl)
    | accepted _ hop store' state state' event settled accept =>
      exact (complete_append settled rfl accept).tracks stale (.inl rfl)

theorem run_tracks (moves : List Move) (store : Store) (log : List EventV1)
    (havoids : ∀ move ∈ moves, move.Avoids stale) (h : Tracks stale store log) :
    Tracks stale (store.run moves) (log ++ store.completed moves) := by
  induction moves generalizing store log with
  | nil =>
    rw [completed, append_nil]
    exact h
  | cons move rest ih =>
    obtain ⟨hfirst, hrest⟩ := forall_mem_cons.mp havoids
    have hall := ih (store.step move) _ hrest (step_tracks stale store hfirst h)
    rw [append_assoc] at hall
    exact hall

theorem disabled_init {now : Clock} : (Disk.init now).metadata.Disabled :=
  ⟨rfl, (CivilTime.isCanonicalUTC_formatUTC _).mpr now.sane, rfl, rfl, rfl, rfl, rfl, rfl⟩

theorem tracks_init (now : Clock) (moves : List Move) :
    Tracks ∅ ((openAt (Disk.init now)).run moves) ((openAt (Disk.init now)).completed moves) := by
  apply run_tracks ∅ moves (openAt (Disk.init now)) []
  · intro move _
    rw [Move.Avoids.eq_def]
    split
    · exact SortedMap.find?_empty _
    · trivial
  · exact .idle _ disabled_init rfl (fun _ hmem => by cases hmem)

end Store

end Replay
end YunPin
