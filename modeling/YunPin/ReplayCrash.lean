import YunPin.ReplayRun

/-! What a crash during an append leaves behind. A line that is cut off makes the log unreadable, and so
does one that only lacks its line end, as soon as the next event is appended. -/
namespace YunPin
open ByteText JsonText List

namespace Replay

/-- A disk from which the store comes back with the given events: the status is there, and after all
that is done later the log holds these events and the later ones. -/
structure Recovered (disk : Disk) (log : List EventV1) : Prop where
  status : ∀ clock, ∃ metadata, ((Store.openAt disk).status clock).2 = .ok metadata
  later : ∀ moves : List Move, (∀ move ∈ moves, move.Avoids disk.files) → ∀ clock,
    (((Store.openAt disk).run moves).events clock).2 =
      .ok (log ++ (Store.openAt disk).completed moves)

theorem Tracks.recovered {disk : Disk} {log : List EventV1}
    (h : Tracks disk.files (Store.openAt disk) log) : Recovered disk log where
  status clock := Store.status_tracks clock h
  later moves havoids _ := Store.events_tracks (Store.run_tracks disk.files moves _ log havoids h)

namespace Store

variable {store : Store} (event : EventV1) {data : Bytes} {log : List EventV1}
  {state state' : SequenceState}

theorem crash_start (write : Write) (bytes : ℕ) (h : store.disk.metadata.Disabled) :
    Recovered (store.crash write bytes) [] :=
  Tracks.recovered (.idle _ h rfl (fun _ hmem => by cases hmem))

theorem crash_before (state' : SequenceState) (h : Settled store data log state)
    (whole : data = log.flatMap eventLine) :
    Recovered (store.crash (store.appendWrite event state') 0) log := by
  have hfile := crash_file event state' 0 h.logged.file
  rw [take_zero, append_nil] at hfile
  have hlogged : Logged (store.crash (store.appendWrite event state') 0) data log state :=
    ⟨h.logged.active, hfile, h.logged.lines, h.logged.valid, h.logged.accepted, h.logged.live,
      h.logged.session⟩
  exact Tracks.recovered (.active _ data log state hlogged (.inl whole)
    (.inr ⟨rfl, .inl h.agrees⟩))

theorem crash_after {bytes : ℕ} (h : Settled store data log state)
    (whole : data = log.flatMap eventLine) (haccept : state.accept event = .ok state')
    (hbytes : bytes = event.marshal.length ∧ event.seq+1 = 0 ∨ bytes = event.marshal.length+1) :
    Recovered (store.crash (store.appendWrite event state') bytes) (log ++ [event]) := by
  have hlogged := crash_logged h.logged whole haccept (hbytes.imp_left And.left)
  refine Tracks.recovered (.active _ _ _ state' hlogged ?_ (.inr ⟨rfl, .inr (h.behind haccept)⟩))
  rcases hbytes with ⟨-, hend⟩ | rfl
  · right
    rw [(SequenceState.accept_next haccept).1]
    exact hend
  · left
    rw [(take_eventLine event).2, whole, ← flatMap_snoc]

theorem crash_torn {bytes : ℕ} (h : Settled store data log state)
    (whole : data = log.flatMap eventLine) (haccept : state.accept event = .ok state')
    (hpos : 0 < bytes) (hbytes : bytes < event.marshal.length) (clock : Clock) :
    ∀ metadata, ((openAt (store.crash (store.appendWrite event state') bytes)).status clock).2 ≠
      .ok metadata := by
  have hevent := SequenceState.accept_valid haccept
  have htake : (eventLine event).take bytes = event.marshal.take bytes :=
    take_append_of_le_length (le_of_lt hbytes)
  have hvisible := visible_take (denotes_event event hevent).visible bytes
  have hne : event.marshal.take bytes ≠ [] := by
    rw [Ne, take_eq_nil_iff, not_or]
    exact ⟨ne_of_gt hpos, (denotes_event event hevent).nonempty⟩
  have hlines : scanLines (data ++ event.marshal.take bytes) =
      log.map EventV1.marshal ++ [event.marshal.take bytes] := by
    rw [whole, scanLines_log h.logged.valid hvisible, if_neg hne]
  have hbad := forEachLine_bad SequenceState.accept (1+log.length) state [] hvisible
    (decodeEventV1_take event hevent hbytes)
  have hscan : ∀ s, (store.crash (store.appendWrite event state') bytes).scanSession
      store.disk.metadata.eventFile ≠ .ok s := by
    intro s hs
    rw [Disk.scanSession, if_neg h.logged.active.eventFile_ne_nil,
      crash_file event state' bytes h.logged.file, htake] at hs
    dsimp only at hs
    rw [forEachEvent, hlines,
      @forEachLine_log _ _ 1 {} state log _ h.logged.valid h.logged.accepted] at hs
    exact hbad s hs
  intro metadata hok
  have hload : (store.crash (store.appendWrite event state') bytes).loadMetadata =
      .ok store.disk.metadata := loadMetadata_ok h.logged.active.check
  rw [status] at hok
  dsimp only [openAt] at hok
  rw [hload] at hok
  dsimp only at hok
  rw [if_neg (validID_ne_nil h.logged.active.sessionID)] at hok
  cases hresult : (store.crash (store.appendWrite event state') bytes).scanSession
      store.disk.metadata.eventFile with
  | error message =>
    rw [hresult] at hok
    cases hok
  | ok s => exact hscan s hresult

theorem crash_joined (h : Settled store data log state) (whole : data = log.flatMap eventLine)
    (haccept : state.accept event = .ok state') (hseq : event.seq+1 ≠ 0) (clock : Clock) :
    ∀ events, (((openAt (store.crash (store.appendWrite event state') event.marshal.length)).run
      [.call (.append clock state'.dropEvent)]).events clock).2 ≠ .ok events := by
  have hevent := SequenceState.accept_valid haccept
  have hlive := SequenceState.accept_live haccept
  have hlogged := crash_logged h.logged whole haccept (.inl rfl)
  rw [(take_eventLine event).1] at hlogged
  generalize hdisk : store.crash (store.appendWrite event state') event.marshal.length = disk
    at hlogged ⊢
  have hmetadata : disk.metadata.lastSeq < state'.lastSeq := by
    rw [← hdisk]
    exact h.behind haccept
  rw [← (SequenceState.accept_next haccept).1] at hseq
  obtain ⟨second, hsecond⟩ := SequenceState.accept_dropEvent hlive hseq
  -- The repaired store takes the next event and writes it behind the unfinished line.
  obtain ⟨repaired, hstatus, hsettled⟩ := status_openAt clock hlogged (.inr hmetadata)
  have hprepare : (openAt disk).prepare (.append clock state'.dropEvent) =
      (repaired, .ok (repaired.appendWrite state'.dropEvent second)) := by
    rw [prepare, prepareAppend_eq hstatus hsettled, hsecond]
  have hfile := crash_file state'.dropEvent second
    (eventLine state'.dropEvent).length hsettled.logged.file
  rw [take_length, whole] at hfile
  have hlines := scanLines_joined event h.logged.valid hevent
    (SequenceState.accept_valid hsecond)
  have hvisible := (denotes_event event hevent).visible.append
    (denotes_event _ (SequenceState.accept_valid hsecond)).visible
  have hbad := forEachLine_bad collect (1+log.length) log [] hvisible
    (decodeEventV1_twice event state'.dropEvent hevent)
  have hevents := events_status (repaired.complete (repaired.appendWrite state'.dropEvent second))
    (status_cached _ clock rfl) hsettled.logged.active.eventFile_ne_nil hfile
  intro events hok
  rw [run, foldl_cons, foldl_nil, (call_ok _ hprepare).1, hevents] at hok
  dsimp only at hok
  rw [readEvents, forEachEvent, hlines, forEachLine_log collect 1 [] _ h.logged.valid
    (foldlM_collect log [])] at hok
  exact hbad events hok

end Store

/-- The log survives a crash during the start of a session, before the first byte and after the last
one. Where a part of the line has been written, or all of it but its end, the store does not come
back or the next event makes the log unreadable. -/
theorem replay_log_crash (now : Clock) (moves : List Move) (op : Op) (store : Store) (write : Write)
    (bytes : ℕ)
    (hprepare : ((Store.openAt (Disk.init now)).run moves).prepare op = (store, .ok write))
    (hbytes : bytes ≤ (eventLine write.event).length) :
    (∃ log, (log = (Store.openAt (Disk.init now)).completed moves ∨
        log = (Store.openAt (Disk.init now)).completed moves ++ [write.event]) ∧
        Recovered (store.crash write bytes) log) ↔
      op.isStart = true ∨ bytes = 0 ∨ bytes = (eventLine write.event).length ∨
        (bytes+1 = (eventLine write.event).length ∧ write.event.seq+1 = 0) := by
  have htracks := Store.tracks_init now moves
  generalize (Store.openAt (Disk.init now)).run moves = before at hprepare htracks
  generalize (Store.openAt (Disk.init now)).completed moves = completed at htracks ⊢
  rw [Store.length_eventLine] at hbytes ⊢
  have hprepared := Store.prepare_tracks ∅ before op htracks
  rw [hprepare] at hprepared
  cases hprepared with
  | started start session episode _ disabled files empty valid =>
    exact ⟨fun _ => Or.inl rfl,
      fun _ => ⟨[], Or.inl empty.symm, Store.crash_start _ bytes disabled⟩⟩
  | accepted _ hop _ state state' event settled accept =>
    constructor
    · rintro ⟨log, -, hrecovered⟩
      right
      by_contra hother
      rw [not_or, not_or] at hother
      obtain ⟨hpos, hlast, hunended⟩ := hother
      rcases lt_or_ge bytes event.marshal.length with hlt | hge
      · obtain ⟨metadata, hstatus⟩ := hrecovered.status now
        exact Store.crash_torn event settled rfl accept
          (Nat.pos_of_ne_zero hpos) hlt now metadata hstatus
      · have heq : bytes = event.marshal.length := le_antisymm (by
          change bytes ≤ event.marshal.length+1 at hbytes
          change bytes ≠ event.marshal.length+1 at hlast
          omega) hge
        subst heq
        have hseq : event.seq+1 ≠ 0 := fun hend => hunended ⟨rfl, hend⟩
        exact Store.crash_joined event settled rfl accept hseq now _
          (hrecovered.later [.call (.append now state'.dropEvent)]
            (forall_mem_singleton.mpr trivial) now)
    · rintro (hstart | rfl | hfull | ⟨hunended, hend⟩)
      · rw [hop] at hstart
        cases hstart
      · exact ⟨completed, Or.inl rfl, Store.crash_before event state' settled rfl⟩
      · exact ⟨_, Or.inr rfl, Store.crash_after event settled rfl accept (Or.inr hfull)⟩
      · exact ⟨_, Or.inr rfl, Store.crash_after event settled
          rfl accept (Or.inl ⟨Nat.succ.inj hunended, hend⟩)⟩

def startMoves (now : Clock) (session episode : RandomID) : List Move :=
  [.call (.start now.instant session episode)]

def startedStore (now : Clock) (session episode : RandomID) : Store :=
  (Store.openAt (Disk.init now)).run (startMoves now session episode)

def startedState (now : Clock) (session episode : RandomID) : SequenceState :=
  ({} : SequenceState).next (Store.startEvent now.instant (newID session) (newID episode))
    (false, false)

theorem started_settled (now : Clock) (session episode : RandomID) :
    Settled (startedStore now session episode)
      ([Store.startEvent now.instant (newID session) (newID episode)].flatMap eventLine)
      [Store.startEvent now.instant (newID session) (newID episode)]
      (startedState now session episode) := by
  have hvalid := Store.startEvent_valid now session episode
  have hprepare : (Store.openAt (Disk.init now)).prepare (.start now.instant session episode) =
      (Store.openAt (Disk.init now),
        .ok (Store.startWrite now.instant (newID session) (newID episode))) := by
    rw [Store.prepare, Store.prepareStart_eq _ _ _ _ Store.disabled_init,
      (encodeEventV1_ok_iff _ _).mpr ⟨hvalid, rfl⟩]
  rw [startedStore, startMoves, Store.run, foldl_cons, foldl_nil,
    (Store.call_ok _ hprepare).1]
  exact Store.complete_start hvalid (SortedMap.find?_empty _)

theorem started_drop (now : Clock) (session episode : RandomID) : ∃ state',
    (startedState now session episode).accept (startedState now session episode).dropEvent =
        .ok state' ∧
      (startedStore now session episode).prepare
          (.append now (startedState now session episode).dropEvent) =
        (startedStore now session episode, .ok ((startedStore now session episode).appendWrite
          (startedState now session episode).dropEvent state')) := by
  have hsettled := started_settled now session episode
  have hseq : (1 : UInt64)+1 ≠ 0 := by decide
  obtain ⟨state', haccept⟩ := SequenceState.accept_dropEvent hsettled.logged.live hseq
  refine ⟨state', haccept, ?_⟩
  rw [Store.prepare, Store.prepareAppend_eq (Store.status_cached _ now hsettled.cache) hsettled,
    haccept]

theorem marshal_length (event : EventV1) : 2 ≤ event.marshal.length := by
  rw [EventV1.marshal, memberTexts, objectText, length_cons, length_append,
    length_singleton]
  exact Nat.le_add_left 2 _

def epoch : Clock := ⟨0, by decide⟩

def zeroID : RandomID := ⟨List.replicate 16 0, rfl⟩

theorem replay_log_crash_sample : ∃ store write,
    ((Store.openAt (Disk.init epoch)).run (startMoves epoch zeroID zeroID)).prepare
        (.append epoch (startedState epoch zeroID zeroID).dropEvent) = (store, .ok write) ∧
      ¬∃ log, (log = (Store.openAt (Disk.init epoch)).completed (startMoves epoch zeroID zeroID) ∨
          log = (Store.openAt (Disk.init epoch)).completed (startMoves epoch zeroID zeroID) ++
            [write.event]) ∧
        Recovered (store.crash write ((eventLine write.event).length-1)) log := by
  obtain ⟨state', -, hprepare⟩ := started_drop epoch zeroID zeroID
  refine ⟨_, _, hprepare, fun hrecovered => ?_⟩
  have hlength := marshal_length (startedState epoch zeroID zeroID).dropEvent
  have hline := Store.length_eventLine (startedState epoch zeroID zeroID).dropEvent
  have hseq : ¬(1 : UInt64)+1+1 = 0 := by decide
  rcases (replay_log_crash epoch _ _ _ _ _ hprepare (Nat.sub_le _ 1)).mp hrecovered with
    h | h | h | ⟨-, h⟩
  · cases h
  · change (eventLine (startedState epoch zeroID zeroID).dropEvent).length-1 = 0 at h
    omega
  · change (eventLine (startedState epoch zeroID zeroID).dropEvent).length-1 =
      (eventLine (startedState epoch zeroID zeroID).dropEvent).length at h
    omega
  · exact hseq h

/-- The process stops after the first byte of a report of a lost event. -/
theorem torn_line_lost : ∃ store write,
    ((Store.openAt (Disk.init epoch)).run (startMoves epoch zeroID zeroID)).prepare
        (.append epoch (startedState epoch zeroID zeroID).dropEvent) = (store, .ok write) ∧
      1 ≤ (eventLine write.event).length ∧
      ∀ clock metadata, ((Store.openAt (store.crash write 1)).status clock).2 ≠ .ok metadata := by
  have hsettled := started_settled epoch zeroID zeroID
  obtain ⟨state', haccept, hprepare⟩ := started_drop epoch zeroID zeroID
  refine ⟨_, _, hprepare, ?_, fun clock => ?_⟩
  · rw [Store.length_eventLine]
    exact Nat.le_add_left 1 _
  · exact Store.crash_torn _ hsettled rfl haccept (by decide) (marshal_length _) clock

end Replay
end YunPin
