import YunPin.NativeReading
import YunPin.Runs
import YunPin.SlotRing

/-! The recorder's ring between the input thread and the sink: the accesses of `TryPush` and
`DrainJson` to shared memory, taken one at a time in any order. -/
namespace YunPin
open ByteText JsonText List

namespace Recorder
open Replay

def kReplayJsonLimit : ℕ := 8*1024

def serializeDrop (monotonicUS utcUnixUS count : UInt64) : Bytes :=
  lit "\x7b\"version\":\"yunpin.replay.native.v1\",\"monotonic_us\":" ++
    decimal monotonicUS.toNat ++ lit ",\"utc_unix_us\":" ++ decimal utcUnixUS.toNat ++
    lit ",\"type\":\"drop_count\",\"drop_count\":" ++ decimal count.toNat ++ lit "\x7d"

def fits (capacity : ℕ) (encoded : Bytes) : Bool :=
  ¬(encoded.length ≥ capacity ∨ encoded.length > kReplayJsonLimit)

/-- Where the input thread is in `TryPush`: before it reads `tail_`, before it writes the slot,
before it stores `head_`, or before it counts a drop. -/
inductive Pushing where
  | idle | checked (event : ReplayNativeEvent) | reserved (event : ReplayNativeEvent)
  | filled (event : ReplayNativeEvent) | dropping

/-- Where the sink is in `DrainJson`: before `TryPop` reads `head_`, before it reads the slot,
before it stores `tail_`, or before a count is added to `dropped_`. -/
inductive Draining where
  | idle | popping (capacity : ℕ) | taking (capacity : ℕ)
  | taken (capacity : ℕ) (event : ReplayNativeEvent) | discarding (capacity : ℕ)
  | restoring (count : UInt64)

inductive Record where
  | event (event : ReplayNativeEvent) | dropCount (count : UInt64)

def Record.event? : Record → Option ReplayNativeEvent
  | .event e => some e
  | .dropCount _ => none

def Record.weight : Record → ℕ
  | .event _ => 1
  | .dropCount count => count.toNat

/-- The shared object, the two threads, and what they have done so far. -/
structure Recording where
  producer : ReplayNativeProducer := {}
  pushing : Pushing := .idle
  draining : Draining := .idle
  attempts : ℕ := 0
  pushed : List ReplayNativeEvent := []
  popped : ℕ := 0
  records : List Record := []

inductive RingAction where
  | setEnabled (enabled : Bool)
  | tryPush (event : ReplayNativeEvent)
  | drainJson (capacity : ℕ) (monotonicUS utcUnixUS : UInt64)
  | input
  | sink

namespace Recording

def count (s : Recording) (n : UInt64) : ReplayNativeProducer :=
  { s.producer with dropped := s.producer.dropped+n }

def input (s : Recording) : Option Recording :=
  match s.pushing with
  | .idle => none
  | .checked event =>
    if nextSlot s.producer.head = s.producer.tail then some { s with pushing := .dropping }
    else some { s with pushing := .reserved event }
  | .reserved event => some { s with
      producer.ring := Function.update s.producer.ring s.producer.head event
      pushing := .filled event }
  | .filled event => some { s with
      producer.head := nextSlot s.producer.head
      pushing := .idle
      pushed := s.pushed ++ [event] }
  | .dropping => some { s with producer := s.count 1, pushing := .idle }

def sink (s : Recording) : Option Recording :=
  match s.draining with
  | .idle => none
  | .popping capacity =>
    if s.producer.tail = s.producer.head then some { s with draining := .idle }
    else some { s with draining := .taking capacity }
  | .taking capacity =>
    some { s with draining := .taken capacity (s.producer.ring s.producer.tail) }
  | .taken capacity event =>
    let popped := { s with producer.tail := nextSlot s.producer.tail, popped := s.popped+1 }
    if fits capacity (serializeEvent event) then
      some { popped with draining := .idle, records := s.records ++ [.event event] }
    else some { popped with draining := .discarding capacity }
  | .discarding capacity =>
    some { s with producer := s.count 1, draining := .popping capacity }
  | .restoring n => some { s with producer := s.count n, draining := .idle }

def step (s : Recording) : RingAction → Option Recording
  | .setEnabled enabled => some { s with producer.enabled := enabled }
  | .tryPush event =>
    match s.pushing with
    | .idle =>
      if s.producer.enabled = false then some s
      else some { s with
        attempts := s.attempts+1
        pushing := if isValidEvent event then .checked event else .dropping }
    | _ => none
  | .drainJson capacity monotonicUS utcUnixUS =>
    match s.draining with
    | .idle =>
      if capacity = 0 then some s
      else
        let dropped := s.producer.dropped
        let taken := { s with producer.dropped := 0 }
        if dropped = 0 then some { taken with draining := .popping capacity }
        else if fits capacity (serializeDrop monotonicUS utcUnixUS dropped) then
          some { taken with records := s.records ++ [.dropCount dropped] }
        else some { taken with draining := .restoring dropped }
    | _ => none
  | .input => s.input
  | .sink => s.sink

end Recording

instance : NeZero kReplayRingCapacity := ⟨by decide⟩

def Pushing.pending : Pushing → ℕ
  | .idle => 0
  | _ => 1

def Draining.pending : Draining → ℕ
  | .discarding _ => 1
  | .restoring n => n.toNat
  | _ => 0

/-- The records returned, the events in the ring, the drops counted, and what is under way. -/
def Recording.accounted (s : Recording) : ℕ :=
  (s.records.map Record.weight).sum+(s.pushed.length-s.popped)+s.producer.dropped.toNat+
    s.pushing.pending+s.draining.pending

structure RingInv (s : Recording) : Prop where
  holds : SlotRing.Holds s.producer.ring s.producer.head s.producer.tail s.pushed s.popped
  space : ∀ event, s.pushing = .reserved event ∨ s.pushing = .filled event →
    s.pushed.length+1 < s.popped+kReplayRingCapacity
  filled : ∀ event, s.pushing = .filled event → s.producer.ring s.producer.head = event
  taking : ∀ capacity, s.draining = .taking capacity → s.popped < s.pushed.length
  taken : ∀ capacity event, s.draining = .taken capacity event →
    s.pushed[s.popped]? = some event
  order : (s.records.filterMap Record.event?).Sublist (s.pushed.take s.popped)

namespace RingInv

variable {s s' : Recording}

theorem input (h : RingInv s) (hs : s.input = some s') : RingInv s' := by
  obtain ⟨producer, pushing, draining, attempts, pushed, popped, records⟩ := s
  cases pushing with
  | idle => cases hs
  | checked event =>
    simp only [Recording.input] at hs
    split_ifs at hs with hfull <;> cases hs
    · exact { h with space := by simp, filled := by simp }
    · exact { h with space := fun _ _ => h.holds.space hfull, filled := by simp }
  | reserved event =>
    cases hs
    exact { h with
      holds := h.holds.fill event
      space := fun _ _ => h.space event (Or.inl rfl)
      filled := by simp }
  | filled event =>
    cases hs
    have hpublish := h.holds.publish (h.space event (Or.inr rfl))
    rw [h.filled event rfl] at hpublish
    exact { h with
      holds := hpublish
      space := by simp
      filled := by simp
      taking := fun c hc => (h.taking c hc).trans_le (by simp)
      taken := fun c e hc => by
        have hget := h.taken c e hc
        exact (getElem?_append_left (List.getElem?_eq_some_iff.mp hget).1).trans hget
      order := by
        simp only [take_append_of_le_length h.holds.read_le]
        exact h.order }
  | dropping =>
    cases hs
    exact { h with space := by simp, filled := by simp }

theorem sink (h : RingInv s) (hs : s.sink = some s') : RingInv s' := by
  obtain ⟨producer, pushing, draining, attempts, pushed, popped, records⟩ := s
  cases draining with
  | idle => cases hs
  | popping capacity =>
    simp only [Recording.sink] at hs
    split_ifs at hs with hempty <;> cases hs
    · exact { h with taking := by simp, taken := by simp }
    · exact { h with taking := fun _ _ => h.holds.unread hempty, taken := by simp }
  | taking capacity =>
    cases hs
    have hfront := h.holds.front (h.taking capacity rfl)
    exact { h with
      taking := by simp
      taken := fun _ _ heq => by
        cases heq
        exact hfront }
  | taken capacity event =>
    have hget := h.taken capacity event rfl
    have hnext : RingInv ⟨{ producer with tail := nextSlot producer.tail }, pushing,
        .discarding capacity, attempts, pushed, popped+1, records⟩ :=
      { h with
        holds := h.holds.advance (List.getElem?_eq_some_iff.mp hget).1
        space := fun e hor => (h.space e hor).trans (by dsimp only; omega)
        taking := by simp
        taken := by simp
        order := h.order.trans (take_sublist_take_left (Nat.le_succ _)) }
    simp only [Recording.sink] at hs
    split_ifs at hs with hfits <;> cases hs
    · exact { hnext with
        taking := by simp
        taken := by simp
        order := by
          rw [filterMap_append, take_add_one, hget]
          exact h.order.append (Sublist.refl _) }
    · exact hnext
  | discarding _ | restoring _ =>
    cases hs
    exact { h with taking := by simp, taken := by simp }

theorem step (h : RingInv s) {a : RingAction} (hs : s.step a = some s') : RingInv s' := by
  obtain ⟨producer, pushing, draining, attempts, pushed, popped, records⟩ := s
  cases a with
  | setEnabled enabled =>
    cases hs
    exact { h with }
  | tryPush event =>
    simp only [Recording.step] at hs
    split at hs
    · split_ifs at hs <;> cases hs
      · exact h
      all_goals exact { h with space := by simp, filled := by simp }
    · cases hs
  | drainJson capacity monotonicUS utcUnixUS =>
    simp only [Recording.step] at hs
    split at hs
    · split_ifs at hs <;> cases hs
      · exact h
      · exact { h with taking := by simp, taken := by simp }
      · refine { h with order := ?_ }
        rw [filterMap_append]
        exact (append_nil _).symm ▸ h.order
      · exact { h with taking := by simp, taken := by simp }
    · cases hs
  | input => exact h.input hs
  | sink => exact h.sink hs

/-- A step leaves as many calls unaccounted for as there were. -/
theorem balance (h : RingInv s) {a : RingAction} (hs : s.step a = some s') :
    (s.attempts+s'.accounted)%2^64 = (s'.attempts+s.accounted)%2^64 := by
  have hle := h.holds.read_le
  have htaken (capacity : ℕ) (event : ReplayNativeEvent) (hd : s.draining = .taken capacity event) :
      s.popped < s.pushed.length := (List.getElem?_eq_some_iff.mp (h.taken capacity event hd)).1
  obtain ⟨producer, pushing, draining, attempts, pushed, popped, records⟩ := s
  cases a <;> simp only [Recording.step, Recording.input, Recording.sink] at hs <;>
    (try split at hs) <;> (try split_ifs at hs) <;> cases hs <;>
    simp_all [Recording.accounted, Recording.count, Pushing.pending, Draining.pending,
      Record.weight, UInt64.toNat_add] <;> omega

end RingInv

/-- A call that is not interrupted does what `tryPush` does in one step. -/
theorem tryPush_alone (s : Recording) (event : ReplayNativeEvent) (h : s.pushing = .idle) :
    ∃ n t, Runs.run Recording.step s (.tryPush event :: replicate n .input) = some t ∧
      t.pushing = .idle ∧ t.producer = (s.producer.tryPush event).1 := by
  let dropped : Recording := { s with producer := s.count 1, attempts := s.attempts+1 }
  rw [ReplayNativeProducer.tryPush]
  split_ifs with henabled hvalid hfull
  · exact ⟨0, s, by simp [Runs.run, Recording.step, h, henabled], h, rfl⟩
  · refine ⟨1, dropped, ?_, h, rfl⟩
    simp [Runs.run, Recording.step, Recording.input, Recording.count, h, henabled, hvalid, dropped]
  · refine ⟨2, dropped, ?_, h, rfl⟩
    simp [Runs.run, Recording.step, Recording.input, Recording.count, h, henabled, hvalid, hfull,
      dropped]
  · refine ⟨3, { s with
      producer.ring := Function.update s.producer.ring s.producer.head event
      producer.head := nextSlot s.producer.head
      attempts := s.attempts+1
      pushed := s.pushed ++ [event] }, ?_, h, rfl⟩
    simp [Runs.run, Recording.step, Recording.input, h, henabled, hvalid, hfull]

/-- What the ring guarantees to the reader of the records. -/
structure RingConserves (s : Recording) : Prop where
  /-- The records are of accepted events, in the order of their acceptance, none twice. -/
  order : (s.records.filterMap Record.event?).Sublist (s.pushed.take s.popped)
  /-- No event in the ring has been overwritten, and one slot is free. -/
  intact : ∀ i event, s.popped ≤ i → s.pushed[i]? = some event →
    s.producer.ring ⟨i%kReplayRingCapacity, Nat.mod_lt _ (by decide)⟩ = event
  bounded : s.popped ≤ s.pushed.length ∧ s.pushed.length-s.popped ≤ kReplayRingCapacity-1
  /-- Every call made while the recorder was enabled is accounted for, as far as a counter of 64
  bits can tell. -/
  balance : s.pushing = .idle → s.draining = .idle → s.attempts%2^64 =
    ((s.records.map Record.weight).sum+(s.pushed.length-s.popped)+s.producer.dropped.toNat)%2^64
  /-- A call that nothing interrupts is the whole call. -/
  alone : ∀ event, s.pushing = .idle → ∃ n t,
    Runs.run Recording.step s (.tryPush event :: replicate n .input) = some t ∧
      t.pushing = .idle ∧ t.producer = (s.producer.tryPush event).1

theorem recorder_ring_conserves (actions : List RingAction) (s : Recording)
    (h : Runs.run Recording.step {} actions = some s) : RingConserves s := by
  have hall : RingInv s ∧ s.attempts%2^64 = s.accounted%2^64 := by
    refine Runs.run_invariant (fun s => RingInv s ∧ s.attempts%2^64 = s.accounted%2^64)
      (fun u a u' hi hs => ⟨hi.1.step hs, ?_⟩) ⟨⟨⟨rfl, rfl, le_rfl, by decide, by simp⟩, by simp,
        by simp, by simp, by simp, Sublist.refl _⟩, rfl⟩ h
    have hstep := hi.1.balance hs
    have hbefore := hi.2
    omega
  obtain ⟨hinv, hbalance⟩ := hall
  have hroom := hinv.holds.room
  refine ⟨hinv.order, hinv.holds.kept, ⟨hinv.holds.read_le, by omega⟩, fun hpushing hdraining => ?_,
    tryPush_alone s⟩
  rwa [Recording.accounted, hpushing, hdraining] at hbalance

/-- One call is refused and told of, the first event is returned while the second one is being
written, and the second one is too long for the sink. -/
theorem recorder_ring_sample : ∃ s, Runs.run Recording.step {}
    [.setEnabled true, .tryPush default, .input, .tryPush sampleEvent, .input, .drainJson 999 1 2,
      .input, .input, .tryPush sampleEvent, .input, .drainJson 999 3 4, .sink, .input, .sink, .sink,
      .input, .drainJson 9 5 6, .sink, .sink, .sink, .sink, .sink] = some s ∧
    ((s.records.filterMap Record.event?).map serializeEvent = [serializeEvent sampleEvent] ∧
      s.records.length = 2 ∧ s.producer.dropped = 1) ∧ RingConserves s := by
  apply Runs.exists_some (fun s =>
    (s.records.filterMap Record.event?).map serializeEvent = [serializeEvent sampleEvent] ∧
      s.records.length = 2 ∧ s.producer.dropped = 1) (by decide +kernel)
  intro s hs h
  exact ⟨h, recorder_ring_conserves _ s hs⟩

end Recorder
end YunPin
