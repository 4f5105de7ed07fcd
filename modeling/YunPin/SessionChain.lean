import YunPin.SessionLearning

/-! The chain of a correction: a recorded commit, its deletion, a replacement awaited. It is the
abstract machine behind the session learner, and its state is read off the history of events. -/
namespace YunPin
open ByteText List

namespace Learning
open Engine (normalizePinyin)
open ScalarText (utf8ScalarCount countSafeUtf8)

structure Anchor where
  phrase : Bytes
  pinyin : Bytes
  dateBucket : Bytes
  scalars : ℕ
  time : ℤ
  deriving DecidableEq, Repr

def Anchor.selection (a : Anchor) : SelectionEvent :=
  SessionLearning.selection a.pinyin a.phrase a.dateBucket

def Anchor.id (a : Anchor) : Bytes := entryId a.pinyin a.phrase

def recordedAnchor (e : TimedEvent) : Option Anchor :=
  match e.observation with
  | .commit commit dateBucket =>
    let pinyin := normalizePinyin commit.pinyin
    if commit.context = .normal ∧
        isMonitorableSelection (SessionLearning.selection pinyin commit.phrase dateBucket) then
      (utf8ScalarCount commit.phrase).map (⟨commit.phrase, pinyin, dateBucket, ·, e.time⟩)
    else none
  | _ => none

inductive Chain where
  | idle
  | deleting (a : Anchor) (backspaces : ℕ)
  | awaiting (a : Anchor) (started : Bool)
  deriving DecidableEq, Repr

namespace Chain

def onKey (deadline : Anchor → ℤ) (now : ℤ) (backspace : Bool) (context : LearningContext) :
    Chain → Chain
  | .deleting a k =>
    if context = .normal ∧ backspace ∧ now ≤ deadline a then
      if k+1 = a.scalars then .awaiting a false else .deleting a (k+1)
    else .idle
  | _ => .idle

def onComposition (deadline : Anchor → ℤ) (now : ℤ) (input : Bytes) (context : LearningContext) :
    Chain → Chain
  | .idle => .idle
  | .deleting a k =>
    if context = .normal ∧ now ≤ deadline a ∧ input = [] then .deleting a k else .idle
  | .awaiting a started =>
    if context = .normal ∧ now ≤ deadline a then
      if input = [] then if started then .idle else .awaiting a false
      else if normalizePinyin input ≠ [] ∧ normalizePinyin input <+: a.pinyin then .awaiting a true
      else .idle
    else .idle

def step (deadline : Anchor → ℤ) (chain : Chain) (e : TimedEvent) : Chain :=
  match e.observation with
  | .commit _ _ =>
    match recordedAnchor e with
    | some b => .deleting b 0
    | none => .idle
  | .unhandledKey backspace context => chain.onKey deadline e.time backspace context
  | .composition input context => chain.onComposition deadline e.time input context
  | .breakAdjacency => .idle

def corrects (deadline : Anchor → ℤ) (chain : Chain) (e : TimedEvent) : Option (Anchor × Anchor) :=
  match chain, recordedAnchor e with
  | .awaiting a _, some b =>
    if e.time ≤ deadline a ∧ a.pinyin = b.pinyin ∧ a.phrase ≠ b.phrase then some (a, b) else none
  | _, _ => none

def run (deadline : Anchor → ℤ) (events : List TimedEvent) : Chain :=
  events.foldl (step deadline) .idle

theorem run_append (deadline : Anchor → ℤ) (events : List TimedEvent) (e : TimedEvent) :
    run deadline (events ++ [e]) = (run deadline events).step deadline e := by
  rw [run, foldl_append]
  rfl

end Chain

/-- Backspaces in a normal context, `n` of them, among empty compositions. -/
def Deletion (n : ℕ) (l : List Observation) : Prop :=
  (∀ o ∈ l, o = .unhandledKey true .normal ∨ o = .composition [] .normal) ∧
    l.count (.unhandledKey true .normal) = n

def Empties (l : List Observation) : Prop := ∀ o ∈ l, o = .composition [] .normal

def Typed (pinyin : Bytes) (l : List Observation) : Prop :=
  ∀ o ∈ l, ∃ input, o = .composition input .normal ∧ normalizePinyin input ≠ [] ∧
    normalizePinyin input <+: pinyin

/-- The last event replaces an earlier commit `a` by `b`: in between `a` was deleted with one
backspace for each scalar, and then only starts of the same pinyin were typed. -/
def Replaces (deadline : Anchor → ℤ) (events : List TimedEvent) (e : TimedEvent) (a b : Anchor) :
    Prop :=
  ∃ before first between deletion empties typed, events = before ++ first :: between ∧
    recordedAnchor first = some a ∧ recordedAnchor e = some b ∧ a.pinyin = b.pinyin ∧
    a.phrase ≠ b.phrase ∧
    between.map TimedEvent.observation = deletion ++ (empties ++ typed) ∧
    Deletion a.scalars deletion ∧ Empties empties ∧ Typed a.pinyin typed ∧ e.time ≤ deadline a

theorem Deletion.empties {n : ℕ} {l l' : List Observation} (h : Deletion n l) (h' : Empties l') :
    Deletion n (l ++ l') := by
  refine ⟨fun o ho => ?_, ?_⟩
  · rcases mem_append.mp ho with ho | ho
    · exact h.1 o ho
    · exact .inr (h' o ho)
  · have hnone : l'.count (.unhandledKey true .normal) = 0 :=
      count_eq_zero_of_not_mem (fun hmem => Observation.noConfusion (h' _ hmem))
    rw [count_append, h.2, hnone, Nat.add_zero]

theorem Deletion.backspace {n : ℕ} {l : List Observation} (h : Deletion n l) :
    Deletion (n+1) (l ++ [.unhandledKey true .normal]) := by
  refine ⟨fun o ho => ?_, ?_⟩
  · rcases mem_append.mp ho with ho | ho
    · exact h.1 o ho
    · exact .inl (mem_singleton.mp ho)
  · rw [count_append, h.2, count_singleton_self]

def Chain.Explained (events : List TimedEvent) : Chain → Prop
  | .idle => True
  | .deleting a k => ∃ before first between, events = before ++ first :: between ∧
      recordedAnchor first = some a ∧ Deletion k (between.map TimedEvent.observation)
  | .awaiting a started => ∃ before first between deletion empties typed,
      events = before ++ first :: between ∧ recordedAnchor first = some a ∧
      between.map TimedEvent.observation = deletion ++ (empties ++ typed) ∧
      Deletion a.scalars deletion ∧ Empties empties ∧ Typed a.pinyin typed ∧
      (started = false → typed = [])

theorem Chain.Explained.step {events : List TimedEvent} {chain : Chain}
    (deadline : Anchor → ℤ) (h : chain.Explained events) (e : TimedEvent) :
    (chain.step deadline e).Explained (events ++ [e]) := by
  have hsplit (before : List TimedEvent) (first : TimedEvent) (between : List TimedEvent)
      (hevents : events = before ++ first :: between) :
      events ++ [e] = before ++ first :: (between ++ [e]) := by
    rw [hevents, append_assoc, cons_append]
  obtain ⟨time, o⟩ := e
  cases o with
  | commit commit dateBucket =>
    rw [Chain.step]
    dsimp only
    cases hb : recordedAnchor ⟨time, .commit commit dateBucket⟩ with
    | none => trivial
    | some b =>
      exact ⟨events, _, [], rfl, hb, fun o ho => absurd ho not_mem_nil, rfl⟩
  | unhandledKey backspace context =>
    rw [Chain.step]
    dsimp only
    cases chain with
    | idle => trivial
    | awaiting a started => trivial
    | deleting a k =>
      rw [Chain.onKey]
      by_cases hkey : context = .normal ∧ backspace = true ∧ time ≤ deadline a
      · rw [if_pos hkey]
        obtain ⟨rfl, rfl, -⟩ := hkey
        obtain ⟨before, first, between, hevents, hfirst, hdel⟩ := h
        have hmore : Deletion (k+1) ((between ++
            [(⟨time, .unhandledKey true .normal⟩ : TimedEvent)]).map TimedEvent.observation) := by
          rw [map_append]
          exact hdel.backspace
        by_cases hlast : k+1 = a.scalars
        · rw [if_pos hlast]
          refine ⟨before, first, _, _, [], [], hsplit before first between hevents, hfirst,
            (append_nil _).symm, hlast ▸ hmore, ?_, ?_, fun _ => rfl⟩
          · exact fun o ho => absurd ho not_mem_nil
          · exact fun o ho => absurd ho not_mem_nil
        · rw [if_neg hlast]
          exact ⟨before, first, _, hsplit before first between hevents, hfirst, hmore⟩
      · rw [if_neg hkey]
        trivial
  | composition input context =>
    rw [Chain.step]
    dsimp only
    cases chain with
    | idle => trivial
    | deleting a k =>
      rw [Chain.onComposition]
      by_cases hempty : context = .normal ∧ time ≤ deadline a ∧ input = []
      · rw [if_pos hempty]
        obtain ⟨rfl, -, rfl⟩ := hempty
        obtain ⟨before, first, between, hevents, hfirst, hdel⟩ := h
        refine ⟨before, first, _, hsplit before first between hevents, hfirst, ?_⟩
        rw [map_append]
        exact hdel.empties (fun o ho => mem_singleton.mp ho)
      · rw [if_neg hempty]
        trivial
    | awaiting a started =>
      rw [Chain.onComposition]
      by_cases hnormal : context = .normal ∧ time ≤ deadline a
      · rw [if_pos hnormal]
        obtain ⟨rfl, -⟩ := hnormal
        obtain ⟨before, first, between, deletion, empties, typed, hevents, hfirst, hbetween, hdel,
          hempties, htyped, hstarted⟩ := h
        by_cases hempty : input = []
        · rw [if_pos hempty]
          cases started with
          | true => trivial
          | false =>
            -- nothing typed yet, so the empty composition joins the empty ones
            have hnil := hstarted rfl
            subst hempty hnil
            refine ⟨before, first, _, deletion, empties ++ [.composition [] .normal], [],
              hsplit before first between hevents, hfirst, ?_, hdel, ?_, htyped, fun _ => rfl⟩
            · rw [map_append, hbetween]
              simp
            · intro o ho
              rcases mem_append.mp ho with ho | ho
              · exact hempties o ho
              · exact mem_singleton.mp ho
        · rw [if_neg hempty]
          by_cases hstart : normalizePinyin input ≠ [] ∧ normalizePinyin input <+: a.pinyin
          · rw [if_pos hstart]
            refine ⟨before, first, _, deletion, empties, typed ++ [.composition input .normal],
              hsplit before first between hevents, hfirst, ?_, hdel, hempties, ?_,
              fun hfalse => absurd hfalse (by decide)⟩
            · rw [map_append, hbetween]
              simp
            · intro o ho
              rcases mem_append.mp ho with ho | ho
              · exact htyped o ho
              · exact ⟨input, mem_singleton.mp ho, hstart.1, hstart.2⟩
          · rw [if_neg hstart]
            trivial
      · rw [if_neg hnormal]
        trivial
  | breakAdjacency => trivial

theorem Chain.explained_run (deadline : Anchor → ℤ) (events : List TimedEvent) :
    (Chain.run deadline events).Explained events := by
  induction events using List.reverseRecOn with
  | nil => trivial
  | append_singleton events e ih =>
    rw [Chain.run_append]
    exact ih.step deadline e

section Forward
variable (deadline : Anchor → ℤ) (a : Anchor)

theorem foldl_deletion_done {l : List TimedEvent} (hl : Deletion 0 (l.map TimedEvent.observation))
    (htime : ∀ e ∈ l, e.time ≤ deadline a) :
    l.foldl (Chain.step deadline) (.awaiting a false) = .awaiting a false := by
  induction l with
  | nil => rfl
  | cons e l ih =>
    obtain ⟨time, o⟩ := e
    have hnow := htime _ mem_cons_self
    rw [map_cons] at hl
    obtain ⟨hall, hcount⟩ := hl
    rw [count_cons] at hcount
    rcases hall o mem_cons_self with rfl | rfl
    · rw [if_pos (beq_self_eq_true _)] at hcount
      omega
    · have hstep : Chain.step deadline (.awaiting a false) ⟨time, .composition [] .normal⟩ =
          .awaiting a false := by
        rw [Chain.step]
        exact if_pos ⟨rfl, hnow⟩
      rw [foldl_cons, hstep]
      apply ih
      · exact ⟨(forall_mem_cons.mp hall).2, by omega⟩
      · exact (forall_mem_cons.mp htime).2

theorem foldl_deletion (l : List TimedEvent) (k m : ℕ) (hk : k < a.scalars)
    (hkm : k+m = a.scalars) (hl : Deletion m (l.map TimedEvent.observation))
    (htime : ∀ e ∈ l, e.time ≤ deadline a) :
    l.foldl (Chain.step deadline) (.deleting a k) = .awaiting a false := by
  induction l generalizing k m with
  | nil =>
    have hm : m = 0 := hl.2.symm
    omega
  | cons e l ih =>
    obtain ⟨time, o⟩ := e
    have hnow := htime _ mem_cons_self
    have hlater : ∀ e ∈ l, e.time ≤ deadline a := fun e he =>
      htime e (mem_cons_of_mem _ he)
    rw [map_cons] at hl
    obtain ⟨hall, hcount⟩ := hl
    have hall' : ∀ o ∈ l.map TimedEvent.observation,
        o = .unhandledKey true .normal ∨ o = .composition [] .normal := fun o ho =>
      hall o (mem_cons_of_mem _ ho)
    rw [count_cons] at hcount
    rw [foldl_cons]
    rcases hall o mem_cons_self with rfl | rfl
    · rw [if_pos (beq_self_eq_true _)] at hcount
      by_cases hlast : k+1 = a.scalars
      · have hstep : Chain.step deadline (.deleting a k) ⟨time, .unhandledKey true .normal⟩ =
            .awaiting a false := by
          rw [Chain.step]
          exact (if_pos ⟨rfl, rfl, hnow⟩).trans (if_pos hlast)
        rw [hstep]
        exact foldl_deletion_done deadline a ⟨hall', by omega⟩ hlater
      · have hstep : Chain.step deadline (.deleting a k) ⟨time, .unhandledKey true .normal⟩ =
            .deleting a (k+1) := by
          rw [Chain.step]
          exact (if_pos ⟨rfl, rfl, hnow⟩).trans (if_neg hlast)
        rw [hstep]
        exact ih (k+1) (m-1) (by omega) (by omega) ⟨hall', by omega⟩ hlater
    · have hstep : Chain.step deadline (.deleting a k) ⟨time, .composition [] .normal⟩ =
          .deleting a k := by
        rw [Chain.step]
        exact if_pos ⟨rfl, hnow, rfl⟩
      have hother : ¬(Observation.composition [] .normal == .unhandledKey true .normal) = true := by
        decide
      rw [if_neg hother] at hcount
      rw [hstep]
      exact ih k m hk hkm ⟨hall', by omega⟩ hlater

theorem foldl_typed {l : List TimedEvent} (started : Bool)
    (hl : Typed a.pinyin (l.map TimedEvent.observation)) (htime : ∀ e ∈ l, e.time ≤ deadline a) :
    ∃ started', l.foldl (Chain.step deadline) (.awaiting a started) = .awaiting a started' := by
  induction l generalizing started with
  | nil => exact ⟨started, rfl⟩
  | cons e l ih =>
    obtain ⟨time, o⟩ := e
    have hnow := htime _ mem_cons_self
    obtain ⟨input, rfl, hne, hstart⟩ := hl o mem_cons_self
    have hinput : input ≠ [] := by
      rintro rfl
      exact hne rfl
    have hstep : Chain.step deadline (.awaiting a started) ⟨time, .composition input .normal⟩ =
        .awaiting a true := by
      rw [Chain.step]
      exact (if_pos ⟨rfl, hnow⟩).trans ((if_neg hinput).trans (if_pos ⟨hne, hstart⟩))
    rw [foldl_cons, hstep]
    apply ih
    · exact (forall_mem_cons.mp hl).2
    · exact (forall_mem_cons.mp htime).2

end Forward

variable {e : TimedEvent}

theorem recordedAnchor_facts {a : Anchor} (h : recordedAnchor e = some a) :
    ∃ commit, e.observation = .commit commit a.dateBucket ∧ commit.context = .normal ∧
      a.phrase = commit.phrase ∧ a.pinyin = normalizePinyin commit.pinyin ∧ a.time = e.time ∧
      isMonitorableSelection a.selection = true ∧ utf8ScalarCount a.phrase = some a.scalars := by
  obtain ⟨time, o⟩ := e
  cases o with
  | commit commit dateBucket =>
    rw [recordedAnchor] at h
    dsimp only at h
    split_ifs at h with hcond
    obtain ⟨n, hn, rfl⟩ := Option.map_eq_some_iff.mp h
    exact ⟨commit, rfl, hcond.1, rfl, rfl, rfl, hcond.2, hn⟩
  | unhandledKey backspace context => cases h
  | composition input context => cases h
  | breakAdjacency => cases h

theorem recordedAnchor_scalars_pos {a : Anchor} (h : recordedAnchor e = some a) :
    0 < a.scalars := by
  obtain ⟨-, -, -, -, -, -, -, hcount⟩ := recordedAnchor_facts h
  rw [utf8ScalarCount] at hcount
  split at hcount
  · cases hcount
  · cases hcount
  · rename_i cs hne _
    have hlen := Option.some_inj.mp hcount
    have hpos := length_pos_of_ne_nil (fun hnil : cs = [] => hne (by rw [hnil]))
    omega

/-- The chain after a history corrects two commits exactly when the last event replaces the one by
the other. -/
theorem replaces_iff (deadline : Anchor → ℤ) {events : List TimedEvent}
    (htime : (events ++ [e]).Pairwise (fun x y => x.time ≤ y.time)) (a b : Anchor) :
    Replaces deadline events e a b ↔ (Chain.run deadline events).corrects deadline e = some (a, b) := by
  constructor
  · rintro ⟨before, first, between, deletion, empties, typed, hevents, hfirst, hlast, hpinyin,
      hphrase, hbetween, hdel, hempties, htyped, hdeadline⟩
    have hnow : ∀ x ∈ between, x.time ≤ deadline a := by
      intro x hx
      have hle := (pairwise_append.mp htime).2.2 x
        (by rw [hevents]; exact mem_append_right _ (mem_cons_of_mem _ hx)) e
        mem_cons_self
      exact hle.trans hdeadline
    -- cut the events between into the deletion with the empty compositions, and what is typed
    obtain ⟨del, rest, hcut, hdelMap, hrestMap⟩ := map_eq_append_iff.mp
      (hbetween.trans (append_assoc deletion empties typed).symm)
    have hpos := recordedAnchor_scalars_pos hfirst
    have hstart : (Chain.run deadline before).step deadline first = .deleting a 0 := by
      obtain ⟨commit, hcommit, -⟩ := recordedAnchor_facts hfirst
      rw [Chain.step, hcommit]
      dsimp only
      rw [hfirst]
    have hdeleted : del.foldl (Chain.step deadline) (.deleting a 0) = .awaiting a false := by
      apply foldl_deletion deadline a del 0 a.scalars hpos (Nat.zero_add _)
      · rw [hdelMap]
        exact hdel.empties hempties
      · exact fun x hx => hnow x (by rw [hcut]; exact mem_append_left _ hx)
    obtain ⟨started, htypedRun⟩ := foldl_typed deadline a false (by rw [hrestMap]; exact htyped)
      (fun x hx => hnow x (by rw [hcut]; exact mem_append_right _ hx))
    have hrun : Chain.run deadline events = .awaiting a started := by
      calc Chain.run deadline events
          = between.foldl (Chain.step deadline)
              ((Chain.run deadline before).step deadline first) := by
            rw [hevents, Chain.run, foldl_append, foldl_cons]
            rfl
        _ = rest.foldl (Chain.step deadline) (del.foldl (Chain.step deadline) (.deleting a 0)) := by
            rw [hstart, hcut, foldl_append]
        _ = .awaiting a started := by rw [hdeleted, htypedRun]
    rw [hrun]
    unfold Chain.corrects
    rw [hlast]
    exact if_pos ⟨hdeadline, hpinyin, hphrase⟩
  · intro h
    have hexplained := Chain.explained_run deadline events
    generalize Chain.run deadline events = chain at h hexplained
    cases chain with
    | idle => cases h
    | deleting a' k => cases h
    | awaiting a' started =>
      unfold Chain.corrects at h
      cases hlast : recordedAnchor e with
      | none =>
        rw [hlast] at h
        cases h
      | some b' =>
        rw [hlast] at h
        dsimp only at h
        split_ifs at h with hcond
        cases h
        obtain ⟨before, first, between, deletion, empties, typed, hevents, hfirst, hbetween, hdel,
          hempties, htyped, -⟩ := hexplained
        exact ⟨before, first, between, deletion, empties, typed, hevents, hfirst, hlast, hcond.2.1,
          hcond.2.2, hbetween, hdel, hempties, htyped, hcond.1⟩

end Learning
end YunPin
