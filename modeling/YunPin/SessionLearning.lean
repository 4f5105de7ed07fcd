import YunPin.CorrectionLearning

/-! The session learner of the input-method filter: it watches commits, unhandled keys and the
composition, and turns a commit that was deleted and retyped into feedback for the scores. -/
namespace YunPin
open ByteText List

namespace Learning
open Engine (normalizePinyin)
open ScalarText (utf8ScalarCount)

def kMaxSessionCorrectionScore : ℤ := 1000000
def kMaxTrackedEntries : ℕ := 50000

structure SessionCommit where
  phrase : Bytes
  pinyin : Bytes
  context : LearningContext
  deriving DecidableEq, Repr

inductive Phase where
  | idle | deletingCommittedEntry | awaitingReplacement
  deriving DecidableEq, Repr

structure PendingCommit where
  phrase : Bytes
  pinyin : Bytes
  scalarCount : ℕ
  backspaceCount : ℕ
  replacementStarted : Bool
  expiresAt : ℤ
  deriving DecidableEq, Repr

/-- The window is in milliseconds, the times are in nanoseconds. -/
structure SessionLearning where
  correctionWindow : ℤ
  learning : CorrectionLearning
  trackedStatKeys : List Bytes
  correctionScores : SortedMap Bytes ℤ
  phase : Phase
  pending : Option PendingCommit
  deriving DecidableEq

/-- What the host reports. A commit comes with the date that the provider gives at that time. -/
inductive Observation where
  | commit (commit : SessionCommit) (dateBucket : Bytes)
  | unhandledKey (isUnmodifiedBackspace : Bool) (context : LearningContext)
  | composition (input : Bytes) (context : LearningContext)
  | breakAdjacency
  deriving DecidableEq, Repr

structure TimedEvent where
  time : ℤ
  observation : Observation
  deriving DecidableEq, Repr

/-- The two hash halves of an entry id, in groups of four hexadecimal digits. -/
def entryId (pinyin phrase : Bytes) : Bytes :=
  let left := Snapshot.appendHash 1469598103934665603 pinyin ^^^
    Snapshot.appendHash 1099511628211 phrase
  let right := Snapshot.appendHash 7809847782465536322 phrase ^^^
    Snapshot.appendHash 1609587929392839161 pinyin
  let group := fun (half : UInt64) (shift : ℕ) =>
    0x2D :: (List.range 4).map (fun i => hexDigit (half.toNat/2^shift%2^16/16^(3-i)%16))
  lit "rime" ++ [left, right].flatMap (fun half => [48, 32, 16, 0].flatMap (group half))

namespace SessionLearning

def new (correctionWindow : ℤ) : SessionLearning :=
  ⟨max correctionWindow 1, CorrectionLearning.new, [], ∅, .idle, none⟩

def expired (s : SessionLearning) (now : ℤ) : Bool :=
  match s.pending with
  | none => false
  | some pending => now > pending.expiresAt

def breakAdjacency (s : SessionLearning) : SessionLearning :=
  { s with phase := .idle, pending := none, learning := s.learning.clearAdjacency }

def arm (s : SessionLearning) (now : ℤ) (commit : SessionCommit) (update : LearningUpdate) :
    SessionLearning :=
  match update.recorded, utf8ScalarCount commit.phrase with
  | true, some scalars =>
    { s with
      pending := some ⟨commit.phrase, normalizePinyin commit.pinyin, scalars, 0, false,
        now + s.correctionWindow*1000000⟩
      phase := .deletingCommittedEntry }
  | _, _ => { s with phase := .idle, pending := none }

def applyDelta (scores : SortedMap Bytes ℤ) (feedback : FeedbackDelta) : SortedMap Bytes ℤ :=
  match scores.find? feedback.entryId with
  | none =>
    if scores.entries.length ≥ kMaxTrackedEntries then scores
    else scores.insert feedback.entryId (adjust 0 feedback.delta)
  | some score => scores.insert feedback.entryId (adjust score feedback.delta)
where
  adjust (score delta : ℤ) : ℤ :=
    if delta > 0 then
      if score > kMaxSessionCorrectionScore-delta then kMaxSessionCorrectionScore else score+delta
    else if delta < 0 then
      if score < -kMaxSessionCorrectionScore-delta then -kMaxSessionCorrectionScore
      else score+delta
    else score

def validReplacement (s : SessionLearning) (now : ℤ) (normalized phrase : Bytes) : Bool :=
  match s.pending with
  | none => false
  | some pending =>
    s.phase = .awaitingReplacement ∧ ¬s.expired now ∧ pending.pinyin = normalized ∧
      pending.phrase ≠ phrase

def selection (normalized phrase dateBucket : Bytes) : SelectionEvent :=
  { dateBucket := dateBucket, entryId := entryId normalized phrase, phrase := phrase
    pinyin := normalized }

def trackedKey (normalized phrase dateBucket : Bytes) : Bytes :=
  dateBucket ++ [0x1F] ++ entryId normalized phrase

def observeCommit (s : SessionLearning) (now : ℤ) (commit : SessionCommit) (dateBucket : Bytes) :
    SessionLearning × List FeedbackDelta :=
  let normalized := normalizePinyin commit.pinyin
  if commit.context ≠ .normal ∨ normalized = [] ∨ commit.phrase = [] then (s.breakAdjacency, [])
  else
    let commit := { commit with pinyin := normalized }
    let valid := s.validReplacement now normalized commit.phrase
    let s := if ¬valid ∧ s.phase ≠ .idle then s.breakAdjacency else s
    let key := trackedKey normalized commit.phrase dateBucket
    if key ∉ s.trackedStatKeys ∧ s.trackedStatKeys.length ≥ kMaxTrackedEntries then
      (s.breakAdjacency, [])
    else
      let (learning, update) := s.learning.recordSelection
        (selection normalized commit.phrase dateBucket)
      let s := { s with learning := learning }
      let s := if update.recorded ∧ key ∉ s.trackedStatKeys then
          { s with trackedStatKeys := s.trackedStatKeys ++ [key] }
        else s
      let feedback := if valid ∧ update.correctionCompleted ∧ update.requiresRequery then
          update.feedback
        else []
      let s := { s with correctionScores := feedback.foldl applyDelta s.correctionScores }
      (s.arm now commit update, feedback)

def observeUnhandledKey (s : SessionLearning) (now : ℤ) (isUnmodifiedBackspace : Bool)
    (context : LearningContext) : SessionLearning :=
  if s.phase = .idle then s
  else
    match s.pending with
    | none => s.breakAdjacency
    | some pending =>
      if context ≠ .normal ∨ ¬isUnmodifiedBackspace ∨ s.expired now ∨
          s.phase ≠ .deletingCommittedEntry then s.breakAdjacency
      else
        let pending := { pending with backspaceCount := pending.backspaceCount+1 }
        let s := { s with pending := some pending }
        if pending.backspaceCount > pending.scalarCount then s.breakAdjacency
        else if pending.backspaceCount = pending.scalarCount then
          let (learning, undone) := s.learning.undoLastSelection
          let s := { s with learning := learning }
          if ¬undone then s.breakAdjacency else { s with phase := .awaitingReplacement }
        else s

def observeComposition (s : SessionLearning) (now : ℤ) (input : Bytes)
    (context : LearningContext) : SessionLearning :=
  if s.phase = .idle then s
  else
    match s.pending with
    | none => s.breakAdjacency
    | some pending =>
      if context ≠ .normal ∨ s.expired now then s.breakAdjacency
      else
        let normalized := normalizePinyin input
        if input = [] then
          if s.phase = .awaitingReplacement ∧ pending.replacementStarted then s.breakAdjacency
          else s
        else if normalized = [] ∨ s.phase ≠ .awaitingReplacement ∨
            ¬normalized.isPrefixOf pending.pinyin then s.breakAdjacency
        else { s with pending := some { pending with replacementStarted := true } }

def step (s : SessionLearning) (e : TimedEvent) : SessionLearning × List FeedbackDelta :=
  match e.observation with
  | .commit commit dateBucket => s.observeCommit e.time commit dateBucket
  | .unhandledKey isUnmodifiedBackspace context =>
    (s.observeUnhandledKey e.time isUnmodifiedBackspace context, [])
  | .composition input context => (s.observeComposition e.time input context, [])
  | .breakAdjacency => (s.breakAdjacency, [])

def run (s : SessionLearning) (events : List TimedEvent) : SessionLearning :=
  events.foldl (fun s e => (s.step e).1) s

def correctionScore (s : SessionLearning) (pinyin phrase : Bytes) : ℤ :=
  let normalized := normalizePinyin pinyin
  if normalized = [] ∨ phrase = [] then 0
  else (s.correctionScores.find? (entryId normalized phrase)).getD 0

def queryHabits (s : SessionLearning) (query : HabitQuery) : List HabitStat :=
  buildHabitReport s.learning.stats query

/-- A commit that may not be monitored only ends the chain, on whichever path it is turned down. -/
theorem observeCommit_rejected (s : SessionLearning) (now : ℤ) {commit : SessionCommit}
    {dateBucket : Bytes}
    (h : isMonitorableSelection
      (selection (normalizePinyin commit.pinyin) commit.phrase dateBucket) = false) :
    s.observeCommit now commit dateBucket = (s.breakAdjacency, []) := by
  rw [observeCommit]
  by_cases hearly : commit.context ≠ .normal ∨ normalizePinyin commit.pinyin = [] ∨
      commit.phrase = []
  · rw [if_pos hearly]
  rw [if_neg hearly]
  dsimp only
  generalize s.validReplacement now (normalizePinyin commit.pinyin) commit.phrase = valid
  have hbroken : (if ¬valid = true ∧ s.phase ≠ .idle then s.breakAdjacency
      else s).breakAdjacency = s.breakAdjacency := by
    split_ifs <;> rfl
  generalize (if ¬valid = true ∧ s.phase ≠ .idle then s.breakAdjacency else s) = s₁ at hbroken
  rw [← hbroken]
  by_cases hfull : trackedKey (normalizePinyin commit.pinyin) commit.phrase dateBucket ∉
      s₁.trackedStatKeys ∧ s₁.trackedStatKeys.length ≥ kMaxTrackedEntries
  · rw [if_pos hfull]
  rw [if_neg hfull]
  have hrecord : s₁.learning.recordSelection
      (selection (normalizePinyin commit.pinyin) commit.phrase dateBucket) =
        (s₁.learning.clearAdjacency, { candidateEpoch := s₁.learning.candidateEpoch }) := by
    rw [CorrectionLearning.recordSelection, h, if_pos Bool.false_ne_true]
  rw [hrecord]
  cases valid <;> rfl

/-- Two observations that differ only in protected text: the text of a commit or composition in a
context that is not normal, or of two commits that may not be monitored. -/
inductive Alike : Observation → Observation → Prop
  | same (o : Observation) : Alike o o
  | protectedCommit (c c' : SessionCommit) (dateBucket : Bytes) (h : c.context ≠ .normal)
      (hsame : c'.context = c.context) : Alike (.commit c dateBucket) (.commit c' dateBucket)
  | protectedComposition (input input' : Bytes) (context : LearningContext)
      (h : context ≠ .normal) : Alike (.composition input context) (.composition input' context)
  | rejectedCommit (c c' : SessionCommit) (dateBucket : Bytes) (hc : c.context = .normal)
      (hc' : c'.context = .normal)
      (h : isMonitorableSelection
        (selection (normalizePinyin c.pinyin) c.phrase dateBucket) = false)
      (h' : isMonitorableSelection
        (selection (normalizePinyin c'.pinyin) c'.phrase dateBucket) = false) :
      Alike (.commit c dateBucket) (.commit c' dateBucket)

theorem step_alike (s : SessionLearning) {time : ℤ} {o o' : Observation} (h : Alike o o') :
    s.step ⟨time, o⟩ = s.step ⟨time, o'⟩ := by
  cases h with
  | same => rfl
  | protectedCommit c c' dateBucket h hsame =>
    have hleft : s.observeCommit time c dateBucket = (s.breakAdjacency, []) := by
      rw [observeCommit]
      exact if_pos (.inl h)
    have hright : s.observeCommit time c' dateBucket = (s.breakAdjacency, []) := by
      rw [observeCommit]
      exact if_pos (.inl (hsame ▸ h))
    exact hleft.trans hright.symm
  | protectedComposition input input' context h =>
    have hany (i : Bytes) : s.observeComposition time i context =
        if s.phase = .idle then s else s.breakAdjacency := by
      rw [observeComposition]
      by_cases hidle : s.phase = .idle
      · rw [if_pos hidle, if_pos hidle]
      rw [if_neg hidle, if_neg hidle]
      cases s.pending with
      | none => rfl
      | some pending => exact if_pos (.inl h)
    exact congrArg (fun s => (s, [])) ((hany input).trans (hany input').symm)
  | rejectedCommit c c' dateBucket hc hc' h h' =>
    exact (observeCommit_rejected s time h).trans
      (observeCommit_rejected s time h').symm

/-- The two sessions hold the same scores and statistics, and after any further events a ranking
and a report are the same. -/
structure Indistinguishable (s s' : SessionLearning) : Prop where
  scores : s.correctionScores = s'.correctionScores
  stats : s.learning.stats = s'.learning.stats
  epoch : s.learning.candidateEpoch = s'.learning.candidateEpoch
  future : ∀ events, (∀ pinyin phrase, (s.run events).correctionScore pinyin phrase =
      (s'.run events).correctionScore pinyin phrase) ∧
    (∀ query, (s.run events).queryHabits query = (s'.run events).queryHabits query) ∧
    (s.run events).learning.candidateEpoch = (s'.run events).learning.candidateEpoch

theorem indistinguishable_of_eq {s s' : SessionLearning} (h : s = s') : Indistinguishable s s' := by
  subst h
  exact ⟨rfl, rfl, rfl, fun _ => ⟨fun _ _ => rfl, fun _ => rfl, rfl⟩⟩

theorem run_alike (s : SessionLearning) {events events' : List TimedEvent}
    (h : List.Forall₂ (fun e e' => e.time = e'.time ∧ Alike e.observation e'.observation)
      events events') : s.run events = s.run events' := by
  induction h generalizing s with
  | nil => rfl
  | cons hhead htail ih =>
    rename_i e e' rest rest'
    have hstep : s.step e = s.step e' := by
      obtain ⟨time, o⟩ := e
      obtain ⟨time', o'⟩ := e'
      obtain ⟨rfl, halike⟩ := hhead
      exact step_alike s halike
    rw [run, run, foldl_cons, foldl_cons, hstep]
    exact ih (s.step e').1

/-- Protected text leaves no trace: after every event the sessions are indistinguishable. -/
theorem protected_input_no_trace (correctionWindow : ℤ) (events events' : List TimedEvent)
    (h : List.Forall₂ (fun e e' => e.time = e'.time ∧ Alike e.observation e'.observation)
      events events') (k : ℕ) :
    Indistinguishable ((new correctionWindow).run (events.take k))
      ((new correctionWindow).run (events'.take k)) :=
  indistinguishable_of_eq (run_alike _ (forall₂_take k h))

/-- A learned commit, protected text while its chain is pending, and a commit that is refused
as an address. -/
def typedBeside (secret address : String) : List TimedEvent :=
  [⟨0, .commit ⟨lit "他", lit "ta", .normal⟩ (lit "2026-01-01")⟩,
    ⟨1, .composition (lit secret) .privateMode⟩,
    ⟨2, .commit ⟨lit "她", lit "ta", .normal⟩ (lit "2026-01-01")⟩,
    ⟨3, .commit ⟨lit address, lit "you", .normal⟩ (lit "2026-01-01")⟩,
    ⟨4, .commit ⟨lit secret, lit "mi", .password⟩ (lit "2026-01-01")⟩]

theorem protected_input_no_trace_sample :
    ((new 5000).run ((typedBeside "mima" "a@b.cn").take 1)).pending.isSome = true ∧
    ((new 5000).run ((typedBeside "mima" "a@b.cn").take 3)).learning.stats.length = 2 ∧
    Indistinguishable ((new 5000).run ((typedBeside "mima" "a@b.cn").take 5))
      ((new 5000).run ((typedBeside "hunter2" "c@d.org").take 5)) := by
  refine ⟨by decide +kernel, by decide +kernel, protected_input_no_trace 5000 _ _ ?_ 5⟩
  exact .cons ⟨rfl, .same _⟩ (.cons ⟨rfl, .protectedComposition _ _ _ (by decide)⟩
    (.cons ⟨rfl, .same _⟩ (.cons ⟨rfl, .rejectedCommit _ _ _ rfl rfl (by decide) (by decide)⟩
      (.cons ⟨rfl, .protectedCommit _ _ _ (by decide) rfl⟩ .nil))))

end SessionLearning
end Learning
end YunPin
