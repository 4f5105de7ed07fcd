import YunPin.SessionChain

/-! When a session applies correction feedback. The two coupled state machines, the phases of the
session and the adjacency of the learner, refine the chain, as long as the tables are not full. -/
namespace YunPin
open ByteText List

namespace Learning
open Engine (normalizePinyin normalizePinyin_lower normalizePinyin_letters)
open ScalarText (utf8ScalarCount countSafeUtf8)
open SessionLearning (trackedKey applyDelta)

variable {l : CorrectionLearning}

theorem statIndexFor_known {target : SelectionEvent}
    (h : (l.statIndexes.find? (statKey target)).isSome = true) :
    ∃ index, l.statIndexFor target = some (index, l) := by
  obtain ⟨index, hindex⟩ := Option.isSome_iff_exists.mp h
  refine ⟨index, ?_⟩
  rw [CorrectionLearning.statIndexFor, hindex]

theorem statIndexFor_room (target : SelectionEvent)
    (hroom : l.stats.length < kMaxHabitStatEntries) :
    ∃ index l', l.statIndexFor target = some (index, l') ∧
      l'.lastSelection = l.lastSelection ∧ l'.pendingWrong = l.pendingWrong ∧
      (l'.statIndexes.find? (statKey target)).isSome = true ∧
      (∀ key, (l.statIndexes.find? key).isSome = true →
        (l'.statIndexes.find? key).isSome = true) ∧
      l'.stats.length = l.stats.length +
        if (l.statIndexes.find? (statKey target)).isSome then 0 else 1 := by
  rw [CorrectionLearning.statIndexFor]
  cases hfind : l.statIndexes.find? (statKey target) with
  | some index => exact ⟨index, l, rfl, rfl, rfl, by rw [hfind]; rfl, fun _ h => h, rfl⟩
  | none =>
    dsimp only
    rw [if_neg (not_le.mpr hroom)]
    refine ⟨_, _, rfl, rfl, rfl, ?_, fun key hkey => ?_, length_append ..⟩
    · rw [SortedMap.find?_insert_self]
      rfl
    · rw [SortedMap.find?_insert]
      split_ifs
      · rfl
      · exact hkey

structure RecordedAs (l : CorrectionLearning) (event : SelectionEvent)
    (r : CorrectionLearning × LearningUpdate) : Prop where
  recorded : r.2.recorded = true
  last : r.1.lastSelection = some event
  wrong : r.1.pendingWrong = none
  known : (r.1.statIndexes.find? (statKey event)).isSome = true
  keeps : ∀ key, (l.statIndexes.find? key).isSome = true →
    (r.1.statIndexes.find? key).isSome = true
  rows : r.1.stats.length = l.stats.length +
    if (l.statIndexes.find? (statKey event)).isSome then 0 else 1
  correction : ∀ w, l.pendingWrong = some w → sameEntry w event = false →
    r.2.correctionCompleted = true ∧ r.2.requiresRequery = true ∧
      r.2.feedback = [⟨w.entryId, -1⟩, ⟨event.entryId, 1⟩]

theorem recordSelection_spec {event : SelectionEvent} (hok : isMonitorableSelection event = true)
    (hnorm : normalizePinyin event.pinyin = event.pinyin)
    (hroom : l.stats.length < kMaxHabitStatEntries)
    (hwrong : ∀ w, l.pendingWrong = some w → (l.statIndexes.find? (statKey w)).isSome = true) :
    RecordedAs l event (l.recordSelection event) := by
  obtain ⟨index, l', hindex, hlast', hwrong', hknown, hkeeps, hrows⟩ :=
    statIndexFor_room event hroom
  have hevent : { event with pinyin := normalizePinyin event.pinyin } = event := by
    rw [hnorm]
  rw [CorrectionLearning.recordSelection, if_neg (not_not.mpr hok), hevent]
  dsimp only
  rw [hindex]
  dsimp only
  -- the learner after the count of the selected row went up
  have hm (f : HabitStat → HabitStat) : (l'.updateStat index f).pendingWrong = l.pendingWrong ∧
      (l'.updateStat index f).statIndexes = l'.statIndexes ∧
      (l'.updateStat index f).stats.length = l'.stats.length :=
    ⟨hwrong', rfl, length_modify ..⟩
  specialize hm (fun stat =>
    { stat with selectionCount := saturatingIncrement stat.selectionCount })
  generalize l'.updateStat index (fun stat =>
    { stat with selectionCount := saturatingIncrement stat.selectionCount }) = m at hm
  obtain ⟨hmWrong, hmIndexes, hmRows⟩ := hm
  rw [← hmIndexes] at hknown hkeeps
  rw [← hmRows] at hrows
  rw [hmWrong]
  cases hw : l.pendingWrong with
  | none => exact ⟨rfl, rfl, rfl, hknown, hkeeps, hrows, by grind⟩
  | some w =>
    dsimp only
    split_ifs with hsame
    · exact ⟨rfl, rfl, rfl, hknown, hkeeps, hrows, by grind⟩
    · -- the wrong entry has a row already, so no second row is added
      obtain ⟨wrongIndex, hwrongIndex⟩ := statIndexFor_known (hkeeps _ (hwrong w hw))
      rw [hwrongIndex]
      refine ⟨rfl, rfl, rfl, hknown, hkeeps, ?_, fun w' h _ => ?_⟩
      · rw [← hrows]
        exact (length_modify ..).trans (length_modify ..)
      · cases hw.symm.trans h
        exact ⟨rfl, rfl, rfl⟩

theorem normalizePinyin_idem (s : Bytes) :
    normalizePinyin (normalizePinyin s) = normalizePinyin s :=
  normalizePinyin_lower _ (normalizePinyin_letters s)

theorem isMonitorableSelection_facts {event : SelectionEvent}
    (h : isMonitorableSelection event = true) :
    event.dateBucket.length = 10 ∧ event.phrase ≠ [] ∧ normalizePinyin event.pinyin ≠ [] ∧
      ∃ n, utf8ScalarCount event.phrase = some n := by
  rw [isMonitorableSelection] at h
  split_ifs at h with hbad
  simp only [not_or, not_not] at hbad
  obtain ⟨-, -, hdate, -, hphrase, -⟩ := hbad
  have hlength : event.dateBucket.length = 10 := by
    by_contra hlen
    rw [isDateBucket, if_pos (.inl hlen)] at hdate
    cases hdate
  split at h
  · cases h
  · rename_i n hcount
    split_ifs at h with hn
    rw [decide_eq_true_eq] at h
    refine ⟨hlength, hphrase, h.1, n, ?_⟩
    exact ScalarText.utf8ScalarCount_of_safe hcount (fun hz => hn (.inl hz))

theorem trackedKey_inj {p phrase d p' phrase' d' : Bytes} (hd : d.length = 10)
    (hd' : d'.length = 10)
    (h : trackedKey p phrase d = trackedKey p' phrase' d') :
    d = d' ∧ entryId p phrase = entryId p' phrase' := by
  rw [trackedKey, trackedKey, append_assoc, append_assoc] at h
  obtain ⟨hdate, hid⟩ := append_inj h (hd.trans hd'.symm)
  exact ⟨hdate, append_cancel_left hid⟩

theorem drop_trackedKey {p phrase d : Bytes} (hd : d.length = 10) :
    (trackedKey p phrase d).drop 11 = entryId p phrase := by
  have hlen : (d ++ [0x1F]).length = 11 := by
    rw [length_append, hd]
    rfl
  rw [trackedKey, ← hlen, drop_left]

def clampSession (score : ℤ) : ℤ :=
  max (-kMaxSessionCorrectionScore) (min score kMaxSessionCorrectionScore)

theorem clampSession_range {score : ℤ} :
    -kMaxSessionCorrectionScore ≤ clampSession score ∧
      clampSession score ≤ kMaxSessionCorrectionScore := by
  rw [clampSession, kMaxSessionCorrectionScore]
  omega

theorem adjust_eq (score delta : ℤ)
    (h : -kMaxSessionCorrectionScore ≤ score ∧ score ≤ kMaxSessionCorrectionScore) :
    applyDelta.adjust score delta = clampSession (score+delta) := by
  rw [kMaxSessionCorrectionScore] at h
  rw [applyDelta.adjust, clampSession, kMaxSessionCorrectionScore]
  split_ifs <;> omega

def ScoresInRange (scores : SortedMap Bytes ℤ) : Prop :=
  ∀ id score, scores.find? id = some score →
    -kMaxSessionCorrectionScore ≤ score ∧ score ≤ kMaxSessionCorrectionScore

variable {scores : SortedMap Bytes ℤ}

theorem ScoresInRange.getD (h : ScoresInRange scores) (id : Bytes) :
    -kMaxSessionCorrectionScore ≤ (scores.find? id).getD 0 ∧
      (scores.find? id).getD 0 ≤ kMaxSessionCorrectionScore := by
  cases hfind : scores.find? id with
  | none => exact ⟨by decide, by decide⟩
  | some score => exact h id score hfind

theorem applyDelta_eq {id : Bytes} (delta : ℤ) (hrange : ScoresInRange scores)
    (hroom : id ∈ scores.keys ∨ scores.entries.length < kMaxTrackedEntries) :
    applyDelta scores ⟨id, delta⟩ =
      scores.insert id (clampSession ((scores.find? id).getD 0+delta)) := by
  have hget := adjust_eq _ delta (hrange.getD id)
  rw [applyDelta]
  dsimp only
  cases hfind : scores.find? id with
  | some score =>
    rw [hfind] at hget
    exact congrArg (scores.insert id) hget
  | none =>
    have hnot := (SortedMap.find?_eq_none_iff scores id).mp hfind
    rw [hfind] at hget
    dsimp only
    rw [if_neg (not_le.mpr (hroom.resolve_left hnot))]
    exact congrArg (scores.insert id) hget

theorem ScoresInRange.insert (h : ScoresInRange scores) (id : Bytes) (score : ℤ) :
    ScoresInRange (scores.insert id (clampSession score)) := by
  intro other value hvalue
  rw [SortedMap.find?_insert] at hvalue
  split_ifs at hvalue
  · cases hvalue
    exact clampSession_range
  · exact h other value hvalue

def deadline (correctionWindow : ℤ) (a : Anchor) : ℤ := a.time + correctionWindow*1000000

def Chain.anchor : Chain → Option Anchor
  | .idle => none
  | .deleting a _ => some a
  | .awaiting a _ => some a

/-- The phases of the session and the adjacency of the learner, in each state of the chain. -/
def Refines (s : SessionLearning) : Chain → Prop
  | .idle => s.phase = .idle ∧ s.pending = none ∧ s.learning.pendingWrong = none
  | .deleting a k => s.phase = .deletingCommittedEntry ∧
      s.pending = some ⟨a.phrase, a.pinyin, a.scalars, k, false, deadline s.correctionWindow a⟩ ∧
      s.learning.lastSelection = some a.selection ∧ s.learning.pendingWrong = none ∧
      k < a.scalars
  | .awaiting a started => s.phase = .awaitingReplacement ∧
      s.pending = some ⟨a.phrase, a.pinyin, a.scalars, a.scalars, started,
        deadline s.correctionWindow a⟩ ∧
      s.learning.pendingWrong = some a.selection

/-- The identifiers that the session tracks: a key is a date of ten bytes, a separator and the
identifier. -/
def trackedIds (s : SessionLearning) : List Bytes := s.trackedStatKeys.map (List.drop 11)

/-- No two entries share an identifier. -/
def Distinct (P : Bytes → Bytes → Prop) : Prop := ∀ p phrase p' phrase', P p phrase →
  P p' phrase' → entryId p phrase = entryId p' phrase' → p = p' ∧ phrase = phrase'

/-- The tables of a session agree: every tracked key has its row, and nothing else has. -/
structure Ledger (P : Bytes → Bytes → Prop) (s : SessionLearning) : Prop where
  rows : s.learning.stats.length ≤ s.trackedStatKeys.length
  keys : ∀ key ∈ s.trackedStatKeys, ∃ p phrase d,
    key = trackedKey p phrase d ∧ d.length = 10 ∧ P p phrase ∧
      (s.learning.statIndexes.find?
        (statKey (SessionLearning.selection p phrase d))).isSome = true
  scored : ∀ id ∈ s.correctionScores.keys, id ∈ trackedIds s
  range : ScoresInRange s.correctionScores

structure Follows (P : Bytes → Bytes → Prop) (s : SessionLearning) (chain : Chain) : Prop where
  refines : Refines s chain
  ledger : Ledger P s
  anchor : ∀ a, chain.anchor = some a → a.id ∈ trackedIds s ∧
    (s.learning.statIndexes.find? (statKey a.selection)).isSome = true

section Following
variable {P : Bytes → Bytes → Prop} {s : SessionLearning} {chain : Chain}

theorem Follows.breakAdjacency (h : Follows P s chain) : Follows P s.breakAdjacency .idle :=
  ⟨⟨rfl, rfl, rfl⟩, { h.ledger with },
    fun _ ha => by cases ha⟩

theorem expired_iff {pending : PendingCommit} (h : s.pending = some pending) (now : ℤ) :
    s.expired now = true ↔ pending.expiresAt < now := by
  rw [SessionLearning.expired, h]
  exact decide_eq_true_iff

theorem Follows.phase_idle_iff (h : Follows P s chain) : s.phase = .idle ↔ chain = .idle := by
  have hrefines := h.refines
  cases chain <;> simp [hrefines.1]

theorem Follows.key (h : Follows P s chain) (now : ℤ) (backspace : Bool)
    (context : LearningContext) :
    Follows P (s.observeUnhandledKey now backspace context)
      (chain.onKey (deadline s.correctionWindow) now backspace context) := by
  rw [SessionLearning.observeUnhandledKey]
  have hrefines := h.refines
  cases chain with
  | idle =>
    rw [if_pos hrefines.1]
    exact h
  | awaiting a started =>
    obtain ⟨hphase, hpending, -⟩ := hrefines
    rw [hphase, hpending, if_neg (by decide)]
    dsimp only
    rw [if_pos (by simp)]
    exact h.breakAdjacency
  | deleting a k =>
    obtain ⟨hphase, hpending, hlast, hwrong, hk⟩ := hrefines
    -- the last backspace turns the recorded selection into the wrong one
    have hundo : s.learning.undoLastSelection =
        ({ s.learning with pendingWrong := some a.selection, lastSelection := none }, true) := by
      rw [CorrectionLearning.undoLastSelection, hlast]
      rfl
    have hstop : (context ≠ .normal ∨ ¬backspace = true ∨ s.expired now = true ∨
        s.phase ≠ .deletingCommittedEntry) ↔
        ¬(context = .normal ∧ backspace = true ∧ now ≤ deadline s.correctionWindow a) := by
      rw [expired_iff hpending now, ← not_le]
      tauto
    rw [if_neg (by rw [hphase]; decide), Chain.onKey, hpending]
    simp only [hstop]
    by_cases hkey : context = .normal ∧ backspace = true ∧ now ≤ deadline s.correctionWindow a
    · rw [if_pos hkey, if_neg (not_not.mpr hkey), if_neg (by omega), hundo, if_neg (not_not.mpr rfl)]
      split_ifs with hlastKey
      · refine ⟨⟨rfl, ?_, rfl⟩, { h.ledger with }, h.anchor⟩
        rw [hlastKey]
      · exact ⟨⟨hphase, rfl, hlast, hwrong, by omega⟩, { h.ledger with }, h.anchor⟩
    · rw [if_neg hkey, if_pos hkey]
      exact h.breakAdjacency

theorem Follows.composition (h : Follows P s chain) (now : ℤ) (input : Bytes)
    (context : LearningContext) :
    Follows P (s.observeComposition now input context)
      (chain.onComposition (deadline s.correctionWindow) now input context) := by
  rw [SessionLearning.observeComposition]
  have hrefines := h.refines
  cases chain with
  | idle =>
    rw [if_pos hrefines.1]
    exact h
  | deleting a k =>
    obtain ⟨hphase, hpending, -⟩ := hrefines
    have hexpired := expired_iff hpending now
    rw [hphase, hpending, if_neg (by decide), Chain.onComposition]
    dsimp only
    by_cases hgo : context = .normal ∧ now ≤ deadline s.correctionWindow a ∧ input = []
    · rw [if_pos hgo, if_neg (by grind), if_pos hgo.2.2, if_neg (by simp)]
      exact h
    · rw [if_neg hgo]
      split_ifs
      all_goals first | exact h.breakAdjacency | grind
  | awaiting a started =>
    obtain ⟨hphase, hpending, hwrong⟩ := hrefines
    have hexpired := expired_iff hpending now
    rw [if_neg (by rw [hphase]; decide), hpending, Chain.onComposition]
    dsimp only
    by_cases hgo : context = .normal ∧ now ≤ deadline s.correctionWindow a
    · rw [if_pos hgo, if_neg (by grind)]
      by_cases hempty : input = []
      · rw [if_pos hempty, if_pos hempty]
        cases started with
        | true =>
          rw [if_pos ⟨hphase, rfl⟩]
          exact h.breakAdjacency
        | false =>
          rw [if_neg (by simp)]
          exact h
      · rw [if_neg hempty, if_neg hempty]
        simp only [ isPrefixOf_iff_prefix]
        by_cases hstart : normalizePinyin input ≠ [] ∧ normalizePinyin input <+: a.pinyin
        · rw [if_pos hstart, if_neg (by grind)]
          exact ⟨⟨hphase, rfl, hwrong⟩, { h.ledger with }, h.anchor⟩
        · rw [if_neg hstart, if_pos (by grind)]
          exact h.breakAdjacency
    · rw [if_neg hgo, if_pos (by grind)]
      exact h.breakAdjacency

theorem scores_room {ids : List Bytes} {id : Bytes}
    (hscored : ∀ other ∈ scores.keys, other ∈ ids) (hid : id ∈ ids)
    (hlen : ids.length ≤ kMaxTrackedEntries) :
    id ∈ scores.keys ∨ scores.entries.length < kMaxTrackedEntries := by
  by_cases hmem : id ∈ scores.keys
  · exact .inl hmem
  have hnodup : (id :: scores.keys).Nodup :=
    nodup_cons.mpr ⟨hmem, scores.sorted.imp (fun h => h.ne)⟩
  have hsubset : id :: scores.keys ⊆ ids := by
    intro other hother
    rcases mem_cons.mp hother with rfl | hother
    · exact hid
    · exact hscored other hother
  have hle := (hnodup.subperm hsubset).length_le
  rw [length_cons, SortedMap.keys, length_map] at hle
  exact .inr (by omega)

def feedbackOf : Option (Anchor × Anchor) → List FeedbackDelta
  | none => []
  | some (a, b) => [⟨a.id, -1⟩, ⟨b.id, 1⟩]

def scoresAfter (scores : SortedMap Bytes ℤ) : Option (Anchor × Anchor) → SortedMap Bytes ℤ
  | none => scores
  | some (a, b) =>
    (scores.insert a.id (clampSession ((scores.find? a.id).getD 0 + -1))).insert b.id
      (clampSession ((scores.find? b.id).getD 0 + 1))

theorem foldl_applyDelta {ids : List Bytes} (hscored : ∀ id ∈ scores.keys, id ∈ ids)
    (hrange : ScoresInRange scores) (hlen : ids.length ≤ kMaxTrackedEntries)
    (pair : Option (Anchor × Anchor))
    (hpair : ∀ a b, pair = some (a, b) → a.id ≠ b.id ∧ a.id ∈ ids ∧ b.id ∈ ids) :
    (feedbackOf pair).foldl applyDelta scores = scoresAfter scores pair ∧
      (∀ id ∈ (scoresAfter scores pair).keys, id ∈ ids) ∧
      ScoresInRange (scoresAfter scores pair) := by
  match pair, hpair with
  | none, _ => exact ⟨rfl, hscored, hrange⟩
  | some (a, b), hpair =>
    obtain ⟨hne, ha, hb⟩ := hpair a b rfl
    have hfirst := applyDelta_eq (-1) hrange (scores_room hscored ha hlen)
    have hrange' := hrange.insert a.id ((scores.find? a.id).getD 0 + -1)
    have hscored' : ∀ id ∈ (scores.insert a.id
        (clampSession ((scores.find? a.id).getD 0 + -1))).keys, id ∈ ids := by
      intro id hid
      rcases (SortedMap.mem_keys_insertEntry _ _ _ _).mp hid with rfl | hid
      · exact ha
      · exact hscored id hid
    have hsecond := applyDelta_eq 1 hrange' (scores_room hscored' hb hlen)
    rw [SortedMap.find?_insert_ne _ _ _ _ hne.symm] at hsecond
    refine ⟨?_, fun id hid => ?_, hrange'.insert b.id _⟩
    · rw [feedbackOf, foldl_cons, foldl_cons, foldl_nil, hfirst, hsecond]
      rfl
    · rcases (SortedMap.mem_keys_insertEntry _ _ _ _).mp hid with rfl | hid
      · exact hb
      · exact hscored' id hid

variable {e : TimedEvent} {b : Anchor}

theorem corrects_facts (due : Anchor → ℤ) {a : Anchor} (h : chain.corrects due e = some (a, b)) :
    (∃ started, chain = .awaiting a started) ∧ recordedAnchor e = some b ∧
      a.pinyin = b.pinyin ∧ a.phrase ≠ b.phrase := by
  unfold Chain.corrects at h
  split at h
  · split_ifs at h with hcond
    cases h
    exact ⟨⟨_, rfl⟩, by assumption, hcond.2⟩
  · cases h

theorem Follows.validReplacement_eq (h : Follows P s chain) (hb : recordedAnchor e = some b) :
    s.validReplacement e.time b.pinyin b.phrase =
      (chain.corrects (deadline s.correctionWindow) e).isSome := by
  have hrefines := h.refines
  rw [SessionLearning.validReplacement]
  cases chain with
  | idle =>
    rw [hrefines.2.1]
    rfl
  | deleting a k =>
    obtain ⟨hphase, hpending, -⟩ := hrefines
    rw [hpending]
    dsimp only
    rw [hphase]
    exact decide_eq_false (fun hall => Phase.noConfusion hall.1)
  | awaiting a started =>
    obtain ⟨hphase, hpending, -⟩ := hrefines
    have hexpired := expired_iff hpending e.time
    unfold Chain.corrects
    rw [hpending, hb]
    grind

theorem Follows.wrong_known (h : Follows P s chain) {w : SelectionEvent}
    (hw : s.learning.pendingWrong = some w) :
    (∃ a started, chain = .awaiting a started ∧ w = a.selection) ∧
      (s.learning.statIndexes.find? (statKey w)).isSome = true := by
  have hrefines := h.refines
  cases chain with
  | idle => exact absurd (hw.symm.trans hrefines.2.2) (by simp)
  | deleting a k => exact absurd (hw.symm.trans hrefines.2.2.2.1) (by simp)
  | awaiting a started =>
    have he : w = a.selection := Option.some_inj.mp (hw.symm.trans hrefines.2.2)
    rw [he]
    exact ⟨⟨a, started, rfl, rfl⟩, (h.anchor a rfl).2⟩

def Anchor.key (a : Anchor) : Bytes := trackedKey a.pinyin a.phrase a.dateBucket

def track (keys : List Bytes) (key : Bytes) : List Bytes :=
  if key ∈ keys then keys else keys ++ [key]

theorem mem_track {keys : List Bytes} {key other : Bytes} :
    other ∈ track keys key ↔ other ∈ keys ∨ other = key := by
  grind [track]

theorem length_track_le (keys : List Bytes) (key : Bytes) :
    (track keys key).length ≤ keys.length+1 := by
  grind [track]

/-- Recording keeps the tables in agreement: a key that is tracked already has its row, since no
two recorded entries share an identifier. -/
theorem Ledger.record (h : Ledger P s) {r : CorrectionLearning × LearningUpdate}
    (hr : RecordedAs s.learning b.selection r) (hdate : b.dateBucket.length = 10)
    (hP : P b.pinyin b.phrase)
    (hids : Distinct P)
    (hscored : ∀ id ∈ scores.keys, id ∈ (track s.trackedStatKeys b.key).map (List.drop 11))
    (hrange : ScoresInRange scores) (phase : Phase) (pending : Option PendingCommit) :
    Ledger P ⟨s.correctionWindow, r.1, track s.trackedStatKeys b.key, scores, phase, pending⟩ := by
  refine ⟨?_, fun key hkey => ?_, hscored, hrange⟩
  · dsimp only
    rw [hr.rows, track]
    by_cases hold : b.key ∈ s.trackedStatKeys
    · obtain ⟨p, phrase, d, hkey, hd, hPold, hknown⟩ := h.keys _ hold
      obtain ⟨hdates, hsame⟩ := trackedKey_inj hdate hd hkey
      obtain ⟨rfl, rfl⟩ := hids p phrase _ _ hPold hP hsame.symm
      subst hdates
      rw [if_pos hold]
      exact (congrArg _ (if_pos hknown)).trans_le h.rows
    · rw [if_neg hold, length_append, length_singleton]
      have hrows := h.rows
      split_ifs <;> omega
  · rcases mem_track.mp hkey with hold | hnew
    · obtain ⟨p, phrase, d, hform, hd, hPold, hknown⟩ := h.keys key hold
      exact ⟨p, phrase, d, hform, hd, hPold, hr.keeps _ hknown⟩
    · exact ⟨b.pinyin, b.phrase, b.dateBucket, hnew, hdate, hP, hr.known⟩

variable {commit : SessionCommit} {dateBucket : Bytes} {time : ℤ}

theorem observeCommit_unrecorded (s : SessionLearning)
    (h : recordedAnchor ⟨time, .commit commit dateBucket⟩ = none) :
    s.observeCommit time commit dateBucket = (s.breakAdjacency, []) := by
  rw [recordedAnchor] at h
  dsimp only at h
  by_cases hcontext : commit.context = .normal
  · cases hok : isMonitorableSelection (SessionLearning.selection (normalizePinyin commit.pinyin)
        commit.phrase dateBucket) with
    | false => exact SessionLearning.observeCommit_rejected s time hok
    | true =>
      obtain ⟨-, -, -, n, hn⟩ := isMonitorableSelection_facts hok
      have hcount : utf8ScalarCount commit.phrase = some n := hn
      rw [if_pos ⟨hcontext, hok⟩, hcount] at h
      cases h
  · rw [SessionLearning.observeCommit]
    exact if_pos (.inl hcontext)

/-- The session that a commit is recorded in: a chain that the commit does not end properly is
broken off first. -/
def recordingIn (s : SessionLearning) (valid : Bool) : SessionLearning :=
  if ¬valid ∧ s.phase ≠ .idle then s.breakAdjacency else s

theorem tracked_recordingIn (s : SessionLearning) (valid : Bool) :
    (recordingIn s valid).trackedStatKeys = s.trackedStatKeys := by
  rw [recordingIn]
  split_ifs <;> rfl

theorem observeCommit_recorded
    (hb : recordedAnchor ⟨time, .commit commit dateBucket⟩ = some b) {valid : Bool}
    (hvalid : s.validReplacement time b.pinyin b.phrase = valid)
    (hroom : s.trackedStatKeys.length < kMaxTrackedEntries)
    {r : CorrectionLearning × LearningUpdate}
    (hr : (recordingIn s valid).learning.recordSelection b.selection = r)
    (hrecorded : r.2.recorded = true) {feedback : List FeedbackDelta}
    (hfeedback : (if valid ∧ r.2.correctionCompleted ∧ r.2.requiresRequery then r.2.feedback
      else []) = feedback) :
    s.observeCommit time commit dateBucket =
      (⟨s.correctionWindow, r.1, track s.trackedStatKeys b.key,
        feedback.foldl applyDelta s.correctionScores, .deletingCommittedEntry,
        some ⟨b.phrase, b.pinyin, b.scalars, 0, false, deadline s.correctionWindow b⟩⟩,
        feedback) := by
  obtain ⟨commit', hcommit, hcontext, hphrase, hpinyin, htime, hok, hcount⟩ :=
    recordedAnchor_facts hb
  obtain ⟨hdate, hphraseNe, hpinyinNe, -⟩ := isMonitorableSelection_facts hok
  cases hcommit
  rw [SessionLearning.observeCommit, if_neg]
  swap
  · simp only [not_or, not_not]
    refine ⟨hcontext, ?_, hphrase ▸ hphraseNe⟩
    rw [← normalizePinyin_idem, ← hpinyin]
    exact hpinyinNe
  dsimp only
  rw [← hpinyin, ← hphrase, hvalid]
  have hsame : (recordingIn s valid).trackedStatKeys = s.trackedStatKeys ∧
      (recordingIn s valid).correctionScores = s.correctionScores ∧
      (recordingIn s valid).correctionWindow = s.correctionWindow := by
    rw [recordingIn]
    split_ifs <;> exact ⟨rfl, rfl, rfl⟩
  have hkey : trackedKey b.pinyin b.phrase b.dateBucket = b.key := rfl
  have hselection : SessionLearning.selection b.pinyin b.phrase b.dateBucket = b.selection := rfl
  have hin : (if ¬valid = true ∧ s.phase ≠ .idle then s.breakAdjacency else s) =
      recordingIn s valid := rfl
  rw [hkey, hselection, hin]
  obtain ⟨hkeys, hscores, hwindow⟩ := hsame
  generalize recordingIn s valid = s₁ at hr hkeys hscores hwindow
  rw [if_neg (fun hfull => absurd hfull.2 (by rw [hkeys]; exact not_le.mpr hroom)), hr]
  have htrack : (if r.2.recorded = true ∧ b.key ∉ s₁.trackedStatKeys then
        { s₁ with learning := r.1, trackedStatKeys := s₁.trackedStatKeys ++ [b.key] }
      else { s₁ with learning := r.1 }) =
      ⟨s₁.correctionWindow, r.1, track s.trackedStatKeys b.key, s.correctionScores, s₁.phase,
        s₁.pending⟩ := by
    rw [track, ← hkeys, ← hscores]
    by_cases hold : b.key ∈ s₁.trackedStatKeys
    · rw [if_neg (fun hnew => hnew.2 hold), if_pos hold]
    · rw [if_pos ⟨hrecorded, hold⟩, if_neg hold]
  rw [htrack, hfeedback]
  refine Prod.ext ?_ rfl
  dsimp only
  rw [SessionLearning.arm, hrecorded]
  dsimp only
  rw [hcount, deadline, hwindow, htime, hpinyin, normalizePinyin_idem]

/-- What the session does at an event is what the chain says, scores included. -/
structure Matches (P : Bytes → Bytes → Prop) (s : SessionLearning) (chain : Chain)
    (e : TimedEvent) (r : SessionLearning × List FeedbackDelta) : Prop where
  follows : Follows P r.1 (chain.step (deadline s.correctionWindow) e)
  window : r.1.correctionWindow = s.correctionWindow
  feedback : r.2 = feedbackOf (chain.corrects (deadline s.correctionWindow) e)
  scores : r.1.correctionScores =
    scoresAfter s.correctionScores (chain.corrects (deadline s.correctionWindow) e)

theorem Follows.recording (h : Follows P s chain) (valid : Bool) :
    Follows P (recordingIn s valid) (if valid then chain else .idle) := by
  rw [recordingIn]
  have hidle := h.phase_idle_iff
  split_ifs with hbreak hvalid hvalid
  · exact absurd hvalid hbreak.1
  · exact h.breakAdjacency
  · exact h
  · rw [← hidle.mp (by tauto)]
    exact h

theorem Follows.recordedCommit (h : Follows P s chain)
    (hb : recordedAnchor ⟨time, .commit commit dateBucket⟩ = some b)
    (hroom : s.trackedStatKeys.length < kMaxTrackedEntries) (hP : P b.pinyin b.phrase)
    (hids : Distinct P)
    (hanchor : ∀ a, chain.anchor = some a → P a.pinyin a.phrase) :
    Matches P s chain ⟨time, .commit commit dateBucket⟩
      (s.observeCommit time commit dateBucket) := by
  obtain ⟨-, -, -, -, -, htime, hok, -⟩ := recordedAnchor_facts hb
  obtain ⟨hdate, -, -, -⟩ := isMonitorableSelection_facts hok
  have hnorm : normalizePinyin b.selection.pinyin = b.selection.pinyin := by
    obtain ⟨_, -, -, -, hpinyin, -⟩ := recordedAnchor_facts hb
    change normalizePinyin b.pinyin = b.pinyin
    rw [hpinyin, normalizePinyin_idem]
  have hvalid := h.validReplacement_eq hb
  generalize hpair : chain.corrects (deadline s.correctionWindow)
    ⟨time, .commit commit dateBucket⟩ = pair at hvalid
  have hin := h.recording pair.isSome
  have hkeys := tracked_recordingIn s pair.isSome
  -- the learner records the selection, and completes a correction when the commit is valid
  have hrecord := recordSelection_spec hok hnorm
    ((hin.ledger.rows.trans_eq (congrArg _ hkeys)).trans_lt hroom)
    (fun w hw => (hin.wrong_known hw).2)
  generalize hr : (recordingIn s pair.isSome).learning.recordSelection b.selection = r at hrecord
  have hfeedback : (if pair.isSome = true ∧ r.2.correctionCompleted = true ∧
      r.2.requiresRequery = true then r.2.feedback else []) = feedbackOf pair := by
    match pair with
    | none => exact if_neg (fun hall => Bool.false_ne_true hall.1)
    | some (a, b') =>
      obtain ⟨⟨started, hchain⟩, hb', -, hphrase⟩ := corrects_facts _ hpair
      cases hb.symm.trans hb'
      subst hchain
      have hdiffer : sameEntry a.selection b.selection = false :=
        decide_eq_false (fun hall => hphrase hall.2.1)
      obtain ⟨hdone, hagain, hdeltas⟩ := hrecord.correction a.selection hin.refines.2.2 hdiffer
      exact (if_pos ⟨rfl, hdone, hagain⟩).trans hdeltas
  rw [observeCommit_recorded hb hvalid hroom hr hrecord.recorded hfeedback]
  have holder : ∀ id ∈ trackedIds s, id ∈ (track s.trackedStatKeys b.key).map (List.drop 11) := by
    intro id hid
    obtain ⟨key, hkey, rfl⟩ := mem_map.mp hid
    exact mem_map_of_mem (mem_track.mpr (.inl hkey))
  have hnewer : b.id ∈ (track s.trackedStatKeys b.key).map (List.drop 11) :=
    mem_map.mpr ⟨b.key, mem_track.mpr (.inr rfl), drop_trackedKey hdate⟩
  have hlen : ((track s.trackedStatKeys b.key).map (List.drop 11)).length ≤
      kMaxTrackedEntries := by
    rw [length_map]
    have hle := length_track_le s.trackedStatKeys b.key
    omega
  obtain ⟨hscores, hscored, hrange⟩ := foldl_applyDelta
    (fun id hid => holder id (h.ledger.scored id hid)) h.ledger.range hlen pair (by
      intro a b' hsome
      obtain ⟨⟨started, hchain⟩, hb', -, hphrase⟩ := corrects_facts _ (hpair.trans hsome)
      cases hb.symm.trans hb'
      have ha : chain.anchor = some a := by
        rw [hchain]
        rfl
      exact ⟨fun hsame => hphrase (hids _ _ _ _ (hanchor a ha) hP hsame).2,
        holder _ (h.anchor a ha).1, hnewer⟩)
  rw [hscores]
  have hstep : chain.step (deadline s.correctionWindow) ⟨time, .commit commit dateBucket⟩ =
      .deleting b 0 := by
    rw [Chain.step]
    dsimp only
    rw [hb]
  refine ⟨?_, rfl, congrArg feedbackOf hpair.symm,
    congrArg (scoresAfter s.correctionScores) hpair.symm⟩
  rw [hstep]
  refine ⟨⟨rfl, rfl, hrecord.last, hrecord.wrong, recordedAnchor_scalars_pos hb⟩, ?_, ?_⟩
  · have hkept := hin.ledger.record hrecord hdate hP hids
      (by rw [hkeys]; exact hscored) hrange .deletingCommittedEntry
      (some ⟨b.phrase, b.pinyin, b.scalars, 0, false, deadline s.correctionWindow b⟩)
    rw [hkeys] at hkept
    exact { hkept with }
  · intro a ha
    cases ha
    exact ⟨hnewer, hrecord.known⟩

structure SameTables (s s' : SessionLearning) : Prop where
  window : s'.correctionWindow = s.correctionWindow
  tracked : s'.trackedStatKeys = s.trackedStatKeys
  scores : s'.correctionScores = s.correctionScores

theorem observeUnhandledKey_tables (s : SessionLearning) (now : ℤ) (backspace : Bool)
    (context : LearningContext) : SameTables s (s.observeUnhandledKey now backspace context) := by
  rw [SessionLearning.observeUnhandledKey]
  cases s.pending <;> dsimp only <;> split_ifs <;> exact ⟨rfl, rfl, rfl⟩

theorem observeComposition_tables (s : SessionLearning) (now : ℤ) (input : Bytes)
    (context : LearningContext) : SameTables s (s.observeComposition now input context) := by
  rw [SessionLearning.observeComposition]
  cases s.pending <;> dsimp only <;> split_ifs <;> exact ⟨rfl, rfl, rfl⟩

theorem arm_tracked (s : SessionLearning) (now : ℤ) (commit : SessionCommit)
    (update : LearningUpdate) : (s.arm now commit update).trackedStatKeys = s.trackedStatKeys := by
  unfold SessionLearning.arm
  split <;> rfl

theorem tracked_step_le (s : SessionLearning) (e : TimedEvent) :
    s.trackedStatKeys.length ≤ (s.step e).1.trackedStatKeys.length := by
  obtain ⟨time, o⟩ := e
  cases o with
  | commit commit dateBucket =>
    change _ ≤ (s.observeCommit time commit dateBucket).1.trackedStatKeys.length
    rw [SessionLearning.observeCommit]
    split
    · exact le_rfl
    dsimp only
    generalize s.validReplacement time (normalizePinyin commit.pinyin) commit.phrase = valid
    have hin : (if ¬valid = true ∧ s.phase ≠ .idle then s.breakAdjacency else s) =
        recordingIn s valid := rfl
    rw [hin, ← tracked_recordingIn s valid]
    generalize recordingIn s valid = s₁
    split
    · exact le_rfl
    · rw [arm_tracked]
      dsimp only
      split_ifs
      · rw [length_append]
        exact Nat.le_add_right _ _
      · exact le_rfl
  | unhandledKey backspace context =>
    exact (congrArg List.length (observeUnhandledKey_tables s time backspace context).tracked).ge
  | composition input context =>
    exact (congrArg List.length (observeComposition_tables s time input context).tracked).ge
  | breakAdjacency => exact le_rfl

theorem Matches.quiet {s' : SessionLearning}
    (h : Follows P s' (chain.step (deadline s.correctionWindow) e)) (htables : SameTables s s')
    (hnone : recordedAnchor e = none) : Matches P s chain e (s', []) := by
  have hcorrects : chain.corrects (deadline s.correctionWindow) e = none := by
    unfold Chain.corrects
    rw [hnone]
    cases chain <;> rfl
  refine ⟨h, htables.window, ?_, ?_⟩ <;> rw [hcorrects]
  · rfl
  · exact htables.scores

theorem Follows.step (h : Follows P s chain) (hroom : s.trackedStatKeys.length < kMaxTrackedEntries)
    (hP : ∀ b, recordedAnchor e = some b → P b.pinyin b.phrase)
    (hids : Distinct P)
    (hanchor : ∀ a, chain.anchor = some a → P a.pinyin a.phrase) :
    Matches P s chain e (s.step e) := by
  obtain ⟨time, o⟩ := e
  cases o with
  | commit commit dateBucket =>
    cases hb : recordedAnchor ⟨time, .commit commit dateBucket⟩ with
    | some b => exact h.recordedCommit hb hroom (hP b hb) hids hanchor
    | none =>
      have hstep : s.step ⟨time, .commit commit dateBucket⟩ = (s.breakAdjacency, []) :=
        observeCommit_unrecorded s hb
      rw [hstep]
      refine Matches.quiet ?_ ⟨rfl, rfl, rfl⟩ hb
      rw [Chain.step]
      dsimp only
      rw [hb]
      exact h.breakAdjacency
  | unhandledKey backspace context =>
    exact Matches.quiet (h.key time backspace context)
      (observeUnhandledKey_tables s time backspace context) rfl
  | composition input context =>
    exact Matches.quiet (h.composition time input context)
      (observeComposition_tables s time input context) rfl
  | breakAdjacency => exact Matches.quiet h.breakAdjacency ⟨rfl, rfl, rfl⟩ rfl

theorem anchor_recorded (due : Anchor → ℤ) {events : List TimedEvent} {a : Anchor}
    (h : (Chain.run due events).anchor = some a) : ∃ e ∈ events, recordedAnchor e = some a := by
  have hexplained := Chain.explained_run due events
  generalize Chain.run due events = chain at h hexplained
  cases chain <;> cases h
  · obtain ⟨before, first, between, rfl, hfirst, -⟩ := hexplained
    exact ⟨first, mem_append_right _ mem_cons_self, hfirst⟩
  · obtain ⟨before, first, between, -, -, -, rfl, hfirst, -⟩ := hexplained
    exact ⟨first, mem_append_right _ mem_cons_self, hfirst⟩

theorem run_append (s : SessionLearning) (events : List TimedEvent) (e : TimedEvent) :
    s.run (events ++ [e]) = ((s.run events).step e).1 := by
  rw [SessionLearning.run, foldl_append]
  rfl

theorem follows_run (correctionWindow : ℤ) (events : List TimedEvent)
    (hP : ∀ e ∈ events, ∀ b, recordedAnchor e = some b → P b.pinyin b.phrase)
    (hids : Distinct P)
    (hroom : ((SessionLearning.new correctionWindow).run events).trackedStatKeys.length <
      kMaxTrackedEntries) :
    Follows P ((SessionLearning.new correctionWindow).run events)
        (Chain.run (deadline (max correctionWindow 1)) events) ∧
      ((SessionLearning.new correctionWindow).run events).correctionWindow =
        max correctionWindow 1 := by
  induction events using List.reverseRecOn with
  | nil =>
    refine ⟨⟨⟨rfl, rfl, rfl⟩, ⟨le_rfl, ?_, ?_, ?_⟩, ?_⟩, rfl⟩
    · exact fun key hkey => absurd hkey not_mem_nil
    · exact fun id hid => absurd hid not_mem_nil
    · intro id score hscore
      cases hscore
    · intro a ha
      cases ha
  | append_singleton events e ih =>
    rw [run_append] at hroom ⊢
    -- the table only grows, so it had room before the event
    have hroom' := (tracked_step_le _ e).trans_lt hroom
    have hP' : ∀ x ∈ events, ∀ b, recordedAnchor x = some b → P b.pinyin b.phrase :=
      fun x hx => hP x (mem_append_left _ hx)
    obtain ⟨hfollows, hwindow⟩ := ih hP' hroom'
    have hmatches := hfollows.step hroom' (hP e (mem_append_right _ mem_cons_self))
      hids (fun a ha => by
        obtain ⟨x, hx, hrecorded⟩ := anchor_recorded _ ha
        exact hP' x hx a hrecorded)
    have hnext := hmatches.follows
    rw [hwindow] at hnext
    rw [Chain.run_append]
    exact ⟨hnext, hmatches.window.trans hwindow⟩

end Following

theorem correctionScore_anchor (s : SessionLearning) {e : TimedEvent} {a : Anchor}
    (h : recordedAnchor e = some a) :
    s.correctionScore a.pinyin a.phrase = (s.correctionScores.find? a.id).getD 0 := by
  obtain ⟨_, -, -, -, hpinyin, -, hok, -⟩ := recordedAnchor_facts h
  obtain ⟨-, hphrase, hne, -⟩ := isMonitorableSelection_facts hok
  have hnorm : normalizePinyin a.pinyin = a.pinyin := by
    rw [hpinyin, normalizePinyin_idem]
  rw [SessionLearning.correctionScore, hnorm, if_neg]
  · rfl
  · rintro (hnil | hnil)
    · exact hne (hnorm.trans hnil)
    · exact hphrase hnil

/-- Feedback reaches the scores exactly at a commit that replaces an earlier one, deleted and
typed again in time; it then moves the two scores by one and no other. -/
theorem session_correction (correctionWindow : ℤ) (events : List TimedEvent) (e : TimedEvent)
    (htime : (events ++ [e]).Pairwise (fun x y => x.time ≤ y.time))
    (hids : ∀ x ∈ events ++ [e], ∀ y ∈ events ++ [e], ∀ a b, recordedAnchor x = some a →
      recordedAnchor y = some b → a.id = b.id → a.pinyin = b.pinyin ∧ a.phrase = b.phrase)
    (hroom : ((SessionLearning.new correctionWindow).run events).trackedStatKeys.length <
      kMaxTrackedEntries) :
    let before := (SessionLearning.new correctionWindow).run events
    let after := before.step e
    let Corrected := Replaces (deadline (max correctionWindow 1)) events e
    (after.2 ≠ [] ↔ ∃ a b, Corrected a b) ∧
      (∀ a b, Corrected a b →
        after.2 = [⟨a.id, -1⟩, ⟨b.id, 1⟩] ∧
        after.1.correctionScore a.pinyin a.phrase =
          clampSession (before.correctionScore a.pinyin a.phrase - 1) ∧
        after.1.correctionScore b.pinyin b.phrase =
          clampSession (before.correctionScore b.pinyin b.phrase + 1) ∧
        ∀ id, id ≠ a.id → id ≠ b.id →
          after.1.correctionScores.find? id = before.correctionScores.find? id) ∧
      ((¬∃ a b, Corrected a b) → after.1.correctionScores = before.correctionScores) := by
  intro before after Corrected
  have hiff := replaces_iff (deadline (max correctionWindow 1)) htime
  -- the entries of the history
  let P : Bytes → Bytes → Prop := fun p phrase => ∃ x ∈ events ++ [e], ∃ a,
    recordedAnchor x = some a ∧ a.pinyin = p ∧ a.phrase = phrase
  have hP : ∀ x ∈ events ++ [e], ∀ b, recordedAnchor x = some b → P b.pinyin b.phrase :=
    fun x hx b hb => ⟨x, hx, b, hb, rfl, rfl⟩
  have hinj : Distinct P := by
    rintro p phrase p' phrase' ⟨x, hx, a, ha, rfl, rfl⟩ ⟨y, hy, b, hb, rfl, rfl⟩ hsame
    exact hids x hx y hy a b ha hb hsame
  obtain ⟨hfollows, hwindow⟩ := follows_run (P := P) correctionWindow events
    (fun x hx => hP x (mem_append_left _ hx)) hinj hroom
  have hmatches := hfollows.step hroom (hP e (mem_append_right _ mem_cons_self)) hinj
    (fun a ha => by
      obtain ⟨x, hx, hrecorded⟩ := anchor_recorded _ ha
      exact hP x (mem_append_left _ hx) a hrecorded)
  have hfeedback := hmatches.feedback
  have hscores := hmatches.scores
  rw [hwindow] at hfeedback hscores
  refine ⟨⟨fun hne => ?_, ?_⟩, fun a b hcorrected => ?_, fun hnone => ?_⟩
  · cases hpair : (Chain.run (deadline (max correctionWindow 1)) events).corrects
        (deadline (max correctionWindow 1)) e with
    | none =>
      rw [hpair] at hfeedback
      exact absurd hfeedback hne
    | some pair => exact ⟨_, _, (hiff pair.1 pair.2).mpr hpair⟩
  · rintro ⟨a, b, hcorrected⟩ hnil
    rw [(hiff a b).mp hcorrected] at hfeedback
    exact cons_ne_nil _ _ (hfeedback.symm.trans hnil)
  · have hpair := (hiff a b).mp hcorrected
    obtain ⟨pre, first, between, -, -, -, hevents, hfirst, hlast, -, hphrase, -⟩ := hcorrected
    have hfirstMem : first ∈ events ++ [e] := by
      rw [hevents]
      exact mem_append_left _ (mem_append_right _ mem_cons_self)
    have hne : a.id ≠ b.id := fun hsame => hphrase (hids first hfirstMem e
      (mem_append_right _ mem_cons_self) a b hfirst hlast hsame).2
    rw [hpair] at hfeedback hscores
    have hafter : after.1.correctionScores = scoresAfter before.correctionScores (some (a, b)) :=
      hscores
    refine ⟨hfeedback, ?_, ?_, fun id hna hnb => ?_⟩
    · rw [correctionScore_anchor _ hfirst, correctionScore_anchor _ hfirst, hafter,
        scoresAfter, SortedMap.find?_insert_ne _ _ _ _ hne, SortedMap.find?_insert_self]
      rfl
    · rw [correctionScore_anchor _ hlast, correctionScore_anchor _ hlast, hafter,
        scoresAfter, SortedMap.find?_insert_self]
      rfl
    · rw [hafter, scoresAfter, SortedMap.find?_insert_ne _ _ _ _ hnb,
        SortedMap.find?_insert_ne _ _ _ _ hna]
  · cases hpair : (Chain.run (deadline (max correctionWindow 1)) events).corrects
        (deadline (max correctionWindow 1)) e with
    | none =>
      rw [hpair] at hscores
      exact hscores
    | some pair => exact absurd ⟨_, _, (hiff pair.1 pair.2).mpr hpair⟩ hnone

/-- A commit, its deletion with one backspace, and the start of the pinyin typed again. -/
def retyped : List TimedEvent :=
  [⟨0, .commit ⟨[0xE4, 0xBB, 0x96], lit "ta", .normal⟩ (lit "2026-01-01")⟩,
    ⟨1000000, .unhandledKey true .normal⟩, ⟨2000000, .composition (lit "t") .normal⟩]

def retypedCommit : TimedEvent :=
  ⟨3000000, .commit ⟨[0xE5, 0xA5, 0xB9], lit "ta", .normal⟩ (lit "2026-01-01")⟩

theorem retyped_ids : ∀ x ∈ retyped ++ [retypedCommit], ∀ y ∈ retyped ++ [retypedCommit],
    ∀ a ∈ recordedAnchor x, ∀ b ∈ recordedAnchor y, a.id = b.id →
      a.pinyin = b.pinyin ∧ a.phrase = b.phrase := by
  decide

theorem retyped_replaces : ∃ a b, Replaces (deadline (max 5000 1)) retyped retypedCommit a b :=
  ⟨⟨[0xE4, 0xBB, 0x96], lit "ta", lit "2026-01-01", 1, 0⟩,
    ⟨[0xE5, 0xA5, 0xB9], lit "ta", lit "2026-01-01", 1, 3000000⟩,
    [], _, _, [.unhandledKey true .normal], [], [.composition (lit "t") .normal], rfl, by decide,
    by decide, rfl, by decide, rfl, ⟨by decide, rfl⟩,
    fun o ho => absurd ho not_mem_nil,
    fun o ho => ⟨lit "t", mem_singleton.mp ho, by decide, by decide⟩, by decide⟩

theorem session_correction_sample :
    (((SessionLearning.new 5000).run retyped).step retypedCommit).2 ≠ [] :=
  (session_correction 5000 retyped retypedCommit (by decide)
    (fun x hx y hy a b ha hb => retyped_ids x hx y hy a ha b hb) (by decide)).1.mpr
    retyped_replaces

end Learning
end YunPin
