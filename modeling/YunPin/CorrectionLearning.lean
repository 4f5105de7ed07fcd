import YunPin.PhraseIndex
import YunPin.ScalarText

/-! The correction learner of the engine: which selections may be monitored at all, the habit
statistics, and the chain select, undo, select another entry. -/
namespace YunPin
open ByteText

namespace Learning
open Engine (normalizePinyin)
open ScalarText (countSafeUtf8)

def kMaxPhraseCodepoints : ℕ := 64
def kMaxPhraseBytes : ℕ := 256
def kMaxEntryIdBytes : ℕ := 160
def kMaxPinyinLetters : ℕ := 128
def kMaxHabitStatEntries : ℕ := 50000

inductive LearningContext where
  | normal | privateMode | password | oneShot
  deriving DecidableEq, Repr

structure SelectionEvent where
  dateBucket : Bytes
  entryId : Bytes
  phrase : Bytes
  pinyin : Bytes
  context : LearningContext := .normal
  monitorable : Bool := true
  deriving DecidableEq, Repr

structure FeedbackDelta where
  entryId : Bytes
  delta : ℤ
  deriving DecidableEq, Repr

structure LearningUpdate where
  recorded : Bool := false
  correctionCompleted : Bool := false
  requiresRequery : Bool := false
  candidateEpoch : UInt64 := 0
  feedback : List FeedbackDelta := []
  deriving DecidableEq, Repr

structure HabitStat where
  dateBucket : Bytes
  entryId : Bytes
  phrase : Bytes
  pinyin : Bytes
  selectionCount : ℕ := 0
  correctedFromCount : ℕ := 0
  replacementCount : ℕ := 0
  deriving DecidableEq, Repr

structure HabitQuery where
  dateBucket : Bytes := []
  correctionsOnly : Bool := false
  limit : ℕ := 100
  deriving DecidableEq, Repr

def isLeapYear (year : ℕ) : Bool := year%400 = 0 ∨ (year%4 = 0 ∧ year%100 ≠ 0)

def daysPerMonth : List ℕ := [31, 28, 31, 30, 31, 30, 31, 31, 30, 31, 30, 31]

def isDateBucket (value : Bytes) : Bool :=
  let digit := fun i => (value.getD i 0).toNat-0x30
  if value.length ≠ 10 ∨ value.getD 4 0 ≠ 0x2D ∨ value.getD 7 0 ≠ 0x2D then false
  else if ¬[0, 1, 2, 3, 5, 6, 8, 9].all
      (fun i => decide (0x30 ≤ value.getD i 0 ∧ value.getD i 0 ≤ 0x39)) then false
  else
    let year := digit 0*1000 + digit 1*100 + digit 2*10 + digit 3
    let month := digit 5*10 + digit 6
    let day := digit 8*10 + digit 9
    if year < 1970 ∨ month < 1 ∨ month > 12 then false
    else
      let days := if month = 2 ∧ isLeapYear year then 29 else daysPerMonth.getD (month-1) 0
      1 ≤ day ∧ day ≤ days

def hasAsciiControl (value : Bytes) : Bool := value.any (fun byte => byte < 0x20 ∨ byte = 0x7F)

def kSensitiveMarkers : List Bytes :=
  [lit "http://", lit "https://", lit "www.", lit "bearer ", lit "password", lit "passwd",
    lit "token=", lit "secret=", lit "api_key", lit "apikey", lit "-----begin"]

/-- The loop at the end of `LooksSensitive`: seven digits in a row, or four numbers with dots. -/
def looksLikeNumber (digitRun dots : ℕ) (onlyAddressChars : Bool) : Bytes → Bool
  | [] => onlyAddressChars ∧ dots = 3
  | character :: rest =>
    if 0x30 ≤ character ∧ character ≤ 0x39 then
      if digitRun+1 ≥ 7 then true else looksLikeNumber (digitRun+1) dots onlyAddressChars rest
    else if character = 0x2E then looksLikeNumber 0 (dots+1) onlyAddressChars rest
    else looksLikeNumber 0 dots false rest

def looksSensitive (value : Bytes) : Bool :=
  let lower := asciiLower value
  if kSensitiveMarkers.any (fun marker => Snapshot.found marker lower) then true
  else if 0x40 ∈ value ∨ 0x2F ∈ value ∨ 0x5C ∈ value then true
  else looksLikeNumber 0 0 (value ≠ []) value

def isSafeIdentifier (value : Bytes) : Bool :=
  value ≠ [] ∧ value.length ≤ kMaxEntryIdBytes ∧ ¬hasAsciiControl value

def isMonitorableSelection (event : SelectionEvent) : Bool :=
  if event.context ≠ .normal ∨ ¬event.monitorable ∨ ¬isDateBucket event.dateBucket ∨
      ¬isSafeIdentifier event.entryId ∨ event.phrase = [] ∨
      event.phrase.length > kMaxPhraseBytes ∨ hasAsciiControl event.phrase ∨
      looksSensitive event.phrase ∨ looksSensitive event.entryId then false
  else
    match countSafeUtf8 event.phrase with
    | none => false
    | some codepoints =>
      if codepoints = 0 ∨ codepoints > kMaxPhraseCodepoints then false
      else
        let pinyin := normalizePinyin event.pinyin
        pinyin ≠ [] ∧ pinyin.length ≤ kMaxPinyinLetters

structure CorrectionLearning where
  stats : List HabitStat
  statIndexes : SortedMap Bytes ℕ
  lastSelection : Option SelectionEvent
  pendingWrong : Option SelectionEvent
  candidateEpoch : UInt64
  deriving DecidableEq

def CorrectionLearning.new : CorrectionLearning := ⟨[], ∅, none, none, 0⟩

def statKey (event : SelectionEvent) : Bytes :=
  event.dateBucket ++ [0x1F] ++ event.entryId ++ [0x1F] ++ event.phrase ++ [0x1F] ++
    normalizePinyin event.pinyin

def saturatingIncrement (value : ℕ) : ℕ := if value = 2^64-1 then value else value+1

def sameEntry (left right : SelectionEvent) : Bool :=
  left.entryId = right.entryId ∧ left.phrase = right.phrase ∧
    normalizePinyin left.pinyin = normalizePinyin right.pinyin

namespace CorrectionLearning

def clearAdjacency (learning : CorrectionLearning) : CorrectionLearning :=
  { learning with lastSelection := none, pendingWrong := none }

/-- `stat_index_for`: the row of a selection, which is appended when it is new; none when the table
is full. -/
def statIndexFor (learning : CorrectionLearning) (target : SelectionEvent) :
    Option (ℕ × CorrectionLearning) :=
  match learning.statIndexes.find? (statKey target) with
  | some index => some (index, learning)
  | none =>
    if learning.stats.length ≥ kMaxHabitStatEntries then none
    else
      some (learning.stats.length,
        { learning with
          stats := learning.stats ++ [⟨target.dateBucket, target.entryId, target.phrase,
            target.pinyin, 0, 0, 0⟩]
          statIndexes := learning.statIndexes.insert (statKey target) learning.stats.length })

def updateStat (learning : CorrectionLearning) (index : ℕ) (f : HabitStat → HabitStat) :
    CorrectionLearning :=
  { learning with stats := learning.stats.modify index f }

def recordSelection (learning : CorrectionLearning) (event : SelectionEvent) :
    CorrectionLearning × LearningUpdate :=
  if ¬isMonitorableSelection event then
    (learning.clearAdjacency, { candidateEpoch := learning.candidateEpoch })
  else
    let event := { event with pinyin := normalizePinyin event.pinyin }
    match learning.statIndexFor event with
    | none => (learning.clearAdjacency, { candidateEpoch := learning.candidateEpoch })
    | some (selectedIndex, learning) =>
      let learning := learning.updateStat selectedIndex
        (fun stat => { stat with selectionCount := saturatingIncrement stat.selectionCount })
      let done := fun learning : CorrectionLearning =>
        { learning with pendingWrong := none, lastSelection := some event }
      match learning.pendingWrong with
      | none => (done learning, { recorded := true, candidateEpoch := learning.candidateEpoch })
      | some wrong =>
        if sameEntry wrong event then
          (done learning, { recorded := true, candidateEpoch := learning.candidateEpoch })
        else
          match learning.statIndexFor wrong with
          | none =>
            (learning.clearAdjacency,
              { recorded := true, candidateEpoch := learning.candidateEpoch })
          | some (wrongIndex, learning) =>
            let learning := learning.updateStat wrongIndex (fun stat =>
              { stat with correctedFromCount := saturatingIncrement stat.correctedFromCount })
            let learning := learning.updateStat selectedIndex (fun stat =>
              { stat with replacementCount := saturatingIncrement stat.replacementCount })
            let learning := { learning with candidateEpoch := learning.candidateEpoch+1 }
            (done learning,
              { recorded := true, correctionCompleted := true, requiresRequery := true
                candidateEpoch := learning.candidateEpoch
                feedback := [⟨wrong.entryId, -1⟩, ⟨event.entryId, 1⟩] })

def undoLastSelection (learning : CorrectionLearning) (context : LearningContext := .normal) :
    CorrectionLearning × Bool :=
  match learning.lastSelection with
  | none => (learning.clearAdjacency, false)
  | some last =>
    if context ≠ .normal then (learning.clearAdjacency, false)
    else ({ learning with pendingWrong := some last, lastSelection := none }, true)

end CorrectionLearning

def saturatingAdd (left right : ℕ) : ℕ := min (left+right) (2^64-1)

/-- The order of a habit report. Rows that agree in all compared fields keep the order of the
table; the source leaves their order open. -/
def reportBefore (left right : HabitStat) : Bool :=
  let corrections := fun stat : HabitStat =>
    saturatingAdd stat.correctedFromCount stat.replacementCount
  if left.dateBucket ≠ right.dateBucket then left.dateBucket > right.dateBucket
  else if corrections left ≠ corrections right then corrections left > corrections right
  else if left.selectionCount ≠ right.selectionCount then
    left.selectionCount > right.selectionCount
  else if left.phrase ≠ right.phrase then left.phrase < right.phrase
  else left.pinyin < right.pinyin

def buildHabitReport (stats : List HabitStat) (query : HabitQuery) : List HabitStat :=
  if query.dateBucket ≠ [] ∧ ¬isDateBucket query.dateBucket then []
  else
    let rows := stats.filter (fun stat =>
      ¬((query.dateBucket ≠ [] ∧ stat.dateBucket ≠ query.dateBucket) ∨
        (query.correctionsOnly ∧ stat.correctedFromCount = 0 ∧ stat.replacementCount = 0)))
    (rows.insertionSort (fun left right => ¬reportBefore right left)).take query.limit

end Learning
end YunPin
