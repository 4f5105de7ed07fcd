import YunPin.KeyRange
import YunPin.PrivateSnapshot

/-! The phrase index of the engine: construction with its errors, the fuzzy aliases of an input,
the match records of a query, the recall gates, the ranking and the quota of the first page. -/
namespace YunPin
open ByteText List Option

namespace Engine
open Snapshot (PhraseOrigin)

def kHardMaxFuzzyAliases : ℕ := 64
def kMaxCorrectionScore : ℤ := 1000000
def kLongPhraseMinSyllables : ℕ := 4
def kFirstPageCandidateCount : ℕ := 8

structure PhraseEntry extends Snapshot.PhraseEntry where
  tombstoned : Bool := false
  correctionScore : ℤ := 0
  deriving DecidableEq, Repr

inductive MatchKind where
  | initials | fullPrefix | exactFull
  deriving DecidableEq, Repr

def isPersonalOrigin (origin : PhraseOrigin) : Bool :=
  origin = .personal ∨ origin = .history ∨ origin = .imported

structure SegmenterLimits where
  maxPaths : ℕ := 16
  maxSyllablesPerPath : ℕ := 32
  maxInputLetters : ℕ := 128

def maxSyllableLength : ℕ := builtInSyllables.foldl (fun n syllable => max n syllable.length) 0

/-- The depth-first search of `SegmentChunk`, longest syllable first. `room` is how many syllables
the path may still take; `paths` is what has been found so far. -/
def visit (maxPaths : ℕ) (room : ℕ) (remaining : Bytes) (current : List Bytes)
    (paths : List (List Bytes)) : List (List Bytes) :=
  if maxPaths ≤ paths.length then paths
  else if remaining = [] then paths ++ [current]
  else
    match room with
    | 0 => paths
    | room+1 =>
      let longest := min maxSyllableLength remaining.length
      -- the lengths longest, …, 2, 1
      ((List.range longest).map (longest-·)).foldl (fun paths length =>
        let candidate := remaining.take length
        if candidate ∈ builtInSyllables then
          visit maxPaths room (remaining.drop length) (current ++ [candidate]) paths
        else paths) paths

def segmentChunk (limits : SegmenterLimits) (chunk : Bytes) (explicitBoundary : Bool) :
    List (List Bytes) :=
  let normalized := normalizePinyin chunk
  if normalized = [] ∨ normalized.length > limits.maxInputLetters ∨ limits.maxPaths = 0 ∨
      limits.maxSyllablesPerPath = 0 then []
  else if explicitBoundary ∧ isSyllable normalized then [[normalized]]
  else visit limits.maxPaths limits.maxSyllablesPerPath normalized [] []

def rawChunks (current : Bytes) : Bytes → List Bytes
  | [] => flush current
  | raw :: rest =>
    if isHardBoundary raw then flush current ++ rawChunks [] rest
    else rawChunks (current ++ [raw]) rest

/-- One round of the loop over the chunks: every path so far continued with every path of the
chunk, without those that get too long, and at most `maxPaths` of them. -/
def combine (limits : SegmenterLimits) (combined chunkPaths : List (List Bytes)) :
    List (List Bytes) :=
  ((combined.flatMap (fun start => chunkPaths.map (start ++ ·))).filter
    (fun path => decide (path.length ≤ limits.maxSyllablesPerPath))).take limits.maxPaths

def segment (limits : SegmenterLimits) (input : Bytes) : List (List Bytes) :=
  let normalized := normalizePinyin input
  if normalized = [] ∨ normalized.length > limits.maxInputLetters ∨ limits.maxPaths = 0 ∨
      limits.maxSyllablesPerPath = 0 then []
  else
    let chunks := rawChunks [] input
    let sawBoundary := input.any isHardBoundary
    if chunks = [] then []
    else chunks.foldl (fun combined chunk =>
      combine limits combined (segmentChunk limits chunk sawBoundary)) [[]]

structure FuzzyConfig where
  zhZ : Bool := false
  chC : Bool := false
  shS : Bool := false
  nL : Bool := false
  enEng : Bool := false
  inIng : Bool := false
  maxAliases : ℕ := 16
  deriving DecidableEq, Repr

def FuzzyConfig.enabled (config : FuzzyConfig) : Bool :=
  config.maxAliases > 1 ∧ (config.zhZ ∨ config.chC ∨ config.shS ∨ config.nL ∨ config.enEng ∨
    config.inIng)

def appendValidVariant (limit : ℕ) (candidate : Bytes) (variants : List Bytes) : List Bytes :=
  if variants.length ≥ limit ∨ ¬isSyllable candidate ∨ candidate ∈ variants then variants
  else variants ++ [candidate]

def expandInitialPair (limit : ℕ) (longInitial shortInitial : Bytes) (variants : List Bytes) :
    List Bytes :=
  variants.foldl (fun variants value =>
    if longInitial.isPrefixOf value then
      appendValidVariant limit (shortInitial ++ value.drop longInitial.length) variants
    else if shortInitial.isPrefixOf value then
      appendValidVariant limit (longInitial ++ value.drop shortInitial.length) variants
    else variants) variants

def expandFinalPair (limit : ℕ) (longFinal shortFinal : Bytes) (variants : List Bytes) :
    List Bytes :=
  variants.foldl (fun variants value =>
    if longFinal.isSuffixOf value then
      appendValidVariant limit (value.take (value.length-longFinal.length) ++ shortFinal) variants
    else if shortFinal.isSuffixOf value then
      appendValidVariant limit (value.take (value.length-shortFinal.length) ++ longFinal) variants
    else variants) variants

def fuzzySyllableVariants (syllable : Bytes) (config : FuzzyConfig) (limit : ℕ) : List Bytes :=
  let variants := [syllable]
  let variants := if config.zhZ then expandInitialPair limit (lit "zh") (lit "z") variants
    else variants
  let variants := if config.chC then expandInitialPair limit (lit "ch") (lit "c") variants
    else variants
  let variants := if config.shS then expandInitialPair limit (lit "sh") (lit "s") variants
    else variants
  let variants := if config.nL then expandInitialPair limit (lit "n") (lit "l") variants
    else variants
  let variants := if config.enEng then expandFinalPair limit (lit "eng") (lit "en") variants
    else variants
  if config.inIng then expandFinalPair limit (lit "ing") (lit "in") variants else variants

/-- The spellings of one path, at most `limit` of them after every syllable. -/
def pathAliases (config : FuzzyConfig) (limit : ℕ) (path : List Bytes) : List Bytes :=
  path.foldl (fun spellings syllable =>
    let variants := fuzzySyllableVariants syllable config limit
    (spellings.flatMap (fun start => variants.map (start ++ ·))).take limit) [[]]

def addAlias (limit : ℕ) (aliases : List Bytes) (word : Bytes) : List Bytes :=
  if aliases.length ≥ limit ∨ word ∈ aliases then aliases else aliases ++ [word]

def expandFuzzyAliasesWith (limits : SegmenterLimits) (input : Bytes) (config : FuzzyConfig) :
    List Bytes :=
  let literal := normalizePinyin input
  if literal = [] then []
  else
    let limit := min kHardMaxFuzzyAliases (max 1 config.maxAliases)
    if literal.length ≤ 2 ∨ ¬config.enabled ∨ limit ≤ 1 then [literal]
    else (segment limits input).foldl (fun aliases path =>
      (pathAliases config limit path).foldl (addAlias limit) aliases) [literal]

/-- The overload without a segmenter takes one with the default limits. -/
def expandFuzzyAliases (input : Bytes) (config : FuzzyConfig) : List Bytes :=
  expandFuzzyAliasesWith {} input config

structure IndexedEntry where
  entry : PhraseEntry
  fullPinyin : Bytes
  initials : Bytes
  deriving DecidableEq, Repr

structure KeyRef where
  key : Bytes
  entryIndex : ℕ
  deriving DecidableEq, Repr

structure PhraseIndex where
  entries : List IndexedEntry
  fullIndex : List KeyRef
  initialsIndex : List KeyRef
  privateExactCodeIndex : List KeyRef
  tombstones : List Bool
  correctionScores : List ℤ
  revision : UInt32
  fuzzyConfig : FuzzyConfig
  deriving DecidableEq, Repr

def normalizeSyllables : List Bytes → Option (List Bytes)
  | [] => some []
  | rawSyllable :: rest =>
    let syllable := normalizePinyin rawSyllable
    if syllable = [] then none else (normalizeSyllables rest).map (syllable :: ·)

/-- One round of the constructor's loop, with the ids of the entries before it. -/
def indexEntry (ids : List Bytes) (entry : PhraseEntry) : Except Bytes IndexedEntry :=
  if entry.id = [] ∨ entry.text = [] ∨ entry.syllables = [] then
    .error (lit "phrase entries require id, text and pinyin")
  else if entry.privateExactCodeOnly ∧ ¬isPersonalOrigin entry.origin then
    .error (lit "exact-code-only compatibility is restricted to personal entries")
  else if entry.id ∈ ids then .error (lit "duplicate phrase id: " ++ entry.id)
  else
    match normalizeSyllables entry.syllables with
    | none => .error (lit "invalid pinyin in phrase id: " ++ entry.id)
    | some syllables =>
      let full := syllables.flatten
      let initials := syllables.filterMap List.head?
      if entry.privateExactCodeOnly ∧ full.length < 2 then
        .error (lit "exact-code-only personal entries require at least two letters")
      else .ok ⟨{ entry with syllables := syllables }, full, initials⟩

def indexEntries (done : List IndexedEntry) : List PhraseEntry → Except Bytes (List IndexedEntry)
  | [] => .ok done
  | entry :: rest =>
    match indexEntry (done.map (fun e => e.entry.id)) entry with
    | .error message => .error message
    | .ok indexed => indexEntries (done ++ [indexed]) rest

def byKeyThenIndex (left right : KeyRef) : Bool :=
  if left.key ≠ right.key then left.key < right.key else left.entryIndex ≤ right.entryIndex

/-- The sorted references to the entries that are, or are not, matched by their whole code only. -/
def keyRefs (entries : List IndexedEntry) (exactCodeOnly : Bool) (key : IndexedEntry → Bytes) :
    List KeyRef :=
  ((entries.zipIdx.filter (fun p => p.1.entry.privateExactCodeOnly = exactCodeOnly)).map
    (fun p => ⟨key p.1, p.2⟩)).insertionSort (fun l r => byKeyThenIndex l r)

def clampScore (score : ℤ) : ℤ := max (-kMaxCorrectionScore) (min score kMaxCorrectionScore)

def PhraseIndex.make (entries : List PhraseEntry) (fuzzyConfig : FuzzyConfig) :
    Except Bytes PhraseIndex :=
  match indexEntries [] entries with
  | .error message => .error message
  | .ok indexed => .ok
    { entries := indexed
      fullIndex := keyRefs indexed false IndexedEntry.fullPinyin
      initialsIndex := keyRefs indexed false IndexedEntry.initials
      privateExactCodeIndex := keyRefs indexed true IndexedEntry.fullPinyin
      tombstones := indexed.map (fun e => e.entry.tombstoned)
      correctionScores := indexed.map (fun e => clampScore e.entry.correctionScore)
      revision := 0
      fuzzyConfig := fuzzyConfig }

def PhraseIndex.indexOf (ix : PhraseIndex) (id : Bytes) : Option ℕ :=
  ix.entries.findIdx? (fun e => e.entry.id = id)

def PhraseIndex.applyTombstone (ix : PhraseIndex) (id : Bytes) : PhraseIndex × Bool :=
  match ix.indexOf id with
  | none => (ix, false)
  | some index =>
    let before := ix.tombstones.getD index false
    ({ ix with
        tombstones := ix.tombstones.set index true
        revision := if before then ix.revision else ix.revision+1 }, true)

/-- The clamped sum as the source writes it, without leaving the range of `int32_t`. -/
def adjustScore (current delta : ℤ) : ℤ :=
  if delta > 0 then
    if current > kMaxCorrectionScore - min delta kMaxCorrectionScore then kMaxCorrectionScore
    else current + min delta kMaxCorrectionScore
  else
    if current < -kMaxCorrectionScore - max delta (-kMaxCorrectionScore) then -kMaxCorrectionScore
    else current + max delta (-kMaxCorrectionScore)

def PhraseIndex.applyCorrectionFeedback (ix : PhraseIndex) (id : Bytes) (delta : ℤ) :
    PhraseIndex × Bool :=
  match ix.indexOf id with
  | none => (ix, false)
  | some index =>
    if delta = 0 then (ix, true)
    else
      let current := ix.correctionScores.getD index 0
      let next := adjustScore current delta
      if next = current then (ix, true)
      else
        ({ ix with
            correctionScores := ix.correctionScores.set index next
            revision := ix.revision+1 }, true)

/-- The indexes a program can hold: constructed, then changed by the two update operations. -/
inductive PhraseIndex.Live : PhraseIndex → Prop
  | make (entries : List PhraseEntry) (fuzzyConfig : FuzzyConfig) (ix : PhraseIndex)
      (h : PhraseIndex.make entries fuzzyConfig = .ok ix) : Live ix
  | tombstone (ix : PhraseIndex) (id : Bytes) (h : Live ix) : Live (ix.applyTombstone id).1
  | feedback (ix : PhraseIndex) (id : Bytes) (delta : ℤ) (h : Live ix) :
      Live (ix.applyCorrectionFeedback id delta).1

structure MatchRecord where
  kind : MatchKind
  aliasText : Bytes
  deriving DecidableEq, Repr

def matchTier : MatchKind → ℕ
  | .exactFull => 2
  | .fullPrefix => 1
  | .initials => 0

def completeSyllablePrefixCount : (syllables : List Bytes) → (query : Bytes) → ℕ
  | [], _ => 0
  | syllable :: rest, query =>
    if syllable.isPrefixOf query then
      completeSyllablePrefixCount rest (query.drop syllable.length) + 1
    else 0

/-- Normalized pinyin has the letters a to z only, and an opening brace follows z. -/
def prefixRange (index : List KeyRef) (start : Bytes) : List KeyRef :=
  KeyRange.range KeyRef.key start (start ++ [0x7B]) index

abbrev Matches := SortedMap ℕ MatchRecord

def emplace (records : Matches) (index : ℕ) (record : MatchRecord) : Matches :=
  match records.find? index with
  | none => records.insert index record
  | some _ => records

/-- `emplace`, but a record of a higher tier replaces the one that is there. -/
def emplaceBetter (records : Matches) (index : ℕ) (record : MatchRecord) : Matches :=
  match records.find? index with
  | none => records.insert index record
  | some old => if matchTier record.kind > matchTier old.kind then records.insert index record
    else records

def PhraseIndex.aliases (ix : PhraseIndex) (input : Bytes) : List Bytes :=
  if ix.fuzzyConfig.enabled then expandFuzzyAliases input ix.fuzzyConfig
  else [normalizePinyin input]

/-- The inner loop for one alias; only the literal input can match a code exactly. -/
def matchAlias (index : List KeyRef) (query : Bytes) (records : Matches) (a : Bytes × ℕ) :
    Matches :=
  (prefixRange index a.1).foldl (fun records ref =>
    let kind := if a.2 = 0 ∧ ref.key = query then MatchKind.exactFull else .fullPrefix
    emplaceBetter records ref.entryIndex ⟨kind, a.1⟩) records

/-- Codes that are matched as a whole only: by the literal input, in the sorted index. -/
def matchExactCodes (index : List KeyRef) (query : Bytes) (records : Matches) : Matches :=
  ((KeyRange.lowerBound KeyRef.key query index).takeWhile (fun ref => ref.key = query)).foldl
    (fun records ref => emplace records ref.entryIndex ⟨.exactFull, query⟩) records

def matchInitials (index : List KeyRef) (query : Bytes) (records : Matches) : Matches :=
  if query.length ≥ 2 then
    (prefixRange index query).foldl (fun records ref =>
      emplace records ref.entryIndex ⟨.initials, query⟩) records
  else records

def PhraseIndex.records (ix : PhraseIndex) (input : Bytes) : Matches :=
  let query := normalizePinyin input
  let records := (ix.aliases input).zipIdx.foldl (matchAlias ix.fullIndex query) ∅
  let records := matchExactCodes ix.privateExactCodeIndex query records
  matchInitials ix.initialsIndex query records

/-- The conditions under which a matched entry is passed over are all false. -/
def recallable (query : Bytes) (tombstoned : Bool) (entry : PhraseEntry) (record : MatchRecord) :
    Bool :=
  let personal := isPersonalOrigin entry.origin
  let pinnedPersonal := entry.pinned && personal
  let pinnedLong := pinnedPersonal && decide (entry.syllables.length ≥ kLongPhraseMinSyllables)
  let nonPinnedLong := !pinnedPersonal && decide (entry.syllables.length ≥ 3)
  let covered := completeSyllablePrefixCount entry.syllables record.aliasText
  if tombstoned ∨ (entry.learned ∧ ¬entry.pinned ∧ entry.useCount < 2) then false
  else if personal ∧ entry.syllables.length ≥ 2 ∧ query.length < 2 then false
  else if nonPinnedLong ∧ record.kind = .fullPrefix ∧ covered < 2 then false
  else if nonPinnedLong ∧ record.kind = .initials then false
  else if pinnedLong ∧ record.kind = .fullPrefix ∧ covered < 2 then false
  else if pinnedLong ∧ record.kind = .initials ∧ query.length < 4 then false
  else true

structure Candidate where
  id : Bytes
  text : Bytes
  fullPinyin : Bytes
  initials : Bytes
  origin : PhraseOrigin
  kind : MatchKind
  useCount : ℕ
  staticWeight : ℤ
  pinned : Bool
  correctionScore : ℤ
  syllables : List Bytes
  syncedLearning : Bool
  deriving DecidableEq, Repr

def Candidate.isPersonal (c : Candidate) : Bool := isPersonalOrigin c.origin

structure RankedCandidate extends Candidate where
  entryIndex : ℕ
  deriving DecidableEq, Repr

def originTier (candidate : Candidate) : ℕ :=
  if candidate.pinned ∧ candidate.isPersonal then 3
  else if candidate.isPersonal then 2
  else if candidate.origin = .publicPack then 1
  else 0

def ranksBefore (left right : Candidate) : Bool :=
  if (left.kind = .exactFull ∨ right.kind = .exactFull) ∧ left.kind ≠ right.kind then
    left.kind = .exactFull
  else if originTier left ≠ originTier right then originTier left > originTier right
  else if matchTier left.kind ≠ matchTier right.kind then matchTier left.kind > matchTier right.kind
  else if left.correctionScore ≠ right.correctionScore then
    left.correctionScore > right.correctionScore
  else if left.useCount ≠ right.useCount then left.useCount > right.useCount
  else if left.staticWeight ≠ right.staticWeight then left.staticWeight > right.staticWeight
  else if left.fullPinyin ≠ right.fullPinyin then left.fullPinyin < right.fullPinyin
  else if left.text ≠ right.text then left.text < right.text
  else left.id < right.id

def PhraseIndex.toCandidate (ix : PhraseIndex) (index : ℕ) (indexed : IndexedEntry)
    (record : MatchRecord) : RankedCandidate :=
  let entry := indexed.entry
  { id := entry.id, text := entry.text, fullPinyin := indexed.fullPinyin,
    initials := indexed.initials, origin := entry.origin, kind := record.kind,
    useCount := entry.useCount, staticWeight := entry.staticWeight, pinned := entry.pinned,
    correctionScore := ix.correctionScores.getD index 0, syllables := [],
    syncedLearning := entry.syncedLearning, entryIndex := index }

def PhraseIndex.candidate (ix : PhraseIndex) (query : Bytes) (m : ℕ × MatchRecord) :
    Option RankedCandidate :=
  match ix.entries[m.1]? with
  | none => none
  | some indexed =>
    if recallable query (ix.tombstones.getD m.1 false) indexed.entry m.2 then
      some (ix.toCandidate m.1 indexed m.2)
    else none

/-- The ranked list; the ids differ, so the order of the records in the map does not matter. -/
def PhraseIndex.ranked (ix : PhraseIndex) (input : Bytes) : List RankedCandidate :=
  let query := normalizePinyin input
  if query = [] then []
  else ((ix.records input).entries.filterMap (ix.candidate query)).insertionSort
    (fun left right => ¬ranksBefore right.toCandidate left.toCandidate)

/-- The first pass over the ranked list: what goes on a page with `room` places left when
`personal` personal candidates are on it, and what is left over. -/
def firstPage : (room personal : ℕ) → List RankedCandidate →
    List RankedCandidate × List RankedCandidate
  | _, _, [] => ([], [])
  | 0, _, c :: rest => ([], c :: rest)
  | room+1, personal, c :: rest =>
    if c.isPersonal ∧ personal ≥ 2 then
      let (page, others) := firstPage (room+1) personal rest
      (page, c :: others)
    else
      let (page, others) := firstPage room (if c.isPersonal then personal+1 else personal) rest
      (c :: page, others)

def PhraseIndex.publish (ix : PhraseIndex) (c : RankedCandidate) : Candidate :=
  match ix.entries[c.entryIndex]? with
  | some indexed => { c.toCandidate with syllables := indexed.entry.syllables }
  | none => c.toCandidate

def PhraseIndex.query (ix : PhraseIndex) (input : Bytes) (limit : ℕ) : List Candidate :=
  if limit = 0 then []
  else
    let target := min kFirstPageCandidateCount limit
    let (page, others) := firstPage target 0 (ix.ranked input)
    if page.length < target then page.map ix.publish
    else (page ++ others.take (limit-page.length)).map ix.publish

theorem readPinyin_letters (skip : Bool) {s : Bytes} (pieces : List (Option UInt8))
    (h : readPinyin skip s = some pieces) {b : UInt8} (hb : some b ∈ pieces) :
    isLowerByte b = true := by
  induction s generalizing skip pieces with
  | nil =>
    cases skip <;> (cases h; cases hb)
  | cons raw rest ih =>
    cases skip with
    | true => exact ih false pieces h hb
    | false =>
      rw [readPinyin] at h
      by_cases hboundary : isHardBoundary raw = true
      · rw [if_pos hboundary, map_eq_some_iff] at h
        obtain ⟨ps, hps, rfl⟩ := h
        exact ih false ps hps ((mem_cons.mp hb).resolve_left (by simp))
      rw [if_neg hboundary] at h
      by_cases htone : isToneDigit raw = true
      · rw [if_pos htone] at h
        exact ih false pieces h hb
      rw [if_neg htone] at h
      by_cases hlower : isLowerByte (toLowerByte raw) = true
      · rw [if_neg (not_not.mpr hlower)] at h
        by_cases hcolon : toLowerByte raw = 0x75 ∧ rest.head? = some 0x3A
        · rw [if_pos hcolon, map_eq_some_iff] at h
          obtain ⟨ps, hps, rfl⟩ := h
          rcases mem_cons.mp hb with hb | hb
          · cases hb
            decide
          · exact ih true ps hps hb
        · rw [if_neg hcolon, map_eq_some_iff] at h
          obtain ⟨ps, hps, rfl⟩ := h
          rcases mem_cons.mp hb with hb | hb
          · cases hb
            exact hlower
          · exact ih false ps hps hb
      · rw [if_pos hlower] at h
        cases h

theorem normalizePinyin_letters (s : Bytes) (b : UInt8) (hb : b ∈ normalizePinyin s) :
    isLowerByte b = true := by
  rw [normalizePinyin] at hb
  cases hread : readPinyin false s with
  | none =>
    rw [hread] at hb
    cases hb
  | some pieces =>
    rw [hread] at hb
    obtain ⟨piece, hpiece, rfl⟩ := mem_filterMap.mp hb
    exact readPinyin_letters false pieces hread hpiece

theorem isLowerByte_lt_brace {b : UInt8} (h : isLowerByte b = true) : b < 0x7B := by
  revert b
  decide +kernel

/-- What the constructor has checked and computed for an entry. -/
structure IndexedEntry.Valid (e : IndexedEntry) : Prop where
  syllables_ne : e.entry.syllables ≠ []
  syllable : ∀ s ∈ e.entry.syllables, s ≠ [] ∧ ∀ b ∈ s, isLowerByte b = true
  full : e.fullPinyin = e.entry.syllables.flatten
  initials : e.initials = e.entry.syllables.filterMap List.head?
  exactOnly : e.entry.privateExactCodeOnly = true → isPersonalOrigin e.entry.origin = true

theorem normalizeSyllables_valid (raw syllables : List Bytes)
    (h : normalizeSyllables raw = some syllables) :
    syllables.length = raw.length ∧
      ∀ s ∈ syllables, s ≠ [] ∧ ∀ b ∈ s, isLowerByte b = true := by
  induction raw generalizing syllables with
  | nil =>
    cases h
    exact ⟨rfl, fun s hs => absurd hs not_mem_nil⟩
  | cons r rest ih =>
    rw [normalizeSyllables] at h
    by_cases hr : normalizePinyin r = []
    · rw [if_pos hr] at h
      cases h
    · rw [if_neg hr, map_eq_some_iff] at h
      obtain ⟨ss, hss, rfl⟩ := h
      obtain ⟨hlen, hall⟩ := ih ss hss
      refine ⟨congrArg Nat.succ hlen, fun s hs => ?_⟩
      rcases mem_cons.mp hs with rfl | hs
      · exact ⟨hr, normalizePinyin_letters r⟩
      · exact hall s hs

theorem indexEntry_ok {ids : List Bytes} {entry : PhraseEntry} {e : IndexedEntry}
    (h : indexEntry ids entry = .ok e) : e.Valid ∧ e.entry.id ∉ ids := by
  rw [indexEntry] at h
  by_cases hfields : entry.id = [] ∨ entry.text = [] ∨ entry.syllables = []
  · rw [if_pos hfields] at h
    cases h
  rw [if_neg hfields] at h
  by_cases horigin : entry.privateExactCodeOnly = true ∧ ¬isPersonalOrigin entry.origin = true
  · rw [if_pos horigin] at h
    cases h
  rw [if_neg horigin] at h
  by_cases hid : entry.id ∈ ids
  · rw [if_pos hid] at h
    cases h
  rw [if_neg hid] at h
  cases hsyl : normalizeSyllables entry.syllables with
  | none =>
    rw [hsyl] at h
    cases h
  | some syllables =>
    rw [hsyl] at h
    dsimp only at h
    obtain ⟨hlen, hall⟩ := normalizeSyllables_valid entry.syllables syllables hsyl
    by_cases hcode : entry.privateExactCodeOnly = true ∧ syllables.flatten.length < 2
    · rw [if_pos hcode] at h
      cases h
    rw [if_neg hcode] at h
    cases h
    refine ⟨⟨?_, hall, rfl, rfl, fun hx => ?_⟩, hid⟩
    · intro hnil
      have hempty : entry.syllables.length = 0 := by
        rw [← hlen]
        exact congrArg List.length hnil
      exact hfields (.inr (.inr (length_eq_zero_iff.mp hempty)))
    · by_contra hp
      exact horigin ⟨hx, hp⟩

theorem indexEntries_ok (done : List IndexedEntry) {entries : List PhraseEntry}
    {indexed : List IndexedEntry} (h : indexEntries done entries = .ok indexed)
    (hdone : ∀ e ∈ done, e.Valid) (hids : (done.map (fun e => e.entry.id)).Nodup) :
    (∀ e ∈ indexed, e.Valid) ∧ (indexed.map (fun e => e.entry.id)).Nodup := by
  induction entries generalizing done with
  | nil =>
    cases h
    exact ⟨hdone, hids⟩
  | cons entry rest ih =>
    rw [indexEntries] at h
    cases hentry : indexEntry (done.map (fun e => e.entry.id)) entry with
    | error message =>
      rw [hentry] at h
      cases h
    | ok e =>
      rw [hentry] at h
      obtain ⟨hvalid, hnew⟩ := indexEntry_ok hentry
      refine ih (done ++ [e]) h (fun x hx => ?_) ?_
      · rcases mem_append.mp hx with hx | hx
        · exact hdone x hx
        · rw [mem_singleton.mp hx]
          exact hvalid
      · rw [map_append, map_singleton, ← concat_eq_append]
        exact hids.concat hnew

structure PhraseIndex.Valid (ix : PhraseIndex) : Prop where
  entry : ∀ e ∈ ix.entries, e.Valid
  ids : (ix.entries.map (fun e => e.entry.id)).Nodup
  fullIndex : ix.fullIndex = keyRefs ix.entries false IndexedEntry.fullPinyin
  initialsIndex : ix.initialsIndex = keyRefs ix.entries false IndexedEntry.initials
  privateExactCodeIndex :
    ix.privateExactCodeIndex = keyRefs ix.entries true IndexedEntry.fullPinyin
  tombstones : ix.tombstones.length = ix.entries.length
  correctionScores : ix.correctionScores.length = ix.entries.length
  scores : ∀ score ∈ ix.correctionScores, -kMaxCorrectionScore ≤ score ∧ score ≤ kMaxCorrectionScore

theorem clampScore_range {score : ℤ} :
    -kMaxCorrectionScore ≤ clampScore score ∧ clampScore score ≤ kMaxCorrectionScore := by
  rw [clampScore, kMaxCorrectionScore]
  omega

theorem adjustScore_eq (current delta : ℤ)
    (h : -kMaxCorrectionScore ≤ current ∧ current ≤ kMaxCorrectionScore) :
    adjustScore current delta = clampScore (current + clampScore delta) := by
  rw [adjustScore, clampScore, clampScore]
  generalize hk : kMaxCorrectionScore = k at h ⊢
  have hpos : 0 ≤ k := hk ▸ (by decide)
  by_cases hdelta : delta > 0
  · rw [if_pos hdelta]
    by_cases hhigh : current > k - min delta k
    · rw [if_pos hhigh]
      omega
    · rw [if_neg hhigh]
      omega
  · rw [if_neg hdelta]
    by_cases hlow : current < -k - max delta (-k)
    · rw [if_pos hlow]
      omega
    · rw [if_neg hlow]
      omega

theorem PhraseIndex.valid_make {entries : List PhraseEntry} {fuzzyConfig : FuzzyConfig}
    {ix : PhraseIndex} (h : PhraseIndex.make entries fuzzyConfig = .ok ix) : ix.Valid := by
  rw [PhraseIndex.make] at h
  cases hindexed : indexEntries [] entries with
  | error message =>
    rw [hindexed] at h
    cases h
  | ok indexed =>
    rw [hindexed] at h
    cases h
    have hok := indexEntries_ok [] hindexed
      (fun e he => absurd he not_mem_nil) nodup_nil
    refine ⟨hok.1, hok.2, rfl, rfl, rfl, length_map .., length_map .., ?_⟩
    intro score hscore
    obtain ⟨e, -, rfl⟩ := mem_map.mp hscore
    exact clampScore_range

theorem PhraseIndex.valid_applyTombstone (ix : PhraseIndex) (id : Bytes) (h : ix.Valid) :
    (ix.applyTombstone id).1.Valid := by
  rw [PhraseIndex.applyTombstone]
  cases ix.indexOf id with
  | none => exact h
  | some index =>
    exact { h with tombstones := (length_set ..).trans h.tombstones }

theorem PhraseIndex.valid_applyCorrectionFeedback (ix : PhraseIndex) (id : Bytes) (delta : ℤ)
    (h : ix.Valid) : (ix.applyCorrectionFeedback id delta).1.Valid := by
  rw [PhraseIndex.applyCorrectionFeedback]
  cases ix.indexOf id with
  | none => exact h
  | some index =>
    dsimp only
    by_cases hdelta : delta = 0
    · rw [if_pos hdelta]
      exact h
    rw [if_neg hdelta]
    by_cases hnext : adjustScore (ix.correctionScores.getD index 0) delta =
        ix.correctionScores.getD index 0
    · rw [if_pos hnext]
      exact h
    rw [if_neg hnext]
    refine { h with
      correctionScores := (length_set ..).trans h.correctionScores
      scores := fun score hscore => ?_ }
    rcases mem_or_eq_of_mem_set hscore with hscore | rfl
    · exact h.scores score hscore
    · -- the score that was there is in range, or the default when there is none
      have hcurrent : -kMaxCorrectionScore ≤ ix.correctionScores.getD index 0 ∧
          ix.correctionScores.getD index 0 ≤ kMaxCorrectionScore := by
        rw [getD_eq_getElem?_getD]
        cases hget : ix.correctionScores[index]? with
        | none => exact ⟨by decide, by decide⟩
        | some score => exact h.scores score (mem_of_getElem? hget)
      rw [adjustScore_eq _ delta hcurrent]
      exact clampScore_range

theorem PhraseIndex.Live.valid {ix : PhraseIndex} (h : ix.Live) : ix.Valid := by
  induction h with
  | make entries fuzzyConfig ix h => exact valid_make h
  | tombstone ix id _ ih => exact ix.valid_applyTombstone id ih
  | feedback ix id delta _ ih => exact ix.valid_applyCorrectionFeedback id delta ih

end Engine
end YunPin
