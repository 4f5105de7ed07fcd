import YunPin.PhraseIndex
import YunPin.WordTiling
import Mathlib.Data.Set.Card

/-! The segmenter: its search finds the first tilings of a chunk by syllables, and its loop over the
chunks puts paths together from one tiling of each chunk. Every path keeps the boundaries of the
input, and within the limits none is missing. -/
namespace YunPin
open ByteText WordTiling List

namespace Engine

def isBuiltIn (w : Bytes) : Bool := decide (w ∈ builtInSyllables)

abbrev Segments (path : List Bytes) (text : Bytes) : Prop := Tiles isBuiltIn path text

theorem le_foldl_max (l : List Bytes) (n : ℕ) :
    n ≤ l.foldl (fun n w => max n w.length) n ∧
      ∀ w ∈ l, w.length ≤ l.foldl (fun n w => max n w.length) n := by
  induction l generalizing n with
  | nil => exact ⟨le_rfl, fun w hw => absurd hw not_mem_nil⟩
  | cons v l ih =>
    obtain ⟨hstart, hall⟩ := ih (max n v.length)
    refine ⟨(le_max_left _ _).trans hstart, fun w hw => ?_⟩
    rcases mem_cons.mp hw with rfl | hw
    · exact (le_max_right _ _).trans hstart
    · exact hall w hw

theorem bounded_builtIn : Bounded isBuiltIn maxSyllableLength where
  nonempty := by
    rw [isBuiltIn, decide_eq_false_iff_not]
    exact fun h => (builtInSyllables_lower h).1 rfl
  short w hw := (le_foldl_max builtInSyllables 0).2 w (of_decide_eq_true hw)

theorem isSyllable_normalizePinyin (s : Bytes) :
    isSyllable (normalizePinyin s) = true ↔ normalizePinyin s ∈ builtInSyllables := by
  rw [isSyllable, normalizePinyin_lower _ (normalizePinyin_letters s), decide_eq_true_eq]
  exact ⟨And.right, fun h => ⟨(builtInSyllables_lower h).1, h⟩⟩

theorem segments_singleton {w : Bytes} (h : w ∈ builtInSyllables) : Segments [w] w where
  words v hv := by
    rw [mem_singleton.mp hv]
    exact decide_eq_true h
  flatten := append_nil w

theorem visit_eq (maxPaths room : ℕ) (remaining : Bytes) (current : List Bytes)
    (paths : List (List Bytes)) :
    visit maxPaths room remaining current paths = paths ++
      ((tilings isBuiltIn maxSyllableLength room remaining).map (current ++ ·)).take
        (maxPaths-paths.length) := by
  induction room generalizing remaining current paths with
  | zero =>
    rw [visit]
    split_ifs with hfull hrest
    · rw [Nat.sub_eq_zero_of_le hfull, take_zero, append_nil]
    · rw [hrest, tilings_nil, map_singleton, append_nil, take_of_length_le]
      exact Nat.le_sub_of_add_le' (not_le.mp hfull)
    · rw [tilings_zero _ _ hrest, map_nil, take_nil, append_nil]
  | succ room ih =>
    rw [visit]
    split_ifs with hfull hrest
    · rw [Nat.sub_eq_zero_of_le hfull, take_zero, append_nil]
    · rw [hrest, tilings_nil, map_singleton, append_nil, take_of_length_le]
      exact Nat.le_sub_of_add_le' (not_le.mp hfull)
    rw [tilings_succ _ _ room hrest, map_flatMap]
    -- one round for each length, longest first
    refine foldl_capped _ _ (fun paths n => ?_) _ paths
    simp only [isBuiltIn, decide_eq_true_eq]
    split_ifs
    · rw [ih, map_map]
      congr 2
      apply map_congr_left
      intro path _
      exact append_assoc ..
    · rw [map_nil, take_nil, append_nil]

def chunkPaths (limits : SegmenterLimits) (explicitBoundary : Bool) (text : Bytes) :
    List (List Bytes) :=
  if explicitBoundary = true ∧ text ∈ builtInSyllables then [[text]]
  else (tilings isBuiltIn maxSyllableLength limits.maxSyllablesPerPath text).take limits.maxPaths

section Limits
variable (limits : SegmenterLimits)

theorem segmentChunk_eq (chunk : Bytes) (explicitBoundary : Bool) :
    segmentChunk limits chunk explicitBoundary =
      if normalizePinyin chunk = [] ∨ (normalizePinyin chunk).length > limits.maxInputLetters ∨
        limits.maxPaths = 0 ∨ limits.maxSyllablesPerPath = 0 then []
      else chunkPaths limits explicitBoundary (normalizePinyin chunk) := by
  have hvisit : visit limits.maxPaths limits.maxSyllablesPerPath (normalizePinyin chunk) [] [] =
      (tilings isBuiltIn maxSyllableLength limits.maxSyllablesPerPath
        (normalizePinyin chunk)).take limits.maxPaths := by
    rw [visit_eq]
    exact congrArg (List.take limits.maxPaths) (map_id _)
  rw [segmentChunk, chunkPaths, hvisit]
  simp only [isSyllable_normalizePinyin]

theorem mem_chunkPaths {text : Bytes} {explicitBoundary : Bool} {path : List Bytes}
    (h : path ∈ chunkPaths limits explicitBoundary text) : Segments path text := by
  rw [chunkPaths] at h
  split_ifs at h with hsyllable
  · rw [mem_singleton.mp h]
    exact segments_singleton hsyllable.2
  · exact ((mem_tilings bounded_builtIn _ _ _).mp (mem_of_mem_take h)).1

theorem nodup_chunkPaths (text : Bytes) (explicitBoundary : Bool) :
    (chunkPaths limits explicitBoundary text).Nodup := by
  rw [chunkPaths]
  split_ifs
  · exact nodup_singleton _
  · exact (tilings_nodup).sublist (take_sublist _ _)

theorem mem_segmentChunk (chunk : Bytes) {explicitBoundary : Bool} (path : List Bytes)
    (h : path ∈ segmentChunk limits chunk explicitBoundary) :
    Segments path (normalizePinyin chunk) := by
  rw [segmentChunk_eq] at h
  split_ifs at h
  · cases h
  · exact mem_chunkPaths limits h

theorem distinct_segmentChunk (chunk : Bytes) (explicitBoundary : Bool) :
    Distinct (segmentChunk limits chunk explicitBoundary) (normalizePinyin chunk) := by
  refine ⟨?_, fun path h w hw => ?_, fun path h => ?_⟩
  · rw [segmentChunk_eq]
    split_ifs
    · exact nodup_nil
    · exact nodup_chunkPaths limits _ _
  · exact (mem_segmentChunk limits _ path h).ne_nil bounded_builtIn w hw
  · exact (mem_segmentChunk limits _ path h).flatten

end Limits

theorem readPinyin_boundary (skip : Bool) {chunk rest : Bytes} {raw : UInt8}
    (hraw : isHardBoundary raw = true) (hskip : skip = true → chunk ≠ [])
    (pieces : List (Option UInt8)) (h : readPinyin skip (chunk ++ raw :: rest) = some pieces) :
    ∃ p q, readPinyin skip chunk = some p ∧ readPinyin false rest = some q ∧
      pieces = p ++ none :: q := by
  induction chunk generalizing skip pieces with
  | nil =>
    cases skip with
    | true => exact absurd rfl (hskip rfl)
    | false =>
      rw [nil_append, readPinyin, if_pos hraw, Option.map_eq_some_iff] at h
      obtain ⟨q, hq, rfl⟩ := h
      exact ⟨[], q, rfl, hq, rfl⟩
  | cons b chunk ih =>
    have hnext := ih false (fun h => absurd h Bool.false_ne_true)
    cases skip with
    | true => exact hnext pieces h
    | false =>
      -- the boundary is no colon, so a colon after the byte is in the chunk
      have hcolon : (chunk ++ raw :: rest).head? = some 0x3A ↔ chunk.head? = some 0x3A := by
        cases chunk with
        | nil =>
          have hne : raw ≠ 0x3A := by
            rintro rfl
            exact absurd hraw (by decide)
          simp [hne]
        | cons c chunk => exact Iff.rfl
      rw [cons_append, readPinyin] at h
      rw [readPinyin]
      dsimp only
      simp only [hcolon] at h
      split_ifs at h ⊢ with hb htone hletter hu
      · obtain ⟨more, hmore, rfl⟩ := Option.map_eq_some_iff.mp h
        obtain ⟨p, q, hp, hq, rfl⟩ := hnext more hmore
        exact ⟨none :: p, q, by rw [hp]; rfl, hq, rfl⟩
      · exact hnext pieces h
      · obtain ⟨more, hmore, rfl⟩ := Option.map_eq_some_iff.mp h
        have hne : chunk ≠ [] := by
          rintro rfl
          cases hu.2
        obtain ⟨p, q, hp, hq, rfl⟩ := ih true (fun _ => hne) more hmore
        exact ⟨some 0x76 :: p, q, by rw [hp]; rfl, hq, rfl⟩
      · obtain ⟨more, hmore, rfl⟩ := Option.map_eq_some_iff.mp h
        obtain ⟨p, q, hp, hq, rfl⟩ := hnext more hmore
        exact ⟨some (toLowerByte b) :: p, q, by rw [hp]; rfl, hq, rfl⟩

theorem readPinyin_rawChunks (current s : Bytes) (pieces : List (Option UInt8))
    (h : readPinyin false (current ++ s) = some pieces) :
    (∀ chunk ∈ rawChunks current s, (readPinyin false chunk).isSome = true) ∧
      ((rawChunks current s).map normalizePinyin).flatten = pieces.filterMap id := by
  have hflush (chunk : Bytes) (p : List (Option UInt8)) (hp : readPinyin false chunk = some p) :
      (∀ c ∈ flush chunk, (readPinyin false c).isSome = true) ∧
        ((flush chunk).map normalizePinyin).flatten = p.filterMap id := by
    rw [flush]
    split_ifs with hchunk
    · rw [hchunk] at hp
      cases hp
      exact ⟨fun c hc => absurd hc not_mem_nil, rfl⟩
    · simp [normalizePinyin, hp]
  induction s generalizing current pieces with
  | nil =>
    rw [append_nil] at h
    exact hflush current pieces h
  | cons raw rest ih =>
    rw [rawChunks]
    split_ifs with hraw
    · obtain ⟨p, q, hp, hq, rfl⟩ := readPinyin_boundary false hraw
        (fun h => absurd h Bool.false_ne_true) pieces h
      obtain ⟨hfirst, hspell⟩ := hflush current p hp
      obtain ⟨hothers, hspell'⟩ := ih [] q hq
      refine ⟨fun chunk hchunk => ?_, ?_⟩
      · exact (mem_append.mp hchunk).elim (hfirst chunk) (hothers chunk)
      · rw [map_append, flatten_append, hspell, hspell', filterMap_append]
        rfl
    · apply ih (current ++ [raw]) pieces
      rw [append_assoc]
      exact h

theorem flatten_rawChunks {input : Bytes} (h : normalizePinyin input ≠ []) :
    (∀ chunk ∈ rawChunks [] input, (readPinyin false chunk).isSome = true) ∧
      ((rawChunks [] input).map normalizePinyin).flatten = normalizePinyin input := by
  rw [normalizePinyin] at h ⊢
  cases hread : readPinyin false input with
  | none =>
    rw [hread] at h
    exact absurd rfl h
  | some pieces => exact readPinyin_rawChunks [] input pieces hread

theorem rawChunks_of_no_boundary (current s : Bytes) (h : s.any isHardBoundary = false) :
    rawChunks current s = flush (current ++ s) := by
  induction s generalizing current with
  | nil => rw [rawChunks, append_nil]
  | cons raw rest ih =>
    rw [any_cons, Bool.or_eq_false_iff] at h
    rw [rawChunks, h.1, if_neg Bool.false_ne_true, ih _ h.2, append_assoc,
      singleton_append]

theorem normalizePinyin_ne_nil {chunk : Bytes} (hread : (readPinyin false chunk).isSome = true)
    (hletter : ∃ b ∈ chunk, isLowerByte (toLowerByte b) = true) : normalizePinyin chunk ≠ [] := by
  rw [normalizePinyin]
  obtain ⟨pieces, hpieces⟩ := Option.isSome_iff_exists.mp hread
  rw [hpieces]
  dsimp only
  clear hread
  induction chunk generalizing pieces with
  | nil => simp at hletter
  | cons raw rest ih =>
    have hother : isHardBoundary raw = true ∨ isToneDigit raw = true →
        ¬isLowerByte (toLowerByte raw) = true := by
      simp only [isHardBoundary, isToneDigit, isLowerByte, toLowerByte, decide_eq_true_eq]
      grind
    have hrest (hraw : isHardBoundary raw = true ∨ isToneDigit raw = true) :
        ∃ b ∈ rest, isLowerByte (toLowerByte b) = true := by
      have := hother hraw
      grind
    rw [readPinyin] at hpieces
    dsimp only at hpieces
    split_ifs at hpieces with hboundary htone
    · obtain ⟨more, hmore, rfl⟩ := Option.map_eq_some_iff.mp hpieces
      exact ih (hrest (.inl hboundary)) more hmore
    · exact ih (hrest (.inr htone)) pieces hpieces
    all_goals
      obtain ⟨more, -, rfl⟩ := Option.map_eq_some_iff.mp hpieces
      exact cons_ne_nil _ _

/-- What may stand for a chunk between boundaries: the chunk itself when it is a syllable, and
otherwise any segmentation of it. -/
def choices (text : Bytes) : Set (List Bytes) :=
  if text ∈ builtInSyllables then {[text]} else {path | Segments path text}

def allChoices (text : Bytes) : List (List Bytes) :=
  if text ∈ builtInSyllables then [[text]]
  else tilings isBuiltIn maxSyllableLength text.length text

theorem length_le_flatten {path : List Bytes} (h : ∀ w ∈ path, w ≠ []) :
    path.length ≤ path.flatten.length := by
  induction path with
  | nil => exact le_rfl
  | cons w path ih =>
    have hw := length_pos_iff.mpr (h w mem_cons_self)
    have hrest := ih (forall_mem_cons.mp h).2
    rw [length_cons, flatten_cons, length_append]
    omega

theorem mem_allChoices {text : Bytes} (path : List Bytes) :
    path ∈ allChoices text ↔ path ∈ choices text := by
  rw [allChoices, choices]
  split_ifs
  · exact mem_singleton
  · rw [mem_tilings bounded_builtIn]
    refine ⟨And.left, fun h => ⟨h, ?_⟩⟩
    have hle := length_le_flatten (Tiles.ne_nil bounded_builtIn h)
    rwa [Tiles.flatten h] at hle

theorem ncard_choices (text : Bytes) : (choices text).ncard = (allChoices text).length := by
  have hnodup : (allChoices text).Nodup := by
    rw [allChoices]
    split_ifs
    · exact nodup_singleton _
    · exact tilings_nodup
  have hset : choices text = (allChoices text).toFinset := by
    ext path
    simp [mem_allChoices]
  rw [hset, Set.ncard_coe_finset, toFinset_card_of_nodup hnodup]

theorem segments_of_mem_choices {text : Bytes} {path : List Bytes} (h : path ∈ choices text) :
    Segments path text := by
  rw [choices] at h
  split_ifs at h with hsyllable
  · rw [Set.mem_singleton_iff.mp h]
    exact segments_singleton hsyllable
  · exact h

section Paths
variable (limits : SegmenterLimits) (input : Bytes)

theorem segment_eq (h : normalizePinyin input ≠ []) :
    segment limits input =
      if (normalizePinyin input).length > limits.maxInputLetters ∨ limits.maxPaths = 0 ∨
        limits.maxSyllablesPerPath = 0 then []
      else ((rawChunks [] input).map
        (segmentChunk limits · (input.any isHardBoundary))).foldl
          (extend limits.maxPaths limits.maxSyllablesPerPath) [[]] := by
  have hchunks : rawChunks [] input ≠ [] := by
    intro hnil
    have hspell := (flatten_rawChunks h).2
    rw [hnil] at hspell
    exact h hspell.symm
  rw [segment]
  simp only [h, false_or, if_neg hchunks, foldl_map]
  rfl

structure Segmented (paths : List (List Bytes)) : Prop where
  syllables : ∀ path ∈ paths, ∀ w ∈ path, w ∈ builtInSyllables
  spelled : ∀ path ∈ paths, path.flatten = normalizePinyin input
  boundaries : ∀ path ∈ paths, ∃ parts, path = parts.flatten ∧
    List.Forall₂ (fun part chunk => part.flatten = normalizePinyin chunk) parts (rawChunks [] input)
  count : paths.length ≤ limits.maxPaths
  length : ∀ path ∈ paths, path.length ≤ limits.maxSyllablesPerPath
  distinct : paths.Nodup

theorem segmented_segment : Segmented limits input (segment limits input) := by
  have hnone : Segmented limits input [] := by
    constructor <;> simp
  by_cases hnil : normalizePinyin input = []
  · rw [segment, if_pos (.inl hnil)]
    exact hnone
  rw [segment_eq limits input hnil]
  split_ifs with hguard
  · exact hnone
  obtain ⟨-, hpaths, hroom⟩ := not_or.mp hguard |>.imp_right not_or.mp
  set found := (rawChunks [] input).map (segmentChunk limits · (input.any isHardBoundary))
    with hfound
  have hdistinct : Distinct (found.foldl (extend limits.maxPaths limits.maxSyllablesPerPath) [[]])
      (normalizePinyin input) := by
    have hchunks : List.Forall₂ Distinct found ((rawChunks [] input).map normalizePinyin) := by
      rw [hfound, forall₂_map_left_iff, forall₂_map_right_iff, forall₂_same]
      exact fun chunk _ => distinct_segmentChunk limits chunk _
    have hstart : Distinct [[]] ([] : Bytes) := by
      constructor <;> simp
    rw [← (flatten_rawChunks hnil).2]
    exact Distinct.foldl hchunks hstart
  obtain ⟨hcount, hlength⟩ := foldl_extend_bounds limits.maxSyllablesPerPath found
    [[]] (Nat.one_le_iff_ne_zero.mpr hpaths) (by simp)
  have hparts (path : List Bytes)
      (h : path ∈ found.foldl (extend limits.maxPaths limits.maxSyllablesPerPath) [[]]) :
      ∃ parts, path = parts.flatten ∧ List.Forall₂
        (fun part chunk => Segments part (normalizePinyin chunk)) parts (rawChunks [] input) := by
    obtain ⟨start, hstart, parts, hparts, rfl⟩ := parts_of_mem_foldl
        (fun _ _ _ => And.right ∘ mem_of_mem_extend) h
    rw [mem_singleton.mp hstart, nil_append]
    rw [hfound, forall₂_map_right_iff] at hparts
    exact ⟨parts, rfl, hparts.imp (fun part chunk => mem_segmentChunk limits chunk part)⟩
  refine ⟨fun path h w hw => ?_, hdistinct.flatten, fun path h => ?_, hcount, hlength,
    hdistinct.nodup⟩
  · obtain ⟨parts, rfl, hforall⟩ := hparts path h
    obtain ⟨part, hpart, hw⟩ := mem_flatten.mp hw
    obtain ⟨i, hi, rfl⟩ := mem_iff_getElem.mp hpart
    have hsegments := hforall.get hi (hforall.length_eq ▸ hi)
    exact of_decide_eq_true (Tiles.words hsegments w hw)
  · obtain ⟨parts, hflatten, hforall⟩ := hparts path h
    exact ⟨parts, hflatten, hforall.imp (fun part chunk hs => Tiles.flatten hs)⟩

theorem segment_of_no_boundary (hboundary : input.any isHardBoundary = false)
    (hne : normalizePinyin input ≠ [])
    (hlen : (normalizePinyin input).length ≤ limits.maxInputLetters) :
    segment limits input = (tilings isBuiltIn maxSyllableLength limits.maxSyllablesPerPath
      (normalizePinyin input)).take limits.maxPaths := by
  have hinput : input ≠ [] := by
    rintro rfl
    exact hne rfl
  rw [segment_eq limits input hne]
  split_ifs with hguard
  · rcases hguard with hlong | hpaths | hroom
    · exact absurd hlen (not_le.mpr hlong)
    · rw [hpaths, take_zero]
    · rw [hroom, tilings_zero _ _ hne, take_nil]
  rw [rawChunks_of_no_boundary [] input hboundary, nil_append, flush, if_neg hinput, hboundary,
    map_singleton, foldl_cons, foldl_nil, segmentChunk_eq,
    if_neg (not_or.mpr ⟨hne, hguard⟩), chunkPaths, if_neg (fun h => Bool.false_ne_true h.1)]
  -- the limits of the loop over the chunks do not cut anything off again
  have hshort : ∀ path ∈ (tilings isBuiltIn maxSyllableLength limits.maxSyllablesPerPath
      (normalizePinyin input)).take limits.maxPaths,
      decide (path.length ≤ limits.maxSyllablesPerPath) = true := fun path h =>
    decide_eq_true ((mem_tilings bounded_builtIn _ _ _).mp (mem_of_mem_take h)).2
  rw [extend, flatMap_singleton]
  simp only [nil_append, map_id']
  rw [filter_eq_self.mpr hshort, take_take, Nat.min_self]

theorem mem_choices_of_segmentChunk (chunk : Bytes) (path : List Bytes)
    (h : path ∈ segmentChunk limits chunk true) : path ∈ choices (normalizePinyin chunk) := by
  rw [segmentChunk_eq] at h
  split_ifs at h
  · cases h
  rw [choices]
  split_ifs with hsyllable
  · rw [chunkPaths, if_pos ⟨rfl, hsyllable⟩] at h
    exact mem_singleton.mp h
  · exact mem_chunkPaths limits h

theorem length_segmentChunk_le {chunk : Bytes} :
    (segmentChunk limits chunk true).length ≤ (choices (normalizePinyin chunk)).ncard := by
  rw [ncard_choices]
  apply ((distinct_segmentChunk limits chunk true).nodup.subperm ?_).length_le
  intro path h
  exact (mem_allChoices path).mpr (mem_choices_of_segmentChunk limits chunk path h)

theorem mem_segmentChunk_of_choices (chunk : Bytes) (path : List Bytes)
    (hguard : ¬(normalizePinyin chunk = [] ∨
      (normalizePinyin chunk).length > limits.maxInputLetters ∨
      limits.maxPaths = 0 ∨ limits.maxSyllablesPerPath = 0))
    (hcount : (choices (normalizePinyin chunk)).ncard ≤ limits.maxPaths)
    (hpath : path ∈ choices (normalizePinyin chunk))
    (hlen : path.length ≤ limits.maxSyllablesPerPath) :
    path ∈ segmentChunk limits chunk true := by
  rw [segmentChunk_eq, if_neg hguard, chunkPaths]
  rw [ncard_choices] at hcount
  by_cases hsyllable : normalizePinyin chunk ∈ builtInSyllables
  · rw [choices, if_pos hsyllable] at hpath
    rw [if_pos ⟨rfl, hsyllable⟩]
    exact mem_singleton.mpr hpath
  · rw [choices, if_neg hsyllable] at hpath
    rw [allChoices, if_neg hsyllable] at hcount
    rw [if_neg (fun h => hsyllable h.2), take_of_length_le]
    · exact (mem_tilings bounded_builtIn _ _ path).mpr ⟨hpath, hlen⟩
    · -- the short tilings are among all of them
      refine ((tilings_nodup).subperm (fun p hp => ?_)).length_le.trans hcount
      obtain ⟨htiles, -⟩ := (mem_tilings bounded_builtIn _ _ p).mp hp
      refine (mem_tilings bounded_builtIn _ _ p).mpr ⟨htiles, ?_⟩
      exact (length_le_flatten (htiles.ne_nil bounded_builtIn)).trans_eq
        (congrArg List.length htiles.flatten)

variable {limits input}

theorem mem_segment_of_boundary (hboundary : input.any isHardBoundary = true)
    (hne : normalizePinyin input ≠ [])
    (hlen : (normalizePinyin input).length ≤ limits.maxInputLetters)
    (hletters : ∀ chunk ∈ rawChunks [] input, ∃ b ∈ chunk, isLowerByte (toLowerByte b) = true)
    (hcap : ((rawChunks [] input).map (fun c => (choices (normalizePinyin c)).ncard)).prod ≤
      limits.maxPaths) (path : List Bytes) :
    path ∈ segment limits input ↔ path.length ≤ limits.maxSyllablesPerPath ∧
      ∃ parts, List.Forall₂ (fun part chunk => part ∈ choices (normalizePinyin chunk)) parts
        (rawChunks [] input) ∧ path = parts.flatten := by
  obtain ⟨hread, hspell⟩ := flatten_rawChunks hne
  constructor
  · intro h
    refine ⟨(segmented_segment limits input).length path h, ?_⟩
    rw [segment_eq limits input hne, hboundary] at h
    split_ifs at h
    · cases h
    obtain ⟨start, hstart, parts, hparts, rfl⟩ := parts_of_mem_foldl
        (fun _ _ _ => And.right ∘ mem_of_mem_extend) h
    rw [forall₂_map_right_iff] at hparts
    refine ⟨parts, hparts.imp (fun part chunk => mem_choices_of_segmentChunk limits chunk part), ?_⟩
    rw [mem_singleton.mp hstart, nil_append]
  · rintro ⟨hshort, parts, hparts, rfl⟩
    -- a combination exists, so neither limit is zero
    have hpos : 1 ≤ ((rawChunks [] input).map
        (fun c => (choices (normalizePinyin c)).ncard)).prod := by
      have hall : List.Forall₂ (· ∈ ·) parts
          ((rawChunks [] input).map (fun c => allChoices (normalizePinyin c))) := by
        rw [forall₂_map_right_iff]
        exact hparts.imp (fun part chunk => (mem_allChoices part).mpr)
      have hone := prod_pos_of_parts hall
      rw [map_map] at hone
      simpa only [ncard_choices, Function.comp_def] using hone
    have hroom : limits.maxSyllablesPerPath ≠ 0 := by
      intro hzero
      rw [hzero, Nat.le_zero, length_eq_zero_iff] at hshort
      have hmap : parts.map List.flatten = (rawChunks [] input).map normalizePinyin := by
        rw [← forall₂_eq_eq_eq, forall₂_map_left_iff, forall₂_map_right_iff]
        exact hparts.imp (fun part chunk h => (segments_of_mem_choices h).flatten)
      rw [← hspell, ← hmap, ← flatten_flatten, hshort] at hne
      exact hne rfl
    have hguard : ¬((normalizePinyin input).length > limits.maxInputLetters ∨
        limits.maxPaths = 0 ∨ limits.maxSyllablesPerPath = 0) := by
      omega
    have hchunk (part : List Bytes) (chunk : Bytes)
        (hzip : (part, chunk) ∈ parts.zip (rawChunks [] input)) :
        part ∈ segmentChunk limits chunk true := by
      obtain ⟨hpart, hmem⟩ := of_mem_zip hzip
      apply mem_segmentChunk_of_choices
      · have hle : (normalizePinyin chunk).length ≤ (normalizePinyin input).length := by
          rw [← hspell]
          exact (sublist_flatten_of_mem (mem_map_of_mem hmem)).length_le
        refine not_or.mpr ⟨?_, by omega⟩
        exact normalizePinyin_ne_nil (hread chunk hmem) (hletters chunk hmem)
      · refine (single_le_prod ?_ _ (mem_map_of_mem hmem)).trans hcap
        intro n hn
        by_contra hzero
        rw [Nat.lt_one_iff.mp (not_le.mp hzero)] at hn
        exact absurd (prod_eq_zero hn) (Nat.one_le_iff_ne_zero.mp hpos)
      · exact (forall₂_iff_zip.mp hparts).2 hzip
      · exact (sublist_flatten_of_mem hpart).length_le.trans hshort
    rw [segment_eq limits input hne, if_neg hguard, hboundary]
    rw [← nil_append parts.flatten] at hshort ⊢
    apply mem_foldl_of_parts _ mem_cons_self _ hshort
    · rw [length_singleton, Nat.one_mul, map_map]
      exact (prod_le_prod' (fun chunk _ => length_segmentChunk_le limits)).trans hcap
    · rw [forall₂_map_right_iff, forall₂_iff_zip]
      exact ⟨hparts.length_eq, fun h => hchunk _ _ h⟩

end Paths

/-- Segmentation is sound; without boundary it gives the first paths in the order of the search,
and with boundaries all combinations as long as there are not too many. -/
theorem segmentation (limits : SegmenterLimits) (input : Bytes) :
    Segmented limits input (segment limits input) ∧
      (input.any isHardBoundary = false → 1 ≤ (normalizePinyin input).length →
        (normalizePinyin input).length ≤ limits.maxInputLetters →
        ∃ all : List (List Bytes),
          (∀ path, path ∈ all ↔ Segments path (normalizePinyin input) ∧
            path.length ≤ limits.maxSyllablesPerPath) ∧
          all.Pairwise LongestFirst ∧ segment limits input = all.take limits.maxPaths) ∧
      (input.any isHardBoundary = true → 1 ≤ (normalizePinyin input).length →
        (normalizePinyin input).length ≤ limits.maxInputLetters →
        (∀ chunk ∈ rawChunks [] input, ∃ b ∈ chunk, isLowerByte (toLowerByte b) = true) →
        ((rawChunks [] input).map (fun c => (choices (normalizePinyin c)).ncard)).prod ≤
          limits.maxPaths →
        ∀ path, path ∈ segment limits input ↔ path.length ≤ limits.maxSyllablesPerPath ∧
          ∃ parts, List.Forall₂ (fun part chunk => part ∈ choices (normalizePinyin chunk)) parts
            (rawChunks [] input) ∧ path = parts.flatten) := by
  refine ⟨segmented_segment limits input, fun hboundary hpos hlen => ?_,
    fun hboundary hpos hlen hletters hcap => ?_⟩
  · exact ⟨_, mem_tilings bounded_builtIn _ _, tilings_pairwise _ _,
      segment_of_no_boundary limits input hboundary (length_pos_iff.mp hpos) hlen⟩
  · exact mem_segment_of_boundary hboundary (length_pos_iff.mp hpos) hlen hletters hcap

theorem segmentation_sample : ∃ all : List (List Bytes),
    (∀ path, path ∈ all ↔ Segments path (normalizePinyin (lit "xian")) ∧ path.length ≤ 2) ∧
      all.Pairwise LongestFirst ∧ segment ⟨10, 2, 10⟩ (lit "xian") = all.take 10 :=
  (segmentation ⟨10, 2, 10⟩ (lit "xian")).2.1 rfl (by decide) (by decide)

end Engine
end YunPin
