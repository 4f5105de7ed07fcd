import YunPin.PhraseIndex

/-! Pinyin as a key of the index: the two scanners that read it, and the two searches in a list of
keys in byte order. -/
namespace YunPin
open ByteText List

namespace Engine

/-- `NormalizePinyin` as it is written: one result, given up at the first byte it cannot read. -/
def normalizeLoop : (skip : Bool) → (result : Bytes) → Bytes → Bytes
  | _, result, [] => result
  | true, result, _ :: rest => normalizeLoop false result rest
  | false, result, raw :: rest =>
    if isHardBoundary raw then normalizeLoop false result rest
    else if isToneDigit raw then normalizeLoop false result rest
    else if ¬isLowerByte (toLowerByte raw) then []
    else if toLowerByte raw = 0x75 ∧ rest.head? = some 0x3A then
      normalizeLoop true (result ++ [0x76]) rest
    else normalizeLoop false (result ++ [toLowerByte raw]) rest

/-- `SplitPinyin` as it is written: the tokens that are flushed, and the one at hand. -/
def splitLoop : (skip : Bool) → (result : List Bytes) → (token : Bytes) → Bytes → List Bytes
  | _, result, token, [] => result ++ flush token
  | true, result, token, _ :: rest => splitLoop false result token rest
  | false, result, token, raw :: rest =>
    if isHardBoundary raw then splitLoop false (result ++ flush token) [] rest
    else if isToneDigit raw then splitLoop false result token rest
    else if ¬isLowerByte (toLowerByte raw) then []
    else if toLowerByte raw = 0x75 ∧ rest.head? = some 0x3A then
      splitLoop true result (token ++ [0x76]) rest
    else splitLoop false result (token ++ [toLowerByte raw]) rest

theorem normalizeLoop_eq (skip : Bool) (result s : Bytes) : normalizeLoop skip result s =
    (readPinyin skip s).elim [] (fun pieces => result ++ pieces.filterMap id) := by
  induction s generalizing skip result with
  | nil => cases skip <;> simp [normalizeLoop, readPinyin]
  | cons raw rest ih =>
    cases skip with
    | true => exact ih false result
    | false =>
      rw [normalizeLoop, readPinyin]
      dsimp only
      split_ifs <;> simp only [ih, Option.elim_map, Option.elim_none] <;>
        exact congrArg (Option.elim _ _) (funext fun pieces => by simp)

theorem splitLoop_eq (skip : Bool) (result : List Bytes) (token s : Bytes) :
    splitLoop skip result token s =
      (readPinyin skip s).elim [] (fun pieces => result ++ tokens token pieces) := by
  induction s generalizing skip result token with
  | nil => cases skip <;> rfl
  | cons raw rest ih =>
    cases skip with
    | true => exact ih false result token
    | false =>
      rw [splitLoop, readPinyin]
      dsimp only
      split_ifs <;> simp only [ih, Option.elim_map, Option.elim_none] <;>
        exact congrArg (Option.elim _ _) (funext fun pieces => by simp [tokens])

theorem flatten_tokens (token : Bytes) (pieces : List (Option UInt8)) :
    (tokens token pieces).flatten = token ++ pieces.filterMap id := by
  have hflush (t : Bytes) : (flush t).flatten = t := by
    rw [flush]
    split_ifs with h <;> simp [h]
  induction pieces generalizing token with
  | nil => simp [tokens, hflush]
  | cons piece rest ih => cases piece <;> simp [tokens, hflush, ih]

theorem nil_notMem_tokens (token : Bytes) (pieces : List (Option UInt8)) :
    [] ∉ tokens token pieces := by
  have hflush (t : Bytes) : [] ∉ flush t := by
    rw [flush]
    split_ifs with h <;> simp [Ne.symm, h]
  induction pieces generalizing token with
  | nil => exact hflush token
  | cons piece rest ih => cases piece <;> simp [tokens, hflush, ih]

/-- What the two scanners have to do with each other. -/
structure TokenisersAgree (s : Bytes) : Prop where
  /-- The loops as they are written are those of the model. -/
  loops : normalizeLoop false [] s = normalizePinyin s ∧ splitLoop false [] [] s = splitPinyin s
  joined : (splitLoop false [] [] s).flatten = normalizeLoop false [] s
  words : ∀ w ∈ splitLoop false [] [] s, w ≠ [] ∧ ∀ b ∈ w, isLowerByte b = true
  idempotent : normalizeLoop false [] (normalizeLoop false [] s) = normalizeLoop false [] s
  split : ∀ separator : ℕ → UInt8, (∀ n, isHardBoundary (separator n) = true) →
    ∀ ws : List Bytes, (∀ w ∈ ws, w ≠ [] ∧ ∀ b ∈ w, isLowerByte b = true) →
      splitLoop false [] [] (joinWords separator ws) = ws

theorem pinyin_tokenisers_agree (s : Bytes) : TokenisersAgree s := by
  have hnormalize (s : Bytes) : normalizeLoop false [] s = normalizePinyin s := by
    rw [normalizeLoop_eq, normalizePinyin]
    cases readPinyin false s <;> rfl
  have hsplit (s : Bytes) : splitLoop false [] [] s = splitPinyin s := by
    rw [splitLoop_eq, splitPinyin]
    cases readPinyin false s <;> rfl
  have hjoined : (splitPinyin s).flatten = normalizePinyin s := by
    rw [splitPinyin, normalizePinyin]
    cases readPinyin false s with
    | none => rfl
    | some pieces => exact flatten_tokens [] pieces
  refine ⟨⟨hnormalize s, hsplit s⟩, ?_, fun w hw => ?_, ?_, fun separator hsep ws hws => ?_⟩
  · rw [hsplit, hnormalize, hjoined]
  · rw [hsplit] at hw
    refine ⟨?_, fun b hb => normalizePinyin_letters s b (hjoined ▸ mem_flatten_of_mem hw hb)⟩
    rintro rfl
    rw [splitPinyin] at hw
    split at hw
    · cases hw
    · exact nil_notMem_tokens _ _ hw
  · rw [hnormalize, hnormalize, normalizePinyin_lower _ (normalizePinyin_letters s)]
  · rw [hsplit, splitPinyin_joinWords separator hsep hws]

/-- The two places that `PrefixRange` returns. -/
def prefixBounds (index : List KeyRef) (start : Bytes) : ℕ × ℕ :=
  let first := KeyRange.lowerBoundAt KeyRef.key index ⟨[], 0⟩ 0 start
  (first, KeyRange.lowerBoundAt KeyRef.key index ⟨[], 0⟩ first (start ++ [0x7B]))

/-- The searches visit what a scan of the whole index finds. -/
structure SearchesScan (index : List KeyRef) (query : Bytes) : Prop where
  bounds : (prefixBounds index query).1 ≤ (prefixBounds index query).2 ∧
    (prefixBounds index query).2 ≤ index.length
  range : (index.take (prefixBounds index query).2).drop (prefixBounds index query).1 =
    index.filter (fun ref => query.isPrefixOf ref.key)
  /-- The list that the model of the query walks is this range. -/
  walked : prefixRange index query = index.filter (fun ref => query.isPrefixOf ref.key)
  equal : (index.drop (prefixBounds index query).1).takeWhile (fun ref => ref.key = query) =
    index.filter (fun ref => ref.key = query)

/-- In an index in byte order, the binary searches find what a linear scan finds. -/
theorem prefix_search_scan (index : List KeyRef) (query : Bytes)
    (hsorted : index.Pairwise (fun r s => r.key ≤ s.key))
    (hkeys : ∀ ref ∈ index, ∀ b ∈ ref.key, isLowerByte b = true) : SearchesScan index query := by
  have hrange : prefixRange index query = index.filter (fun ref => query.isPrefixOf ref.key) :=
    KeyRange.range_prefix KeyRef.key query hsorted
      (fun ref href b hb => isLowerByte_lt_brace (hkeys ref href b hb))
  have hle : query ≤ query ++ [0x7B] := not_lt.mp (List.not_lt.mpr List.le_append_left)
  obtain ⟨hfirst, hsecond, hbetween⟩ := KeyRange.range_between KeyRef.key query _ index ⟨[], 0⟩
    hsorted hle
  refine ⟨⟨hfirst, hsecond⟩, hbetween.trans hrange, hrange, ?_⟩
  have hdrop : index.drop (prefixBounds index query).1 = KeyRange.lowerBound KeyRef.key query index :=
    KeyRange.drop_lowerBoundAt KeyRef.key query index ⟨[], 0⟩ hsorted
  rw [hdrop, KeyRange.equal_eq KeyRef.key query index hsorted _ (fun _ => decide_eq_true_iff)]

theorem prefix_search_scan_sample :
    SearchesScan [⟨lit "ni", 2⟩, ⟨lit "nihao", 0⟩, ⟨lit "wo", 3⟩] (lit "nih") :=
  prefix_search_scan _ _ (by decide +kernel) (by decide +kernel)

end Engine
end YunPin
