import YunPin.PhraseIndex

/-! Which entries a query ranks: the match record of every entry in closed form, the gates as a
condition on the entry, and the order of the ranked list. -/
namespace YunPin
open ByteText List

namespace Engine

theorem byKeyThenIndex_iff (left right : KeyRef) :
    byKeyThenIndex left right = true ↔
      toLex (left.key, left.entryIndex) ≤ toLex (right.key, right.entryIndex) := by
  rw [byKeyThenIndex, Prod.Lex.toLex_le_toLex]
  by_cases hkey : left.key = right.key <;> simp [hkey]

variable {aliases : List Bytes} (entries : List IndexedEntry) (exactCodeOnly : Bool)
  (key : IndexedEntry → Bytes) (ix : PhraseIndex) (query : Bytes) (i : ℕ) {e : IndexedEntry}
  (record : MatchRecord) (tombstoned : Bool) (input : Bytes)

theorem keyRefs_sorted :
    (keyRefs entries exactCodeOnly key).Pairwise (fun r s => r.key ≤ s.key) := by
  have : Std.Total (fun l r : KeyRef => byKeyThenIndex l r = true) := ⟨fun l r => by
    rw [byKeyThenIndex_iff, byKeyThenIndex_iff]
    exact le_total _ _⟩
  have : IsTrans KeyRef (fun l r : KeyRef => byKeyThenIndex l r = true) := ⟨fun l m r => by
    rw [byKeyThenIndex_iff, byKeyThenIndex_iff, byKeyThenIndex_iff]
    exact le_trans⟩
  refine (pairwise_insertionSort _ _).imp (fun {r s} h => ?_)
  rcases Prod.Lex.toLex_le_toLex.mp ((byKeyThenIndex_iff r s).mp h) with hlt | ⟨heq, -⟩
  · exact hlt.le
  · exact heq.le

theorem mem_keyRefs (ref : KeyRef) : ref ∈ keyRefs entries exactCodeOnly key ↔
      ∃ e, entries[ref.entryIndex]? = some e ∧ e.entry.privateExactCodeOnly = exactCodeOnly ∧
        ref.key = key e := by
  rw [keyRefs, mem_insertionSort, mem_map]
  constructor
  · rintro ⟨⟨e, i⟩, hmem, rfl⟩
    obtain ⟨hzip, hcode⟩ := mem_filter.mp hmem
    exact ⟨e, mem_zipIdx_iff_getElem?.mp hzip, of_decide_eq_true hcode, rfl⟩
  · rintro ⟨e, hget, hcode, hkey⟩
    refine ⟨(e, ref.entryIndex), mem_filter.mpr ⟨?_, decide_eq_true hcode⟩, ?_⟩
    · exact mem_zipIdx_iff_getElem?.mpr hget
    · rw [← hkey]

theorem keyRefs_nodup : ((keyRefs entries exactCodeOnly key).map KeyRef.entryIndex).Nodup := by
  have hperm := (perm_insertionSort (fun l r : KeyRef => byKeyThenIndex l r = true)
    ((entries.zipIdx.filter (fun p => p.1.entry.privateExactCodeOnly = exactCodeOnly)).map
      (fun p => (⟨key p.1, p.2⟩ : KeyRef)))).map KeyRef.entryIndex
  refine hperm.nodup_iff.mpr ?_
  rw [map_map]
  have hsub : ((entries.zipIdx.filter
      (fun p => p.1.entry.privateExactCodeOnly = exactCodeOnly)).map Prod.snd).Sublist
      (entries.zipIdx.map Prod.snd) := filter_sublist.map _
  refine List.Nodup.sublist hsub ?_
  rw [zipIdx_map_snd]
  exact nodup_range'

section Fold
variable (put : Matches → ℕ → MatchRecord → Matches)
  (join : Option MatchRecord → MatchRecord → MatchRecord)

/-- A loop that puts one record for every reference changes the record of an entry at most once. -/
theorem find?_foldl_put
    (hput : ∀ records i record j, (put records i record).find? j =
      if j = i then some (join (records.find? j) record) else records.find? j)
    (record : KeyRef → MatchRecord) {refs : List KeyRef} (records : Matches) (j : ℕ)
    (hn : (refs.map KeyRef.entryIndex).Nodup) :
    (∀ ref ∈ refs, ref.entryIndex = j →
      (refs.foldl (fun records ref => put records ref.entryIndex (record ref)) records).find? j =
        some (join (records.find? j) (record ref))) ∧
    ((∀ ref ∈ refs, ref.entryIndex ≠ j) →
      (refs.foldl (fun records ref => put records ref.entryIndex (record ref)) records).find? j =
        records.find? j) := by
  induction refs generalizing records with
  | nil => simp
  | cons first refs ih =>
    rw [map_cons, nodup_cons] at hn
    have hrest := ih (put records first.entryIndex (record first)) hn.2
    rw [hput] at hrest
    by_cases hfirst : j = first.entryIndex
    · -- no later reference is to this entry
      have hlater : ∀ ref ∈ refs, ref.entryIndex ≠ j := by
        intro ref hr he
        exact hn.1 (mem_map.mpr ⟨ref, hr, he.trans hfirst⟩)
      refine ⟨fun ref hr he => ?_, fun h => absurd hfirst.symm (h first mem_cons_self)⟩
      rcases mem_cons.mp hr with rfl | hr
      · rw [foldl_cons, hrest.2 hlater, if_pos hfirst]
      · exact absurd he (hlater ref hr)
    · rw [if_neg hfirst] at hrest
      refine ⟨fun ref hr he => hrest.1 ref ?_ he,
        fun h => hrest.2 (forall_mem_cons.mp h).2⟩
      exact (mem_cons.mp hr).resolve_left (fun hfirst' => hfirst (hfirst' ▸ he.symm))

end Fold

def joinFirst (old : Option MatchRecord) (record : MatchRecord) : MatchRecord := old.getD record

def joinBetter (old : Option MatchRecord) (record : MatchRecord) : MatchRecord :=
  match old with
  | none => record
  | some old => if matchTier record.kind > matchTier old.kind then record else old

theorem find?_emplace (records : Matches) (i : ℕ) (record : MatchRecord) (j : ℕ) :
    (emplace records i record).find? j =
      if j = i then some (joinFirst (records.find? j) record) else records.find? j := by
  rw [emplace]
  cases hold : records.find? i <;> by_cases hj : j = i <;>
    simp_all [joinFirst, SortedMap.find?_insert]

theorem find?_emplaceBetter (records : Matches) (i : ℕ) (record : MatchRecord) (j : ℕ) :
    (emplaceBetter records i record).find? j =
      if j = i then some (joinBetter (records.find? j) record) else records.find? j := by
  rw [emplaceBetter]
  cases hold : records.find? i with
  | none => by_cases hj : j = i <;> simp_all [joinBetter, SortedMap.find?_insert]
  | some old =>
    dsimp only
    by_cases hj : j = i <;> split_ifs <;> simp_all [joinBetter, SortedMap.find?_insert]

theorem IndexedEntry.Valid.fullPinyin_letters (h : e.Valid) (b : UInt8) (hb : b ∈ e.fullPinyin) :
    isLowerByte b = true := by
  rw [h.full] at hb
  obtain ⟨s, hs, hb⟩ := mem_flatten.mp hb
  exact (h.syllable s hs).2 b hb

theorem IndexedEntry.Valid.initials_letters (h : e.Valid) (b : UInt8) (hb : b ∈ e.initials) :
    isLowerByte b = true := by
  rw [h.initials] at hb
  obtain ⟨s, hs, hb⟩ := mem_filterMap.mp hb
  exact (h.syllable s hs).2 b (mem_of_mem_head? hb)

theorem IndexedEntry.Valid.fullPinyin_ne (h : e.Valid) : e.fullPinyin ≠ [] := by
  intro hnil
  rw [h.full, flatten_eq_nil_iff] at hnil
  obtain ⟨s, hs⟩ := exists_mem_of_ne_nil _ h.syllables_ne
  exact (h.syllable s hs).1 (hnil s hs)

def firstAlias (aliases : List Bytes) (fullPinyin : Bytes) : Option Bytes :=
  aliases.find? (fun a => a.isPrefixOf fullPinyin)

theorem firstAlias_cons_pos (a : Bytes) (as : List Bytes) (fullPinyin : Bytes)
    (h : a <+: fullPinyin) : firstAlias (a :: as) fullPinyin = some a := by
  rw [firstAlias, find?_cons, isPrefixOf_iff_prefix.mpr h]

theorem firstAlias_cons_neg {a : Bytes} (as : List Bytes) {fullPinyin : Bytes}
    (h : ¬a <+: fullPinyin) : firstAlias (a :: as) fullPinyin = firstAlias as fullPinyin := by
  have hfalse : a.isPrefixOf fullPinyin = false :=
    Bool.eq_false_iff.mpr (fun hp => h ( isPrefixOf_iff_prefix.mp hp))
  rw [firstAlias, find?_cons, hfalse]
  rfl

section Loops
variable {entries} (hentries : ∀ e ∈ entries, e.Valid) {j : ℕ} (he : entries[j]? = some e)
include hentries

theorem mem_prefixRange (hkey : ∀ e : IndexedEntry, e.Valid → ∀ b ∈ key e, isLowerByte b = true)
    (start : Bytes) (ref : KeyRef) :
    ref ∈ prefixRange (keyRefs entries exactCodeOnly key) start ↔
      ref ∈ keyRefs entries exactCodeOnly key ∧ start <+: ref.key := by
  have hletters : ∀ r ∈ keyRefs entries exactCodeOnly key, ∀ b ∈ r.key, b < 0x7B := by
    intro r hr b hb
    obtain ⟨e, hget, -, hk⟩ := (mem_keyRefs ..).mp hr
    rw [hk] at hb
    exact isLowerByte_lt_brace (hkey e (hentries e (mem_of_getElem? hget)) b hb)
  rw [prefixRange, KeyRange.range_prefix KeyRef.key start (keyRefs_sorted ..) hletters,
    mem_filter, isPrefixOf_iff_prefix]

include he

omit hentries in
theorem find?_loop (put : Matches → ℕ → MatchRecord → Matches)
    (join : Option MatchRecord → MatchRecord → MatchRecord)
    (hput : ∀ records i record j, (put records i record).find? j =
      if j = i then some (join (records.find? j) record) else records.find? j)
    {exactCodeOnly : Bool} (key : IndexedEntry → Bytes) (C : Bytes → Prop) [DecidablePred C]
    {refs : List KeyRef} (hsub : refs.Sublist (keyRefs entries exactCodeOnly key))
    (hrefs : ∀ ref, ref ∈ refs ↔ ref ∈ keyRefs entries exactCodeOnly key ∧ C ref.key)
    (record : KeyRef → MatchRecord) (records : Matches) :
    (refs.foldl (fun records ref => put records ref.entryIndex (record ref)) records).find? j =
      if e.entry.privateExactCodeOnly = exactCodeOnly ∧ C (key e) then
        some (join (records.find? j) (record ⟨key e, j⟩))
      else records.find? j := by
  have hfold := find?_foldl_put put join hput record records j
    ((keyRefs_nodup entries exactCodeOnly key).sublist (hsub.map _))
  split_ifs with hC
  · refine hfold.1 ⟨key e, j⟩ ((hrefs _).mpr ⟨?_, hC.2⟩) rfl
    exact (mem_keyRefs ..).mpr ⟨e, he, hC.1, rfl⟩
  · refine hfold.2 (fun ref hr hj => hC ?_)
    obtain ⟨hmem, hkey⟩ := (hrefs ref).mp hr
    obtain ⟨e', he', hcode, hk⟩ := (mem_keyRefs ..).mp hmem
    rw [hj, he] at he'
    cases he'
    exact ⟨hcode, hk ▸ hkey⟩

/-- One alias: an entry whose full pinyin begins with it gets a record, or keeps a better one. -/
theorem find?_matchAlias (records : Matches) (a : Bytes) (n : ℕ) :
    (matchAlias (keyRefs entries false IndexedEntry.fullPinyin) query records (a, n)).find? j =
      if e.entry.privateExactCodeOnly = false ∧ a <+: e.fullPinyin then
        some (joinBetter (records.find? j)
          ⟨if n = 0 ∧ e.fullPinyin = query then .exactFull else .fullPrefix, a⟩)
      else records.find? j :=
  find?_loop he emplaceBetter joinBetter find?_emplaceBetter IndexedEntry.fullPinyin
    (a <+: ·)
    (KeyRange.range_sublist ..)
    (mem_prefixRange false _ hentries (fun _ h => h.fullPinyin_letters) a)
    (fun ref => ⟨if n = 0 ∧ ref.key = query then .exactFull else .fullPrefix, a⟩) records

theorem find?_later_aliases (as : List Bytes) (n : ℕ) (hn : n ≠ 0) (records : Matches)
    (hcode : e.entry.privateExactCodeOnly = false)
    (htier : ∀ record, records.find? j = some record → 1 ≤ matchTier record.kind) :
    ((as.zipIdx n).foldl (matchAlias (keyRefs entries false IndexedEntry.fullPinyin) query)
        records).find? j =
      (records.find? j).or ((firstAlias as e.fullPinyin).map (⟨.fullPrefix, ·⟩)) := by
  induction as generalizing n records with
  | nil => simp [firstAlias]
  | cons a as ih =>
    have hstep := find?_matchAlias query hentries he records a n
    rw [zipIdx_cons, foldl_cons]
    by_cases ha : a <+: e.fullPinyin
    · -- the record for the alias, or a better one that is there already
      have hrecord : (matchAlias (keyRefs entries false IndexedEntry.fullPinyin) query records
          (a, n)).find? j = some ((records.find? j).getD ⟨.fullPrefix, a⟩) := by
        rw [hstep, if_pos ⟨hcode, ha⟩, if_neg (fun h => hn h.1)]
        cases hold : records.find? j with
        | none => rfl
        | some old => exact congrArg some (if_neg (not_lt.mpr (htier old hold)))
      rw [ih (n+1) (Nat.succ_ne_zero n), hrecord, firstAlias_cons_pos a as _ ha]
      · cases records.find? j <;> rfl
      · intro record h
        rw [hrecord] at h
        cases hold : records.find? j with
        | none =>
          rw [hold] at h
          cases h
          exact le_refl 1
        | some old =>
          rw [hold] at h
          cases h
          exact htier old hold
    · rw [if_neg (fun h => ha h.2)] at hstep
      rw [firstAlias_cons_neg as ha,
        ih (n+1) (Nat.succ_ne_zero n) _ (fun record h => htier record (hstep ▸ h)), hstep]

end Loops

/-- The record a query leaves for an entry: an exact match first, then the first alias its full
pinyin begins with, then the initials. -/
def recordOf (aliases : List Bytes) (query : Bytes) (e : IndexedEntry) : Option MatchRecord :=
  if e.fullPinyin = query then some ⟨.exactFull, query⟩
  else if e.entry.privateExactCodeOnly then none
  else
    match firstAlias aliases e.fullPinyin with
    | some a => some ⟨.fullPrefix, a⟩
    | none => if 2 ≤ query.length ∧ query <+: e.initials then some ⟨.initials, query⟩ else none

theorem head?_addAlias (limit : ℕ) (aliases : List Bytes) (word literal : Bytes)
    (h : aliases.head? = some literal) : (addAlias limit aliases word).head? = some literal := by
  rw [addAlias]
  split_ifs
  · exact h
  · rw [head?_append, h]
    rfl

theorem foldl_invariant {σ τ : Type} (P : σ → Prop) (f : σ → τ → σ) (hf : ∀ s t, P s → P (f s t))
    {ts : List τ} (s : σ) (h : P s) : P (ts.foldl f s) := by
  induction ts generalizing s with
  | nil => exact h
  | cons t ts ih => exact ih (f s t) (hf s t h)

theorem expandFuzzyAliases_head (input : Bytes) (config : FuzzyConfig)
    (h : normalizePinyin input ≠ []) :
    (expandFuzzyAliases input config).head? = some (normalizePinyin input) := by
  rw [expandFuzzyAliases, expandFuzzyAliasesWith, if_neg h]
  dsimp only
  split_ifs
  · rfl
  · refine foldl_invariant (fun aliases : List Bytes => aliases.head? = some (normalizePinyin input)) _
      (fun aliases path ha => ?_) _ rfl
    exact foldl_invariant (fun aliases : List Bytes => aliases.head? = some (normalizePinyin input)) _
      (fun aliases word => head?_addAlias _ aliases word _) _ ha

/-- With fuzzy matching off the expansion is the literal input, so a query always looks up the
aliases of `ExpandFuzzyAliases`. -/
theorem PhraseIndex.aliases_eq (h : normalizePinyin input ≠ []) :
    ix.aliases input = expandFuzzyAliases input ix.fuzzyConfig := by
  rw [aliases]
  by_cases hon : ix.fuzzyConfig.enabled = true
  · rw [if_pos hon]
  · rw [if_neg hon, expandFuzzyAliases, expandFuzzyAliasesWith, if_neg h]
    exact (if_pos (.inr (.inl hon))).symm

theorem PhraseIndex.aliases_cons (h : normalizePinyin input ≠ []) :
    ∃ rest, ix.aliases input = normalizePinyin input :: rest := by
  have hhead := expandFuzzyAliases_head input ix.fuzzyConfig h
  rw [← ix.aliases_eq input h] at hhead
  exact head?_eq_some_iff.mp hhead

variable {j : ℕ}

theorem PhraseIndex.find?_alias_loop (hv : ix.Valid) {input : Bytes}
    (hq : normalizePinyin input ≠ []) (he : ix.entries[j]? = some e) :
    ((ix.aliases input).zipIdx.foldl (matchAlias ix.fullIndex (normalizePinyin input)) ∅).find? j =
      if e.entry.privateExactCodeOnly then none
      else if e.fullPinyin = normalizePinyin input then some ⟨.exactFull, normalizePinyin input⟩
      else (firstAlias (ix.aliases input) e.fullPinyin).map (⟨.fullPrefix, ·⟩) := by
  obtain ⟨rest, hrest⟩ := ix.aliases_cons input hq
  set query := normalizePinyin input
  rw [hv.fullIndex, hrest]
  cases hcode : e.entry.privateExactCodeOnly with
  | true =>
    refine foldl_invariant (fun records : Matches => records.find? j = none) _ ?_ _ rfl
    rintro records ⟨a, n⟩ hnone
    rw [find?_matchAlias query hv.entry he records a n, hcode, hnone]
    rfl
  | false =>
    -- the literal alias first, by the way the full pinyin stands to it
    have hfirst := find?_matchAlias query hv.entry he ∅ query 0
    have hlater (record : Option MatchRecord)
        (hrecord : (matchAlias (keyRefs ix.entries false IndexedEntry.fullPinyin) query ∅
          (query, 0)).find? j = record) (htier : ∀ r ∈ record, 1 ≤ matchTier r.kind) :=
      (find?_later_aliases query hv.entry he rest 1 Nat.one_ne_zero _ hcode
        (fun r hr => htier r (hrecord ▸ hr))).trans (congrArg (Option.or · _) hrecord)
    rw [zipIdx_cons, foldl_cons, if_neg Bool.false_ne_true]
    by_cases hexact : e.fullPinyin = query
    · rw [if_pos ⟨hcode, hexact ▸ prefix_refl _⟩, if_pos ⟨rfl, hexact⟩] at hfirst
      rw [if_pos hexact]
      exact hlater _ hfirst (fun r hr => by cases hr; exact one_le_two)
    rw [if_neg hexact]
    by_cases hstart : query <+: e.fullPinyin
    · rw [if_pos ⟨hcode, hstart⟩, if_neg (fun h => hexact h.2)] at hfirst
      rw [firstAlias_cons_pos query rest _ hstart]
      exact hlater _ hfirst (fun r hr => by cases hr; exact le_refl 1)
    · rw [if_neg (fun h => hstart h.2)] at hfirst
      rw [firstAlias_cons_neg rest hstart]
      exact hlater none hfirst (fun r hr => by cases hr)

theorem mem_exactRange (ref : KeyRef) : ref ∈ (KeyRange.lowerBound KeyRef.key query
        (keyRefs entries true IndexedEntry.fullPinyin)).takeWhile (fun r => r.key = query) ↔
      ref ∈ keyRefs entries true IndexedEntry.fullPinyin ∧ ref.key = query := by
  rw [KeyRange.equal_eq KeyRef.key query _ (keyRefs_sorted ..) _ (fun _ => decide_eq_true_iff),
    mem_filter, decide_eq_true_eq]

theorem find?_matchExactCodes {entries : List IndexedEntry} (he : entries[j]? = some e)
    (query : Bytes) (records : Matches) :
    (matchExactCodes (keyRefs entries true IndexedEntry.fullPinyin) query records).find? j =
      if e.entry.privateExactCodeOnly = true ∧ e.fullPinyin = query then
        some (joinFirst (records.find? j) ⟨.exactFull, query⟩)
      else records.find? j :=
  find?_loop he emplace joinFirst find?_emplace IndexedEntry.fullPinyin (· = query)
    ((takeWhile_sublist _).trans (dropWhile_sublist _)) (mem_exactRange entries query)
    (fun _ => ⟨.exactFull, query⟩) records

theorem find?_matchInitials {entries : List IndexedEntry} (hentries : ∀ e ∈ entries, e.Valid)
    (he : entries[j]? = some e) (query : Bytes) (records : Matches) :
    (matchInitials (keyRefs entries false IndexedEntry.initials) query records).find? j =
      if e.entry.privateExactCodeOnly = false ∧ 2 ≤ query.length ∧ query <+: e.initials then
        some (joinFirst (records.find? j) ⟨.initials, query⟩)
      else records.find? j := by
  rw [matchInitials]
  by_cases hlength : query.length ≥ 2
  · rw [if_pos hlength, @find?_loop _ _ _ he emplace joinFirst find?_emplace false
      IndexedEntry.initials (query <+: ·) _
      (prefixRange (keyRefs entries false IndexedEntry.initials) query) (KeyRange.range_sublist ..)
      (mem_prefixRange false _ hentries (fun _ h => h.initials_letters) query)
      (fun _ => ⟨.initials, query⟩) records]
    simp [hlength]
  · rw [if_neg hlength, if_neg (fun h => hlength h.2.1)]

theorem PhraseIndex.find?_records (ix : PhraseIndex) (hv : ix.Valid) {input : Bytes}
    (hq : normalizePinyin input ≠ []) (he : ix.entries[j]? = some e) :
    (ix.records input).find? j = recordOf (ix.aliases input) (normalizePinyin input) e := by
  rw [records, hv.privateExactCodeIndex, hv.initialsIndex, find?_matchInitials hv.entry he,
    find?_matchExactCodes he, ix.find?_alias_loop hv hq he, recordOf]
  -- the index of whole codes and the other two have no entry in common
  cases e.entry.privateExactCodeOnly with
  | true => by_cases hfull : e.fullPinyin = normalizePinyin input <;> simp [hfull, joinFirst]
  | false =>
    by_cases hfull : e.fullPinyin = normalizePinyin input
    · simp [hfull, joinFirst]
    · cases firstAlias (ix.aliases input) e.fullPinyin <;> simp [hfull, joinFirst]

def PhraseEntry.pinnedPersonal (entry : PhraseEntry) : Prop :=
  entry.pinned = true ∧ isPersonalOrigin entry.origin = true

def PhraseEntry.guarded (entry : PhraseEntry) : Prop :=
  (entry.pinnedPersonal ∧ kLongPhraseMinSyllables ≤ entry.syllables.length) ∨
    (¬entry.pinnedPersonal ∧ 3 ≤ entry.syllables.length)

def PhraseEntry.open (entry : PhraseEntry) (tombstoned : Bool) (query : Bytes) : Prop :=
  tombstoned = false ∧
    (entry.learned = true → entry.pinned = false → 2 ≤ entry.useCount) ∧
    (isPersonalOrigin entry.origin = true → 2 ≤ entry.syllables.length → 2 ≤ query.length)

def PhraseEntry.passes (entry : PhraseEntry) (query : Bytes) (record : MatchRecord) : Prop :=
  match record.kind with
  | .exactFull => True
  | .fullPrefix =>
    entry.guarded → 2 ≤ completeSyllablePrefixCount entry.syllables record.aliasText
  | .initials =>
    (3 ≤ entry.syllables.length → entry.pinnedPersonal) ∧
      (kLongPhraseMinSyllables ≤ entry.syllables.length → 4 ≤ query.length)

theorem recallable_iff (entry : PhraseEntry) (record : MatchRecord) :
    recallable query tombstoned entry record = true ↔
      entry.open tombstoned query ∧ entry.passes query record := by
  obtain ⟨kind, spelling⟩ := record
  have hlong : kLongPhraseMinSyllables = 4 := rfl
  simp only [recallable, PhraseEntry.open, PhraseEntry.passes, PhraseEntry.guarded,
    PhraseEntry.pinnedPersonal, hlong]
  cases kind <;> grind

def rankKey (c : Candidate) : ℤ ×ₗ ℤ ×ₗ ℤ ×ₗ ℤ ×ₗ ℤ ×ₗ ℤ ×ₗ Bytes ×ₗ Bytes ×ₗ Bytes :=
  toLex (if c.kind = .exactFull then 0 else 1, toLex (-(originTier c : ℤ),
    toLex (-(matchTier c.kind : ℤ), toLex (-c.correctionScore, toLex (-(c.useCount : ℤ),
      toLex (-c.staticWeight, toLex (c.fullPinyin, toLex (c.text, c.id))))))))

theorem toLex_lt_iff_ite {κ τ : Type*} [LinearOrder κ] [LinearOrder τ] (a b : κ) (x y : τ) :
    toLex (a, x) < toLex (b, y) ↔ if a ≠ b then a < b else x < y := by
  rw [Prod.Lex.toLex_lt_toLex]
  by_cases hab : a = b <;> simp [hab]

theorem ranksBefore_iff {left right : Candidate} :
    ranksBefore left right = true ↔ rankKey left < rankKey right := by
  simp only [rankKey, toLex_lt_iff_ite, neg_lt_neg_iff, ne_eq, neg_inj, Nat.cast_inj, Nat.cast_lt]
  rw [ranksBefore]
  -- the first test: the keys 0 and 1 differ when exactly one of the two is an exact match
  by_cases hleft : left.kind = .exactFull
  · by_cases hright : right.kind = .exactFull
    · simp [hleft, hright]
      congr!
    · simp [hleft, hright, Ne.symm hright]
  · by_cases hright : right.kind = .exactFull
    · simp [hleft, hright]
    · simp [hleft, hright]
      congr!

theorem PhraseIndex.candidate_eq_some (c : RankedCandidate) :
    ix.candidate query (i, record) = some c ↔ ∃ e, ix.entries[i]? = some e ∧
      recallable query (ix.tombstones.getD i false) e.entry record = true ∧
      c = ix.toCandidate i e record := by
  rw [candidate]
  cases ix.entries[i]? with
  | none => simp
  | some e =>
    dsimp only
    split_ifs with hr <;> simp only [Option.some_inj] <;> grind

theorem PhraseIndex.mem_ranked (hv : ix.Valid) (input : Bytes) (c : RankedCandidate) :
    c ∈ ix.ranked input ↔ normalizePinyin input ≠ [] ∧ ∃ i e record, ix.entries[i]? = some e ∧
      recordOf (ix.aliases input) (normalizePinyin input) e = some record ∧
      e.entry.open (ix.tombstones.getD i false) (normalizePinyin input) ∧
      e.entry.passes (normalizePinyin input) record ∧ c = ix.toCandidate i e record := by
  rw [ranked]
  by_cases hq : normalizePinyin input = []
  · rw [if_pos hq]
    simp [hq]
  rw [if_neg hq, mem_insertionSort, mem_filterMap]
  refine ⟨?_, ?_⟩
  · rintro ⟨⟨i, record⟩, hmem, hc⟩
    obtain ⟨e, he, hr, rfl⟩ := (ix.candidate_eq_some _ i record c).mp hc
    have hfind := (SortedMap.find?_eq_some_iff ..).mpr hmem
    rw [ix.find?_records hv hq he] at hfind
    obtain ⟨hopen, hpasses⟩ := (recallable_iff ..).mp hr
    exact ⟨hq, i, e, record, he, hfind, hopen, hpasses, rfl⟩
  · rintro ⟨-, i, e, record, he, hrecord, hopen, hpasses, rfl⟩
    refine ⟨(i, record), (SortedMap.find?_eq_some_iff ..).mp ?_, ?_⟩
    · rw [ix.find?_records hv hq he, hrecord]
    · exact (ix.candidate_eq_some ..).mpr ⟨e, he, (recallable_iff ..).mpr ⟨hopen, hpasses⟩, rfl⟩

theorem sort_pairwise {cs : List RankedCandidate} :
    (cs.insertionSort (fun left right =>
      ¬ranksBefore right.toCandidate left.toCandidate)).Pairwise
        (fun a b => rankKey a.toCandidate ≤ rankKey b.toCandidate) := by
  have hiff (a b : RankedCandidate) : (¬ranksBefore b.toCandidate a.toCandidate = true) ↔
      rankKey a.toCandidate ≤ rankKey b.toCandidate := by
    rw [ranksBefore_iff, not_lt]
  have : Std.Total (fun a b : RankedCandidate =>
      ¬ranksBefore b.toCandidate a.toCandidate = true) := ⟨fun a b => by
    rw [hiff, hiff]
    exact le_total _ _⟩
  have : IsTrans RankedCandidate (fun a b : RankedCandidate =>
      ¬ranksBefore b.toCandidate a.toCandidate = true) := ⟨fun a b c => by
    rw [hiff, hiff, hiff]
    exact le_trans⟩
  exact (pairwise_insertionSort _ _).imp (fun {a b} h => (hiff a b).mp h)

theorem PhraseIndex.ranked_pairwise :
    (ix.ranked input).Pairwise (fun a b => rankKey a.toCandidate ≤ rankKey b.toCandidate) := by
  rw [ranked]
  split_ifs
  · exact List.Pairwise.nil
  · exact sort_pairwise

theorem PhraseIndex.Valid.eq_of_id {ix : PhraseIndex} (hv : ix.Valid) {i : ℕ} {e' : IndexedEntry}
    (he : ix.entries[i]? = some e) (he' : ix.entries[j]? = some e')
    (hid : e.entry.id = e'.entry.id) : i = j := by
  have hget (k : ℕ) (x : IndexedEntry) (hx : ix.entries[k]? = some x) :
      (ix.entries.map (fun e => e.entry.id))[k]? = some x.entry.id := by
    rw [getElem?_map, hx]
    rfl
  refine (getElem?_inj ?_ hv.ids).mp ?_
  · rw [length_map]
    exact (List.getElem?_eq_some_iff.mp he).1
  · rw [hget i e he, hget j e' he', hid]

theorem PhraseIndex.ranked_eq_of_id (hv : ix.Valid) {input : Bytes} {a b : RankedCandidate}
    (ha : a ∈ ix.ranked input) (hb : b ∈ ix.ranked input) (hid : a.id = b.id) : a = b := by
  obtain ⟨-, i, e, record, he, hrecord, -, -, rfl⟩ := (ix.mem_ranked hv input a).mp ha
  obtain ⟨-, j, e', record', he', hrecord', -, -, rfl⟩ := (ix.mem_ranked hv input b).mp hb
  have hij : i = j := hv.eq_of_id he he' hid
  subst hij
  rw [Option.some_inj.mp (he'.symm.trans he)] at hrecord' ⊢
  rw [Option.some_inj.mp (hrecord'.symm.trans hrecord)]

theorem id_of_rankKey {a b : Candidate} (h : rankKey a = rankKey b) : a.id = b.id := by
  simp only [rankKey, toLex_inj, Prod.mk.injEq] at h
  exact h.2.2.2.2.2.2.2.2

theorem PhraseIndex.ranked_order (hv : ix.Valid) {input : Bytes} (hq : normalizePinyin input ≠ [])
    {order : List (ℕ × MatchRecord)} (hperm : order.Perm (ix.records input).entries) :
    (order.filterMap (ix.candidate (normalizePinyin input))).insertionSort
      (fun left right => ¬ranksBefore right.toCandidate left.toCandidate) = ix.ranked input := by
  have hsorted : ((order.filterMap (ix.candidate (normalizePinyin input))).insertionSort
      (fun left right => ¬ranksBefore right.toCandidate left.toCandidate)).Perm
        (ix.ranked input) := by
    rw [ranked, if_neg hq]
    exact (perm_insertionSort _ _).trans
      ((hperm.filterMap _).trans (perm_insertionSort _ _).symm)
  refine hsorted.eq_of_pairwise (fun a b ha hb hab hba => ?_) sort_pairwise
    (ix.ranked_pairwise input)
  -- equal keys have equal ids, and an id belongs to one entry with one record
  exact ix.ranked_eq_of_id hv (hsorted.subset ha) hb (id_of_rankKey (le_antisymm hab hba))

theorem PhraseIndex.ranked_nodup : ((ix.ranked input).map RankedCandidate.entryIndex).Nodup := by
  rw [ranked]
  split_ifs
  · exact nodup_nil
  rw [(List.Perm.map _ (perm_insertionSort _ _)).nodup_iff]
  have hkeys := (ix.records input).sorted
  generalize (ix.records input).entries = records at hkeys
  induction records with
  | nil => exact nodup_nil
  | cons m records ih =>
    obtain ⟨i, record⟩ := m
    rw [map_cons, pairwise_cons] at hkeys
    cases hc : ix.candidate (normalizePinyin input) (i, record) with
    | none =>
      rw [filterMap_cons_none hc]
      exact ih hkeys.2
    | some c =>
      rw [filterMap_cons_some hc, map_cons, nodup_cons]
      refine ⟨fun hmem => ?_, ih hkeys.2⟩
      -- a later candidate has a larger index
      obtain ⟨c', hc', heq⟩ := mem_map.mp hmem
      obtain ⟨⟨i', record'⟩, hlater, hsome⟩ := mem_filterMap.mp hc'
      obtain ⟨e, -, -, rfl⟩ := (ix.candidate_eq_some ..).mp hc
      obtain ⟨e', -, -, rfl⟩ := (ix.candidate_eq_some ..).mp hsome
      have hlt := hkeys.1 i' (mem_map.mpr ⟨(i', record'), hlater, rfl⟩)
      exact absurd heq (ne_of_gt hlt)

/-- Some alias is a start of the full pinyin, and covers two syllables of a guarded phrase unless
the input is its whole spelling. -/
def IndexedEntry.ByPinyin (e : IndexedEntry) (aliases : List Bytes) (query : Bytes) : Prop :=
  ∃ a ∈ aliases, a <+: e.fullPinyin ∧
    (e.entry.guarded → e.fullPinyin ≠ query →
      2 ≤ completeSyllablePrefixCount e.entry.syllables a)

def IndexedEntry.ByInitials (e : IndexedEntry) (query : Bytes) : Prop :=
  2 ≤ query.length ∧ query <+: e.initials ∧
    (3 ≤ e.entry.syllables.length → e.entry.pinnedPersonal) ∧
    (4 ≤ e.entry.syllables.length → 4 ≤ query.length)

/-- The recall rule of an entry, as a condition on the entry, the input and its aliases. -/
def IndexedEntry.Recalled (e : IndexedEntry) (tombstoned : Bool) (aliases : List Bytes)
    (query : Bytes) : Prop :=
  e.entry.open tombstoned query ∧
    if e.entry.privateExactCodeOnly then e.fullPinyin = query
    else e.ByPinyin aliases query ∨ e.ByInitials query

theorem recordOf_cases (h : recordOf aliases query e = some record) :
    (e.fullPinyin = query ∧ record = ⟨.exactFull, query⟩) ∨
    (e.fullPinyin ≠ query ∧ e.entry.privateExactCodeOnly = false ∧
      ((∃ a ∈ aliases, a <+: e.fullPinyin ∧ record = ⟨.fullPrefix, a⟩) ∨
        ((2 ≤ query.length ∧ query <+: e.initials) ∧ record = ⟨.initials, query⟩))) := by
  rw [recordOf] at h
  by_cases hfull : e.fullPinyin = query
  · rw [if_pos hfull] at h
    exact .inl ⟨hfull, (Option.some_inj.mp h).symm⟩
  rw [if_neg hfull] at h
  cases hcode : e.entry.privateExactCodeOnly with
  | true => simp [hcode] at h
  | false =>
    rw [hcode, if_neg Bool.false_ne_true] at h
    refine .inr ⟨hfull, rfl, ?_⟩
    split at h
    · rename_i a hfirst
      have hstart := find?_some hfirst
      exact .inl ⟨a, mem_of_find?_eq_some hfirst, isPrefixOf_iff_prefix.mp hstart,
        (Option.some_inj.mp h).symm⟩
    · split_ifs at h with hinit
      exact .inr ⟨hinit, (Option.some_inj.mp h).symm⟩

theorem recordOf_exact_iff {query : Bytes} {record : MatchRecord}
    (h : recordOf aliases query e = some record) :
    record.kind = .exactFull ↔ e.fullPinyin = query := by
  rcases recordOf_cases query record h with ⟨hfull, rfl⟩ | ⟨hfull, -, ⟨a, -, -, rfl⟩ | ⟨-, rfl⟩⟩
  all_goals simp [hfull]

theorem firstAlias_eq_none {fullPinyin : Bytes} (h : firstAlias aliases fullPinyin = none)
    {a : Bytes} (ha : a ∈ aliases) : ¬a <+: fullPinyin := fun hp =>
  find?_eq_none.mp h a ha ( isPrefixOf_iff_prefix.mpr hp)

theorem recalled_of_record {query : Bytes} (hquery : query ∈ aliases) {record : MatchRecord}
    (h : recordOf aliases query e = some record) (hopen : e.entry.open tombstoned query)
    (hpasses : e.entry.passes query record) : e.Recalled tombstoned aliases query := by
  refine ⟨hopen, ?_⟩
  rcases recordOf_cases query record h with
    ⟨hfull, -⟩ | ⟨-, hcode, ⟨a, hmem, hstart, rfl⟩ | ⟨hinit, rfl⟩⟩
  · split_ifs
    · exact hfull
    · exact .inl ⟨query, hquery, hfull ▸ prefix_refl _, fun _ hne => absurd hfull hne⟩
  · rw [hcode]
    exact .inl ⟨a, hmem, hstart, fun hg _ => hpasses hg⟩
  · rw [hcode]
    exact .inr ⟨hinit.1, hinit.2, hpasses⟩

/-- With the literal input as the only alias, an entry of the rule has a record that passes,
unless it is a long pinned phrase. -/
theorem record_of_recalled {query : Bytes} (h : e.Recalled tombstoned [query] query)
    (hshort : ¬(e.entry.pinnedPersonal ∧ kLongPhraseMinSyllables ≤ e.entry.syllables.length)) :
    ∃ record, recordOf [query] query e = some record ∧ e.entry.passes query record := by
  obtain ⟨-, hrule⟩ := h
  rw [recordOf]
  by_cases hfull : e.fullPinyin = query
  · rw [if_pos hfull]
    exact ⟨_, rfl, trivial⟩
  cases hcode : e.entry.privateExactCodeOnly with
  | true =>
    rw [hcode, if_pos rfl] at hrule
    exact absurd hrule hfull
  | false =>
    rw [hcode, if_neg Bool.false_ne_true] at hrule
    rw [if_neg hfull, if_neg Bool.false_ne_true]
    by_cases hstart : query <+: e.fullPinyin
    · rw [firstAlias_cons_pos query [] _ hstart]
      refine ⟨_, rfl, fun hguarded => ?_⟩
      rcases hrule with ⟨a, ha, -, hcover⟩ | ⟨-, -, hpinned, -⟩
      · rw [← mem_singleton.mp ha]
        exact hcover hguarded hfull
      · -- recalled by its initials, so neither of the guarded kinds
        rcases hguarded with hlong | ⟨hnot, hthree⟩
        · exact absurd hlong hshort
        · exact absurd (hpinned hthree) hnot
    · rw [firstAlias_cons_neg [] hstart]
      rcases hrule with ⟨a, ha, hprefix, -⟩ | ⟨htwo, hinit, hgate⟩
      · rw [mem_singleton.mp ha] at hprefix
        exact absurd hprefix hstart
      · exact ⟨⟨.initials, query⟩, if_pos ⟨htwo, hinit⟩, hgate⟩

theorem PhraseIndex.exact_first (hv : ix.Valid) (input : Bytes) :
    (ix.ranked input).Pairwise (fun a b =>
      b.fullPinyin = normalizePinyin input → a.fullPinyin = normalizePinyin input) := by
  have hexact (c : RankedCandidate) (hc : c ∈ ix.ranked input) :
      c.kind = .exactFull ↔ c.fullPinyin = normalizePinyin input := by
    obtain ⟨-, i, e, record, -, hrecord, -, -, rfl⟩ := (ix.mem_ranked hv input c).mp hc
    exact recordOf_exact_iff hrecord
  refine (ix.ranked_pairwise input).imp_of_mem (fun {a b} ha hb hle hfull => ?_)
  rw [← hexact a ha]
  rw [← hexact b hb] at hfull
  by_contra hkind
  refine absurd hle (not_le.mpr ?_)
  refine Prod.Lex.toLex_lt_toLex.mpr (.inl ?_)
  rw [if_pos hfull, if_neg hkind]
  exact zero_lt_one

/-- Every ranked entry satisfies the recall rule; with fuzzy matching off every entry of the rule
that is not a long pinned phrase is ranked; and exact matches come first. -/
theorem recall_gates (ix : PhraseIndex) (h : ix.Live) (input : Bytes) :
    (∀ c ∈ ix.ranked input, ∃ e, ix.entries[c.entryIndex]? = some e ∧ c.id = e.entry.id ∧
      e.Recalled (ix.tombstones.getD c.entryIndex false)
        (expandFuzzyAliases input ix.fuzzyConfig) (normalizePinyin input)) ∧
    (ix.fuzzyConfig.enabled = false → ∀ i e, ix.entries[i]? = some e →
      e.Recalled (ix.tombstones.getD i false) (expandFuzzyAliases input ix.fuzzyConfig)
        (normalizePinyin input) →
      ¬(e.entry.pinnedPersonal ∧ kLongPhraseMinSyllables ≤ e.entry.syllables.length) →
      ∃ c ∈ ix.ranked input, c.entryIndex = i ∧ c.id = e.entry.id) ∧
    (ix.ranked input).Pairwise (fun a b =>
      b.fullPinyin = normalizePinyin input → a.fullPinyin = normalizePinyin input) := by
  have hv := h.valid
  refine ⟨fun c hc => ?_, fun hoff i e he hrule hshort => ?_, ix.exact_first hv input⟩
  · obtain ⟨hq, i, e, record, he, hrecord, hopen, hpasses, rfl⟩ :=
      (ix.mem_ranked hv input c).mp hc
    refine ⟨e, he, rfl, ?_⟩
    rw [ix.aliases_eq input hq] at hrecord
    refine recalled_of_record _ ?_ hrecord hopen hpasses
    exact mem_of_mem_head? (expandFuzzyAliases_head input ix.fuzzyConfig hq)
  · have hq : normalizePinyin input ≠ [] := by
      -- without a query there is no alias, and no code is empty
      intro hnil
      have hcase := hrule.2
      rw [hnil, expandFuzzyAliases, expandFuzzyAliasesWith, if_pos hnil] at hcase
      have hne := (hv.entry e (mem_of_getElem? he)).fullPinyin_ne
      split_ifs at hcase
      · exact hne hcase
      · rcases hcase with ⟨a, ha, -⟩ | ⟨htwo, -⟩
        · exact not_mem_nil ha
        · exact absurd htwo (by decide)
    have haliases : ix.aliases input = [normalizePinyin input] := by
      rw [PhraseIndex.aliases, hoff, if_neg Bool.false_ne_true]
    rw [← ix.aliases_eq input hq, haliases] at hrule
    obtain ⟨record, hrecord, hpasses⟩ := record_of_recalled _ hrule hshort
    refine ⟨ix.toCandidate i e record, (ix.mem_ranked hv input _).mpr ?_, rfl, rfl⟩
    exact ⟨hq, i, e, record, he, haliases ▸ hrecord, hrule.1, hpasses, rfl⟩

def baseEntry (id text : String) (syllables : List Bytes) : PhraseEntry :=
  { id := lit id, text := lit text, syllables, origin := .base, useCount := 0, staticWeight := 0
    pinned := false, learned := false, privateExactCodeOnly := false, syncedLearning := false }

/-- The letters `xian` are two syllables of the first phrase and one of the second. -/
def xianEntries : List PhraseEntry :=
  [baseEntry "b1" "西安市" [lit "xi", lit "an", lit "shi"],
    baseEntry "b2" "现代化" [lit "xian", lit "dai", lit "hua"]]

theorem recall_gates_sample : ∃ ix, PhraseIndex.make xianEntries {} = .ok ix ∧
    (∃ c ∈ ix.ranked (lit "xian"), c.id = lit "b1") ∧
    ∀ c ∈ ix.ranked (lit "xian"), c.id ≠ lit "b2" := by
  refine ⟨_, rfl, ?_⟩
  obtain ⟨hrecalled, hranked, -⟩ := recall_gates _ (.make xianEntries {} _ rfl) (lit "xian")
  constructor
  · obtain ⟨c, hc, -, hid⟩ := hranked rfl 0 _ rfl ⟨⟨rfl, by decide, by decide⟩,
      Or.inl ⟨lit "xian", by decide, by decide, fun _ _ => by decide⟩⟩
      (fun hlong => absurd hlong.2 (by decide))
    exact ⟨c, hc, hid⟩
  · intro c hc hid
    obtain ⟨e, he, hce, -, hrule⟩ := hrecalled c hc
    rw [hce] at hid
    rcases mem_pair.mp (mem_of_getElem? he) with rfl | rfl
    · exact absurd hid (by decide)
    · rcases hrule with ⟨a, ha, -, hcover⟩ | ⟨-, hinitials, -⟩
      · obtain rfl := mem_singleton.mp ha
        exact absurd (hcover (.inr ⟨fun h => absurd h.1 (by decide), by decide⟩) (by decide))
          (by decide)
      · exact absurd hinitials (by decide)

end Engine
end YunPin
