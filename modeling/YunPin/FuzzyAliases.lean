import YunPin.Segmentation

/-! Fuzzy aliases: every spelling that the expansion adds is made of variants of the syllables of one
segmentation, and a variant swaps each enabled pair of initials or finals at most once. -/
namespace YunPin
open ByteText WordTiling List

namespace Engine

/-- A pair of initials, or of finals, that may stand for one another. -/
structure FuzzyPair where
  long : Bytes
  short : Bytes
  final : Bool

def FuzzyConfig.pairs (config : FuzzyConfig) : List FuzzyPair :=
  (if config.zhZ then [⟨lit "zh", lit "z", false⟩] else []) ++
    ((if config.chC then [⟨lit "ch", lit "c", false⟩] else []) ++
      ((if config.shS then [⟨lit "sh", lit "s", false⟩] else []) ++
        ((if config.nL then [⟨lit "n", lit "l", false⟩] else []) ++
          ((if config.enEng then [⟨lit "eng", lit "en", true⟩] else []) ++
            (if config.inIng then [⟨lit "ing", lit "in", true⟩] else [])))))

def FuzzyPair.Swaps (p : FuzzyPair) (v w : Bytes) : Prop :=
  ∃ stem, if p.final then (v = stem ++ p.long ∧ w = stem ++ p.short) ∨
      (v = stem ++ p.short ∧ w = stem ++ p.long)
    else (v = p.long ++ stem ∧ w = p.short ++ stem) ∨ (v = p.short ++ stem ∧ w = p.long ++ stem)

/-- Each pair of the list is applied at most once, in this order. -/
inductive Varies : List FuzzyPair → Bytes → Bytes → Prop where
  | nil (v : Bytes) : Varies [] v v
  | skip {p : FuzzyPair} {pairs : List FuzzyPair} {v w : Bytes} (h : Varies pairs v w) :
    Varies (p :: pairs) v w
  | swap {p : FuzzyPair} {pairs : List FuzzyPair} {v u w : Bytes} (hswap : p.Swaps v u)
    (h : Varies pairs u w) : Varies (p :: pairs) v w

def expandPair (limit : ℕ) (variants : List Bytes) (p : FuzzyPair) : List Bytes :=
  if p.final then expandFinalPair limit p.long p.short variants
  else expandInitialPair limit p.long p.short variants

theorem fuzzySyllableVariants_eq (syllable : Bytes) (config : FuzzyConfig) (limit : ℕ) :
    fuzzySyllableVariants syllable config limit =
      config.pairs.foldl (expandPair limit) [syllable] := by
  have hone (b : Bool) (p : FuzzyPair) (variants : List Bytes) :
      (if b then [p] else []).foldl (expandPair limit) variants =
        if b then expandPair limit variants p else variants := by
    cases b <;> rfl
  rw [fuzzySyllableVariants, FuzzyConfig.pairs]
  simp only [foldl_append, hone]
  rfl

variable {limit : ℕ} {w : Bytes} {variants : List Bytes} {config : FuzzyConfig}

theorem mem_appendValidVariant {candidate : Bytes}
    (h : w ∈ appendValidVariant limit candidate variants) :
    w ∈ variants ∨ (w = candidate ∧ isSyllable candidate = true) := by
  rw [appendValidVariant] at h
  split_ifs at h with hskip
  · exact .inl h
  · rw [mem_append, mem_singleton] at h
    exact h.imp_right (fun hw => ⟨hw, by tauto⟩)

theorem mem_builtIn_of_isSyllable (hlower : ∀ b ∈ w, isLowerByte b = true)
    (h : isSyllable w = true) : w ∈ builtInSyllables := by
  rw [isSyllable, normalizePinyin_lower w hlower, decide_eq_true_eq] at h
  exact h.2

theorem mem_foldl_append (limit : ℕ) (step : List Bytes → Bytes → List Bytes)
    (Tried : Bytes → Bytes → Prop) (hstep : ∀ acc v, step acc v = acc ∨
      ∃ c, Tried v c ∧ step acc v = appendValidVariant limit c acc) (values acc : List Bytes)
    (h : w ∈ values.foldl step acc) :
    w ∈ acc ∨ (isSyllable w = true ∧ ∃ v ∈ values, Tried v w) := by
  induction values generalizing acc with
  | nil => exact .inl h
  | cons v values ih =>
    rcases ih (step acc v) h with hacc | ⟨hsyllable, u, hu, htried⟩
    · rcases hstep acc v with hsame | ⟨c, htried, happend⟩
      · exact .inl (hsame ▸ hacc)
      · rw [happend] at hacc
        rcases mem_appendValidVariant hacc with hw | ⟨rfl, hsyllable⟩
        · exact .inl hw
        · exact .inr ⟨hsyllable, v, mem_cons_self, htried⟩
    · exact .inr ⟨hsyllable, u, mem_cons_of_mem v hu, htried⟩

theorem mem_expandPair {p : FuzzyPair} (h : w ∈ expandPair limit variants p) :
    w ∈ variants ∨ (isSyllable w = true ∧ ∃ v ∈ variants, p.Swaps v w) := by
  obtain ⟨long, short, final⟩ := p
  have hsuffix (value tail : Bytes) (ht : tail.isSuffixOf value = true) :
      value = value.take (value.length-tail.length) ++ tail := by
    obtain ⟨stem, rfl⟩ := isSuffixOf_iff_suffix.mp ht
    rw [length_append, Nat.add_sub_cancel, take_left]
  have hfirst (value start : Bytes) (hs : start.isPrefixOf value = true) :
      value = start ++ value.drop start.length := by
    obtain ⟨stem, rfl⟩ := isPrefixOf_iff_prefix.mp hs
    rw [drop_left]
  cases final with
  | true =>
    refine mem_foldl_append limit _ _ (fun acc v => ?_) variants variants h
    split_ifs with hlong hshort
    · exact .inr ⟨_, ⟨_, .inl ⟨hsuffix v long hlong, rfl⟩⟩, rfl⟩
    · exact .inr ⟨_, ⟨_, .inr ⟨hsuffix v short hshort, rfl⟩⟩, rfl⟩
    · exact .inl rfl
  | false =>
    refine mem_foldl_append limit _ _ (fun acc v => ?_) variants variants h
    split_ifs with hlong hshort
    · exact .inr ⟨_, ⟨_, .inl ⟨hfirst v long hlong, rfl⟩⟩, rfl⟩
    · exact .inr ⟨_, ⟨_, .inr ⟨hfirst v short hshort, rfl⟩⟩, rfl⟩
    · exact .inl rfl

def FuzzyPair.Lower (p : FuzzyPair) : Prop :=
  p.long.all isLowerByte = true ∧ p.short.all isLowerByte = true

theorem FuzzyConfig.pairs_lower (config : FuzzyConfig) : ∀ p ∈ config.pairs, p.Lower := by
  intro p hp
  simp only [FuzzyConfig.pairs, mem_append, mem_ite_nil_right, mem_singleton] at hp
  rcases hp with ⟨-, rfl⟩ | ⟨-, rfl⟩ | ⟨-, rfl⟩ | ⟨-, rfl⟩ | ⟨-, rfl⟩ | ⟨-, rfl⟩
  all_goals exact ⟨rfl, rfl⟩

theorem FuzzyPair.Lower.swaps {p : FuzzyPair} (hp : p.Lower) {v : Bytes} (h : p.Swaps v w)
    (hv : ∀ b ∈ v, isLowerByte b = true) : ∀ b ∈ w, isLowerByte b = true := by
  obtain ⟨hlong, hshort⟩ := hp
  rw [all_eq_true] at hlong hshort
  obtain ⟨stem, h⟩ := h
  split_ifs at h
  all_goals
    rcases h with ⟨rfl, rfl⟩ | ⟨rfl, rfl⟩
    all_goals
      intro b hb
      rw [mem_append] at hb
      grind

theorem mem_foldl_expandPair {pairs : List FuzzyPair} (hlower : ∀ p ∈ pairs, p.Lower)
    (acc : List Bytes) (h : w ∈ pairs.foldl (expandPair limit) acc) :
    ∃ v ∈ acc, Varies pairs v w ∧ (v ∈ builtInSyllables → w ∈ builtInSyllables) := by
  induction pairs generalizing acc with
  | nil => exact ⟨w, h, Varies.nil w, id⟩
  | cons p pairs ih =>
    obtain ⟨u, hu, hvaries, hbuilt⟩ := ih (forall_mem_cons.mp hlower).2 _ h
    rcases mem_expandPair hu with hacc | ⟨hsyllable, v, hv, hswap⟩
    · exact ⟨u, hacc, hvaries.skip, hbuilt⟩
    · refine ⟨v, hv, hvaries.swap hswap, fun hvb => hbuilt ?_⟩
      have hvl := (builtInSyllables_lower hvb).2
      exact mem_builtIn_of_isSyllable ((hlower p mem_cons_self).swaps hswap hvl) hsyllable

theorem mem_fuzzySyllableVariants {syllable : Bytes}
    (h : w ∈ fuzzySyllableVariants syllable config limit) :
    Varies config.pairs syllable w ∧ (syllable ∈ builtInSyllables → w ∈ builtInSyllables) := by
  rw [fuzzySyllableVariants_eq] at h
  obtain ⟨v, hv, hvaries⟩ := mem_foldl_expandPair config.pairs_lower _ h
  rw [mem_singleton.mp hv] at hvaries
  exact hvaries

theorem mem_pathAliases {path : List Bytes} {a : Bytes} (h : a ∈ pathAliases config limit path) :
    ∃ vs, a = vs.flatten ∧
      List.Forall₂ (fun v s => v ∈ fuzzySyllableVariants s config limit) vs path := by
  have hfold : pathAliases config limit path =
      (path.map (fuzzySyllableVariants · config limit)).foldl (fun spellings variants =>
        (spellings.flatMap (fun start => variants.map (start ++ ·))).take limit) [[]] := by
    rw [foldl_map]
    rfl
  rw [hfold] at h
  obtain ⟨start, hstart, vs, hvs, rfl⟩ := parts_of_mem_foldl
    (fun _ _ _ => mem_of_mem_product ∘ mem_of_mem_take) h
  rw [mem_singleton.mp hstart, nil_append]
  exact ⟨vs, rfl, forall₂_map_right_iff.mp hvs⟩

theorem foldl_addAlias (words aliases : List Bytes) (hnodup : aliases.Nodup)
    (hlength : aliases.length ≤ limit) :
    ∃ more, words.foldl (addAlias limit) aliases = aliases ++ more ∧ (aliases ++ more).Nodup ∧
      (aliases ++ more).length ≤ limit ∧ ∀ a ∈ more, a ∈ words := by
  induction words generalizing aliases with
  | nil =>
    refine ⟨[], (append_nil _).symm, ?_, ?_, fun a ha => ha⟩
    · rwa [append_nil]
    · rwa [append_nil]
  | cons word words ih =>
    rw [foldl_cons, addAlias]
    split_ifs with hskip
    · obtain ⟨more, hmore, hn, hl, hmem⟩ := ih aliases hnodup hlength
      exact ⟨more, hmore, hn, hl, fun a ha => mem_cons_of_mem word (hmem a ha)⟩
    · obtain ⟨hroom, hnew⟩ := not_or.mp hskip
      have hn : (aliases ++ [word]).Nodup := by
        rw [nodup_append_comm, singleton_append]
        exact nodup_cons.mpr ⟨hnew, hnodup⟩
      have hl : (aliases ++ [word]).length ≤ limit := by
        rw [length_append, length_singleton]
        omega
      obtain ⟨more, hmore, hn, hl, hmem⟩ := ih (aliases ++ [word]) hn hl
      rw [append_assoc] at hmore hn hl
      refine ⟨word :: more, hmore, hn, hl, fun a ha => ?_⟩
      rcases mem_cons.mp ha with rfl | ha
      · exact mem_cons_self
      · exact mem_cons_of_mem word (hmem a ha)

structure FuzzyAliases (limits : SegmenterLimits) (input : Bytes) (config : FuzzyConfig)
    (aliases : List Bytes) : Prop where
  distinct : aliases.Nodup
  literal : normalizePinyin input ≠ [] → aliases.head? = some (normalizePinyin input)
  bounded : aliases.length ≤ min kHardMaxFuzzyAliases (max 1 config.maxAliases)
  short : normalizePinyin input ≠ [] → (normalizePinyin input).length ≤ 2 →
    aliases = [normalizePinyin input]
  justified : ∀ a ∈ aliases.tail, ∃ path ∈ segment limits input, ∃ vs, a = vs.flatten ∧
    List.Forall₂ (fun v s => v ∈ builtInSyllables ∧ Varies config.pairs s v) vs path

theorem fuzzyAliases_expand (limits : SegmenterLimits) (input : Bytes) (config : FuzzyConfig) :
    FuzzyAliases limits input config (expandFuzzyAliasesWith limits input config) := by
  have hone : 1 ≤ min kHardMaxFuzzyAliases (max 1 config.maxAliases) :=
    le_min (by decide) (le_max_left _ _)
  rw [expandFuzzyAliasesWith]
  dsimp only
  have hsingle : FuzzyAliases limits input config [normalizePinyin input] :=
    ⟨nodup_singleton _, fun _ => rfl, hone, fun _ _ => rfl, by simp⟩
  split_ifs with hnil hguard
  · exact ⟨nodup_nil, fun h => absurd hnil h, Nat.zero_le _, fun h => absurd hnil h, by simp⟩
  · exact hsingle
  · rw [← foldl_flatMap]
    obtain ⟨more, hmore, hnodup, hlength, hmem⟩ := foldl_addAlias
      ((segment limits input).flatMap (pathAliases config _)) _ (hsingle.distinct) hone
    rw [hmore]
    refine ⟨hnodup, fun _ => rfl, hlength, fun _ hshort => absurd (.inl hshort) hguard, ?_⟩
    intro a ha
    obtain ⟨path, hpath, halias⟩ := mem_flatMap.mp (hmem a ha)
    obtain ⟨vs, rfl, hvs⟩ := mem_pathAliases halias
    have hbuilt := (segmented_segment limits input).syllables path hpath
    refine ⟨path, hpath, vs, rfl, ?_⟩
    rw [forall₂_iff_zip] at hvs ⊢
    refine ⟨hvs.1, fun {v s} hzip => ?_⟩
    obtain ⟨hvaries, hsyllable⟩ := mem_fuzzySyllableVariants (hvs.2 hzip)
    exact ⟨hsyllable (hbuilt s (of_mem_zip hzip).2), hvaries⟩

/-- The aliases are bounded and different, and every one but the first varies a segmentation. -/
theorem fuzzy_aliases (input : Bytes) (config : FuzzyConfig) :
    FuzzyAliases {} input config (expandFuzzyAliases input config) ∧
      ∀ limits, FuzzyAliases limits input config (expandFuzzyAliasesWith limits input config) :=
  ⟨fuzzyAliases_expand {} input config, fun limits => fuzzyAliases_expand limits input config⟩

end Engine
end YunPin
