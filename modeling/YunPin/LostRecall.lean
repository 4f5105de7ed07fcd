import YunPin.PhraseRecall

/-! The quota of the first page lets every ranked public candidate through, and a lone personal
one. What a query loses it loses at the gates: an entry has one match record, and the record that
is kept can hide the one that would pass. -/
namespace YunPin
open ByteText List

namespace Engine

variable (room personal : ℕ) (ranked : List RankedCandidate) (ix : PhraseIndex)

theorem firstPage_perm :
    ((firstPage room personal ranked).1 ++ (firstPage room personal ranked).2).Perm ranked := by
  fun_induction firstPage room personal ranked with
  | case1 => exact List.Perm.refl _
  | case2 => exact List.Perm.refl _
  | case3 room personal c rest hskip page others hpage ih =>
    rw [hpage] at ih
    exact perm_middle.trans (ih.cons c)
  | case4 room personal c rest hskip page others hpage ih =>
    rw [hpage] at ih
    exact ih.cons c

theorem firstPage_length_le : (firstPage room personal ranked).1.length ≤ room := by
  fun_induction firstPage room personal ranked <;> grind

/-- A page that is not full has left out personal candidates only, and those only when there are
more than two. -/
theorem firstPage_others (h : (firstPage room personal ranked).1.length < room) :
    ∀ c ∈ (firstPage room personal ranked).2, c.isPersonal = true ∧
      2 < personal + ranked.countP (fun c => c.isPersonal) := by
  fun_induction firstPage room personal ranked with
  | case1 => simp
  | case2 => simp at h
  | case3 => grind
  | case4 => grind

variable {input : Bytes} {limit : ℕ}

theorem PhraseIndex.mem_query {x : Candidate} (h : x ∈ ix.query input limit) :
    ∃ c ∈ ix.ranked input, x = ix.publish c := by
  have hperm := firstPage_perm (min kFirstPageCandidateCount limit) 0 (ix.ranked input)
  simp only [PhraseIndex.query] at h
  split_ifs at h
  · cases h
  · obtain ⟨c, hc, rfl⟩ := mem_map.mp h
    exact ⟨c, hperm.subset (mem_append_left _ hc), rfl⟩
  · obtain ⟨c, hc, rfl⟩ := mem_map.mp h
    refine ⟨c, hperm.subset ?_, rfl⟩
    exact ((List.Sublist.refl _).append (take_sublist _ _)).subset hc

/-- A limit of a page and of all entries shows every public candidate, and the personal ones when
there are at most two. -/
theorem PhraseIndex.publish_mem_query (hpage : kFirstPageCandidateCount ≤ limit)
    (hall : (ix.ranked input).length ≤ limit) {c : RankedCandidate} (hc : c ∈ ix.ranked input)
    (hquota : c.isPersonal = false ∨ (ix.ranked input).countP (fun c => c.isPersonal) ≤ 2) :
    ix.publish c ∈ ix.query input limit := by
  have hpos : 0 < kFirstPageCandidateCount := by decide
  have hperm := firstPage_perm kFirstPageCandidateCount 0 (ix.ranked input)
  have hothers := firstPage_others kFirstPageCandidateCount 0 (ix.ranked input)
  rw [PhraseIndex.query, if_neg (by omega), min_eq_left hpage]
  dsimp only
  generalize firstPage kFirstPageCandidateCount 0 (ix.ranked input) = split at hperm hothers
  have hmem := hperm.symm.subset hc
  by_cases hfull : split.1.length < kFirstPageCandidateCount
  · rw [if_pos hfull]
    rcases mem_append.mp hmem with hmem | hmem
    · exact mem_map_of_mem hmem
    · obtain ⟨hp, hmany⟩ := hothers hfull c hmem
      rcases hquota with hq | hq
      · exact absurd (hp.symm.trans hq) (by decide)
      · omega
  · rw [if_neg hfull, take_of_length_le]
    · exact mem_map_of_mem hmem
    · have hlen := hperm.length_eq
      rw [length_append] at hlen
      omega

@[simp] theorem PhraseIndex.publish_id (c : RankedCandidate) : (ix.publish c).id = c.id := by
  rw [PhraseIndex.publish]
  cases ix.entries[c.entryIndex]? <;> rfl

theorem PhraseIndex.ranked_length_le (hv : ix.Valid) (input : Bytes) :
    (ix.ranked input).length ≤ ix.entries.length := by
  have hsub : (ix.ranked input).map RankedCandidate.entryIndex ⊆ List.range ix.entries.length := by
    intro j hj
    obtain ⟨c, hc, rfl⟩ := mem_map.mp hj
    obtain ⟨-, i, e, record, he, -, -, -, rfl⟩ := (ix.mem_ranked hv input c).mp hc
    exact mem_range.mpr (List.getElem?_eq_some_iff.mp he).1
  have hle := (subperm_of_subset (ix.ranked_nodup input) hsub).length_le
  rwa [length_map, length_range] at hle

/-- An entry is among the results exactly when it has a record that passes the gates, given that
the quota is not in its way. -/
theorem PhraseIndex.query_has_iff (ix : PhraseIndex) (hv : ix.Valid)
    (hq : normalizePinyin input ≠ []) {i : ℕ} {e : IndexedEntry} (he : ix.entries[i]? = some e)
    (hquota : isPersonalOrigin e.entry.origin = false ∨
      (ix.ranked input).countP (fun c => c.isPersonal) ≤ 2) (hall : ix.entries.length ≤ limit)
    (hpage : 8 ≤ limit) :
    (∃ c ∈ ix.query input limit, c.id = e.entry.id) ↔
      ∃ record, recordOf (ix.aliases input) (normalizePinyin input) e = some record ∧
        e.entry.open (ix.tombstones.getD i false) (normalizePinyin input) ∧
        e.entry.passes (normalizePinyin input) record := by
  constructor
  · rintro ⟨x, hx, hid⟩
    obtain ⟨c, hc, rfl⟩ := ix.mem_query hx
    rw [ix.publish_id] at hid
    obtain ⟨-, j, e', record, he', hrecord, hopen, hpasses, rfl⟩ := (ix.mem_ranked hv input c).mp hc
    have hij : j = i := hv.eq_of_id he' he hid
    subst hij
    rw [Option.some_inj.mp (he'.symm.trans he)] at hrecord hopen hpasses
    exact ⟨record, hrecord, hopen, hpasses⟩
  · rintro ⟨record, hrecord, hopen, hpasses⟩
    have hc : ix.toCandidate i e record ∈ ix.ranked input :=
      (ix.mem_ranked hv input _).mpr ⟨hq, i, e, record, he, hrecord, hopen, hpasses, rfl⟩
    refine ⟨ix.publish (ix.toCandidate i e record), ?_, ix.publish_id _⟩
    exact ix.publish_mem_query hpage ((ix.ranked_length_le hv input).trans hall) hc hquota

/-- A list in which all members of a kind share an index that occurs at most once has at most one
member of that kind. -/
theorem countP_le_one {τ : Type} (p : τ → Bool) (f : τ → ℕ) {l : List τ} (i : ℕ)
    (hn : (l.map f).Nodup) (hp : ∀ x ∈ l, p x = true → f x = i) : l.countP p ≤ 1 := by
  induction l with
  | nil => exact Nat.zero_le 1
  | cons x l ih =>
    rw [map_cons, nodup_cons] at hn
    rw [countP_cons]
    by_cases hx : p x = true
    · have hrest : l.countP p = 0 := by
        refine countP_eq_zero.mpr (fun y hy hpy => hn.1 ?_)
        rw [hp x mem_cons_self hx, ← hp y (mem_cons_of_mem x hy) hpy]
        exact mem_map_of_mem hy
      rw [hrest, if_pos hx]
    · rw [if_neg hx]
      exact ih hn.2 (forall_mem_cons.mp hp).2

/-- The index has one personal entry: pinned, long, not deleted and not matched as a whole only. -/
structure PhraseIndex.OnlyPinnedLong (ix : PhraseIndex) (i : ℕ) (e : IndexedEntry) : Prop where
  entry : ix.entries[i]? = some e
  personal : isPersonalOrigin e.entry.origin = true
  only : ∀ j e', ix.entries[j]? = some e' → isPersonalOrigin e'.entry.origin = true → j = i
  pinned : e.entry.pinned = true
  present : ix.tombstones.getD i false = false
  prefixed : e.entry.privateExactCodeOnly = false
  long : 4 ≤ e.entry.syllables.length

theorem completeSyllablePrefixCount_le {syllables : List Bytes} (query : Bytes)
    (h : ∀ s ∈ syllables, s ≠ []) : completeSyllablePrefixCount syllables query ≤ query.length := by
  induction syllables generalizing query with
  | nil => exact Nat.zero_le _
  | cons s rest ih =>
    rw [completeSyllablePrefixCount]
    split_ifs with hs
    · have hrest := ih (query.drop s.length) (forall_mem_cons.mp h).2
      have hlen := ( isPrefixOf_iff_prefix.mp hs).length_le
      have hpos := length_pos_of_ne_nil (h s mem_cons_self)
      rw [length_drop] at hrest
      omega
    · exact Nat.zero_le _

theorem completeSyllablePrefixCount_flatten (syllables : List Bytes) :
    completeSyllablePrefixCount syllables syllables.flatten = syllables.length := by
  induction syllables with
  | nil => rfl
  | cons s rest ih =>
    rw [completeSyllablePrefixCount, flatten_cons,
      if_pos ( isPrefixOf_iff_prefix.mpr (prefix_append s _)), drop_left, ih]
    rfl

/-- With fuzzy matching off, a long pinned phrase that a query should recall is found unless the
query is a start of its full pinyin that covers less than two syllables. -/
theorem pinned_long_recall (ix : PhraseIndex) (h : ix.Live)
    (hoff : ix.fuzzyConfig.enabled = false) (i : ℕ) (e : IndexedEntry)
    (hone : ix.OnlyPinnedLong i e) (input : Bytes)
    (hmatch : (normalizePinyin input <+: e.fullPinyin ∧
        2 ≤ completeSyllablePrefixCount e.entry.syllables (normalizePinyin input)) ∨
      (4 ≤ (normalizePinyin input).length ∧ normalizePinyin input <+: e.initials))
    (n : ℕ) (hall : ix.entries.length ≤ n) (hpage : 8 ≤ n) :
    (∃ c ∈ ix.query input n, c.id = e.entry.id) ↔
      (2 ≤ completeSyllablePrefixCount e.entry.syllables (normalizePinyin input) ∨
        ¬normalizePinyin input <+: e.fullPinyin) := by
  have hv := h.valid
  have hvalid := hv.entry e (mem_of_getElem? hone.entry)
  set query := normalizePinyin input with hquery
  have hcover := completeSyllablePrefixCount_le query (fun s hs => (hvalid.syllable s hs).1)
  have hlength : 2 ≤ query.length := by
    rcases hmatch with ⟨-, htwo⟩ | ⟨hfour, -⟩
    · exact htwo.trans hcover
    · omega
  have hq : query ≠ [] := ne_nil_of_length_pos (by omega)
  have hquota : (ix.ranked input).countP (fun c => c.isPersonal) ≤ 2 := by
    refine (countP_le_one _ RankedCandidate.entryIndex i (ix.ranked_nodup input) ?_).trans
      one_le_two
    intro c hc hp
    obtain ⟨-, j, e', record, he', -, -, -, rfl⟩ := (ix.mem_ranked hv input c).mp hc
    exact hone.only j e' he' hp
  have hopen : e.entry.open (ix.tombstones.getD i false) query := by
    refine ⟨hone.present, fun _ hpin => ?_, fun _ _ => hlength⟩
    exact absurd (hpin.symm.trans hone.pinned) (by decide)
  have hguarded : e.entry.guarded := Or.inl ⟨⟨hone.pinned, hone.personal⟩, hone.long⟩
  have haliases : ix.aliases input = [query] := by
    rw [PhraseIndex.aliases, hoff, if_neg Bool.false_ne_true]
  rw [ix.query_has_iff hv hq hone.entry (Or.inr hquota) hall hpage, ← hquery, haliases,
    recordOf, hone.prefixed, if_neg Bool.false_ne_true]
  by_cases hfull : e.fullPinyin = query
  · rw [if_pos hfull]
    refine ⟨fun _ => Or.inl ?_, fun _ => ⟨_, rfl, hopen, trivial⟩⟩
    rw [← hfull, hvalid.full, completeSyllablePrefixCount_flatten]
    exact le_trans (by decide) hone.long
  rw [if_neg hfull]
  by_cases hstart : query <+: e.fullPinyin
  · rw [firstAlias_cons_pos query [] _ hstart]
    constructor
    · rintro ⟨record, hrecord, -, hpasses⟩
      cases hrecord
      exact Or.inl (hpasses hguarded)
    · rintro (hc | hno)
      · exact ⟨_, rfl, hopen, fun _ => hc⟩
      · exact absurd hstart hno
  · rw [firstAlias_cons_neg [] hstart]
    obtain ⟨hfour, hinitials⟩ := hmatch.resolve_left (fun hm => hstart hm.1)
    refine ⟨fun _ => Or.inr hstart, fun _ => ⟨⟨.initials, query⟩, ?_, hopen, ?_⟩⟩
    · exact if_pos ⟨hlength, hinitials⟩
    · exact ⟨fun _ => ⟨hone.pinned, hone.personal⟩, fun _ => hfour⟩

/-- Shanghai, ai ni: the initials s, h, a, n are also the first letters of the full pinyin. -/
def shangHaiAiNi : PhraseEntry :=
  { id := lit "p1", text := lit "上海爱你"
    syllables := [lit "shang", lit "hai", lit "ai", lit "ni"]
    origin := .personal, useCount := 0, staticWeight := 0, pinned := true, learned := false
    privateExactCodeOnly := false, syncedLearning := false }

def shangHaiIndexed : IndexedEntry :=
  ⟨shangHaiAiNi, lit "shanghaiaini", lit "shan"⟩

def shangHaiIndex : PhraseIndex :=
  { entries := [shangHaiIndexed], fullIndex := [⟨lit "shanghaiaini", 0⟩]
    initialsIndex := [⟨lit "shan", 0⟩], privateExactCodeIndex := [], tombstones := [false]
    correctionScores := [0], revision := 0, fuzzyConfig := {} }

theorem shangHaiIndex_live : shangHaiIndex.Live :=
  PhraseIndex.Live.make [shangHaiAiNi] {} shangHaiIndex rfl

theorem shangHaiIndex_only : shangHaiIndex.OnlyPinnedLong 0 shangHaiIndexed where
  entry := rfl
  personal := rfl
  only j e' he' _ := Nat.lt_one_iff.mp (List.getElem?_eq_some_iff.mp he').1
  pinned := rfl
  present := rfl
  prefixed := rfl
  long := by decide

theorem pinned_long_recall_sample :
    ∃ c ∈ shangHaiIndex.query (lit "shanghai") 8, c.id = lit "p1" :=
  (pinned_long_recall shangHaiIndex shangHaiIndex_live rfl 0 shangHaiIndexed shangHaiIndex_only
    (lit "shanghai") (Or.inl ⟨by decide, by decide⟩) 8 (by decide) (le_refl 8)).mpr
    (Or.inl (by decide))

/-- Four initials of the pinned phrase recall nothing. -/
theorem pinned_long_hidden :
    shangHaiIndex.Live ∧ shangHaiIndex.OnlyPinnedLong 0 shangHaiIndexed ∧
      shangHaiIndex.fuzzyConfig.enabled = false ∧
      4 ≤ (lit "shan").length ∧ lit "shan" <+: shangHaiIndexed.initials ∧
      shangHaiIndex.query (lit "shan") 8 = [] :=
  ⟨shangHaiIndex_live, shangHaiIndex_only, rfl, by decide, by decide, by decide⟩

/-- A public entry that some alias justifies is found unless it has three or more syllables, is not
spelled out, and the first alias that fits covers less than two. This is so for every fuzzy
setting; with fuzzy matching off the literal input is the only alias. -/
theorem fuzzy_recall (ix : PhraseIndex) (h : ix.Live) (input : Bytes) (i : ℕ) (e : IndexedEntry)
    (he : ix.entries[i]? = some e)
    (hpublic : isPersonalOrigin e.entry.origin = false)
    (hpresent : ix.tombstones.getD i false = false)
    (hlearned : e.entry.learned = true → e.entry.pinned = false → 2 ≤ e.entry.useCount)
    (halias : ∃ a ∈ expandFuzzyAliases input ix.fuzzyConfig, a <+: e.fullPinyin ∧
      (e.entry.syllables.length ≤ 2 ∨ 2 ≤ completeSyllablePrefixCount e.entry.syllables a))
    (n : ℕ) (hall : ix.entries.length ≤ n) (hpage : 8 ≤ n) :
    (∃ c ∈ ix.query input n, c.id = e.entry.id) ↔
      (e.entry.syllables.length ≤ 2 ∨ e.fullPinyin = normalizePinyin input ∨
        ∃ a, firstAlias (expandFuzzyAliases input ix.fuzzyConfig) e.fullPinyin = some a ∧
          2 ≤ completeSyllablePrefixCount e.entry.syllables a) := by
  have hv := h.valid
  have hq : normalizePinyin input ≠ [] := by
    intro hnil
    obtain ⟨a, ha, -⟩ := halias
    rw [expandFuzzyAliases, expandFuzzyAliasesWith, if_pos hnil] at ha
    cases ha
  have hcode : e.entry.privateExactCodeOnly = false := by
    refine Bool.eq_false_iff.mpr (fun hx => ?_)
    have hpersonal := (hv.entry e (mem_of_getElem? he)).exactOnly hx
    exact absurd (hpersonal.symm.trans hpublic) (by decide)
  have hnot : ¬e.entry.pinnedPersonal := fun hp =>
    absurd (hp.2.symm.trans hpublic) (by decide)
  have hopen : e.entry.open (ix.tombstones.getD i false) (normalizePinyin input) := by
    refine ⟨hpresent, hlearned, fun hp => ?_⟩
    exact absurd (hp.symm.trans hpublic) (by decide)
  rw [ix.query_has_iff hv hq he (Or.inl hpublic) hall hpage, ix.aliases_eq input hq,
    recordOf, hcode, if_neg Bool.false_ne_true]
  by_cases hfull : e.fullPinyin = normalizePinyin input
  · rw [if_pos hfull]
    exact ⟨fun _ => Or.inr (Or.inl hfull), fun _ => ⟨_, rfl, hopen, trivial⟩⟩
  rw [if_neg hfull]
  cases hfirst : firstAlias (expandFuzzyAliases input ix.fuzzyConfig) e.fullPinyin with
  | none =>
    obtain ⟨a, ha, hstart, -⟩ := halias
    exact absurd hstart (firstAlias_eq_none hfirst ha)
  | some a =>
    constructor
    · rintro ⟨record, hrecord, -, hpasses⟩
      cases hrecord
      by_cases hshort : e.entry.syllables.length ≤ 2
      · exact Or.inl hshort
      · exact Or.inr (Or.inr ⟨a, rfl, hpasses (Or.inr ⟨hnot, not_le.mp hshort⟩)⟩)
    · intro hcase
      refine ⟨_, rfl, hopen, fun hguarded => ?_⟩
      -- a public entry is guarded for its three syllables
      have hthree := (hguarded.resolve_left (fun hp => hnot hp.1)).2
      rcases hcase with hshort | hexact | ⟨b, hb, hcover⟩
      · omega
      · exact absurd hexact hfull
      · rwa [← Option.some_inj.mp hb] at hcover

def niNengXing : PhraseEntry :=
  { id := lit "w1", text := lit "你能行", syllables := [lit "ni", lit "neng", lit "xing"]
    origin := .publicPack, useCount := 0, staticWeight := 0, pinned := false, learned := false
    privateExactCodeOnly := false, syncedLearning := false }

def niNengIndexed : IndexedEntry := ⟨niNengXing, lit "ninengxing", lit "nnx"⟩

def niNengIndex : PhraseIndex :=
  { entries := [niNengIndexed], fullIndex := [⟨lit "ninengxing", 0⟩]
    initialsIndex := [⟨lit "nnx", 0⟩], privateExactCodeIndex := [], tombstones := [false]
    correctionScores := [0], revision := 0, fuzzyConfig := { enEng := true } }

theorem niNengIndex_live : niNengIndex.Live :=
  PhraseIndex.Live.make [niNengXing] { enEng := true } niNengIndex rfl

theorem fuzzy_recall_sample : ∃ c ∈ niNengIndex.query (lit "nineng") 8, c.id = lit "w1" := by
  have hhead := expandFuzzyAliases_head (lit "nineng") niNengIndex.fuzzyConfig (by decide)
  obtain ⟨rest, hrest⟩ := head?_eq_some_iff.mp hhead
  have hfirst : firstAlias (expandFuzzyAliases (lit "nineng") niNengIndex.fuzzyConfig)
      niNengIndexed.fullPinyin = some (lit "nineng") := by
    rw [hrest]
    exact firstAlias_cons_pos (lit "nineng") rest (lit "ninengxing") (by decide)
  exact (fuzzy_recall niNengIndex niNengIndex_live (lit "nineng") 0 niNengIndexed rfl rfl rfl
    (by decide) ⟨lit "nineng", mem_of_mem_head? hhead, by decide, Or.inr (by decide)⟩ 8
    (by decide) (le_refl 8)).mpr (Or.inr (Or.inr ⟨lit "nineng", hfirst, by decide⟩))

theorem ninen_aliases :
    expandFuzzyAliases (lit "ninen") niNengIndex.fuzzyConfig = [lit "ninen", lit "nineng"] := by
  decide +kernel

/-- The second alias of the input covers two syllables of the entry, but the record keeps the
first one, which covers one. -/
theorem fuzzy_recall_hidden :
    niNengIndex.Live ∧ niNengIndex.fuzzyConfig.enabled = true ∧
      niNengIndex.entries[0]? = some niNengIndexed ∧
      isPersonalOrigin niNengIndexed.entry.origin = false ∧
      niNengIndex.tombstones.getD 0 false = false ∧ niNengIndexed.entry.learned = false ∧
      lit "nineng" ∈ expandFuzzyAliases (lit "ninen") niNengIndex.fuzzyConfig ∧
      lit "nineng" <+: niNengIndexed.fullPinyin ∧
      2 ≤ completeSyllablePrefixCount niNengIndexed.entry.syllables (lit "nineng") ∧
      niNengIndex.query (lit "ninen") 8 = [] := by
  have hmem : lit "nineng" ∈ expandFuzzyAliases (lit "ninen") niNengIndex.fuzzyConfig := by
    rw [ninen_aliases]
    decide
  have haliases : niNengIndex.aliases (lit "ninen") = [lit "ninen", lit "nineng"] := by
    rw [PhraseIndex.aliases, if_pos (by decide), ninen_aliases]
  have hranked : niNengIndex.ranked (lit "ninen") = [] := by
    rw [PhraseIndex.ranked, PhraseIndex.records, haliases]
    decide
  have hquery : niNengIndex.query (lit "ninen") 8 = [] := by
    rw [PhraseIndex.query, hranked]
    decide
  exact ⟨niNengIndex_live, rfl, rfl, rfl, rfl, rfl, hmem, by decide, by decide, hquery⟩

end Engine
end YunPin
