import YunPin.PageQuota

/-! The order of the entries makes no difference to a query. An index is compared with another by
its rows: an entry with its tombstone and its score. Entries with the same rows in another order
are ranked alike, since the ranking is a total order on entries with different ids. -/
namespace YunPin
open ByteText List

namespace Engine

/-- A list the sort of a query may produce: the hash map is iterated in some order, and the sort
returns some arrangement in which no candidate ranks before one to its left. -/
structure PhraseIndex.Ranks (ix : PhraseIndex) (input : Bytes) (ranked : List RankedCandidate) :
    Prop where
  iterated : ∃ order : List (ℕ × MatchRecord), order.Perm (ix.records input).entries ∧
    ranked.Perm (order.filterMap (ix.candidate (normalizePinyin input)))
  sorted : ranked.Pairwise (fun left right =>
    ranksBefore right.toCandidate left.toCandidate = false)

def PhraseIndex.Returns (ix : PhraseIndex) (input : Bytes) (limit : ℕ) (result : List Candidate) :
    Prop :=
  if limit = 0 ∨ normalizePinyin input = [] then result = []
  else ∃ ranked, ix.Ranks input ranked ∧ result = (shownOf limit ranked).map ix.publish

variable {entries : List PhraseEntry} {ix ix' : PhraseIndex}

theorem PhraseIndex.Ranks.eq (hv : ix.Valid) {input : Bytes} (hq : normalizePinyin input ≠ [])
    {ranked : List RankedCandidate} (h : ix.Ranks input ranked) :
    ranked = ix.ranked input := by
  obtain ⟨⟨order, horder, hperm⟩, hsorted⟩ := h
  have hsame : ranked.Perm (ix.ranked input) := by
    rw [← ix.ranked_order hv hq horder]
    exact hperm.trans (perm_insertionSort _ _).symm
  have hkeys : ranked.Pairwise (fun a b => rankKey a.toCandidate ≤ rankKey b.toCandidate) := by
    refine hsorted.imp (fun {a b} hab => not_lt.mp (fun hlt => ?_))
    rw [(ranksBefore_iff).mpr hlt] at hab
    cases hab
  refine hsame.eq_of_pairwise (fun a b ha hb hab hba => ?_) hkeys (ix.ranked_pairwise input)
  exact ix.ranked_eq_of_id hv (hsame.subset ha) hb (id_of_rankKey (le_antisymm hab hba))

theorem PhraseIndex.ranks_ranked (input : Bytes) (hq : normalizePinyin input ≠ []) :
    ix.Ranks input (ix.ranked input) := by
  refine ⟨⟨_, List.Perm.refl _, ?_⟩, ?_⟩
  · rw [ranked, if_neg hq]
    exact perm_insertionSort _ _
  · refine (ix.ranked_pairwise input).imp (fun {a b} hab => ?_)
    rw [Bool.eq_false_iff, Ne, ranksBefore_iff]
    exact not_lt.mpr hab

theorem PhraseIndex.returns_iff (hv : ix.Valid) (input : Bytes) (limit : ℕ)
    (result : List Candidate) : ix.Returns input limit result ↔ result = ix.query input limit := by
  rw [PhraseIndex.Returns, ix.query_eq input limit]
  split_ifs with hnone
  · -- no place on the page, or nothing ranked
    have hnil : shownOf limit (ix.ranked input) = [] := by
      have hlen := shownOf_length limit (ix.ranked input)
      have hsub := (shownOf_subset limit (ix.ranked input)).length_le
      rw [← length_eq_zero_iff]
      rcases hnone with rfl | hq
      · omega
      · rw [ranked, if_pos hq, length_nil] at hsub
        rw [ranked, if_pos hq]
        omega
    rw [hnil, map_nil]
  · constructor
    · rintro ⟨ranked, hranks, rfl⟩
      rw [hranks.eq hv (fun hq => hnone (.inr hq))]
    · rintro rfl
      exact ⟨_, ix.ranks_ranked input (fun hq => hnone (.inr hq)), rfl⟩

abbrev IndexRow := IndexedEntry × Bool × ℤ

def PhraseIndex.rows (ix : PhraseIndex) : List IndexRow :=
  ix.entries.zip (ix.tombstones.zip ix.correctionScores)

theorem PhraseIndex.rows_getElem? (i : ℕ) (row : IndexRow) :
    ix.rows[i]? = some row ↔ ix.entries[i]? = some row.1 ∧ ix.tombstones[i]? = some row.2.1 ∧
      ix.correctionScores[i]? = some row.2.2 := by
  rw [rows, getElem?_zip_eq_some, getElem?_zip_eq_some]

theorem PhraseIndex.Valid.row (hv : ix.Valid) {i : ℕ} {e : IndexedEntry}
    (he : ix.entries[i]? = some e) :
    ix.rows[i]? = some (e, ix.tombstones.getD i false, ix.correctionScores.getD i 0) := by
  have hi := (List.getElem?_eq_some_iff.mp he).1
  have htombstones := hv.tombstones
  have hscores := hv.correctionScores
  refine (ix.rows_getElem? i _).mpr ⟨he, ?_, ?_⟩ <;> grind

theorem PhraseIndex.row_fields (i : ℕ) (row : IndexRow) (h : ix.rows[i]? = some row) :
    ix.entries[i]? = some row.1 ∧ ix.tombstones.getD i false = row.2.1 ∧
      ix.correctionScores.getD i 0 = row.2.2 := by
  obtain ⟨he, htomb, hscore⟩ := (ix.rows_getElem? i row).mp h
  rw [getD_eq_getElem?_getD, getD_eq_getElem?_getD, htomb, hscore]
  exact ⟨he, rfl, rfl⟩

def IndexRow.candidate (row : IndexRow) (record : MatchRecord) : Candidate :=
  let entry := row.1.entry
  { id := entry.id, text := entry.text, fullPinyin := row.1.fullPinyin,
    initials := row.1.initials, origin := entry.origin, kind := record.kind,
    useCount := entry.useCount, staticWeight := entry.staticWeight, pinned := entry.pinned,
    correctionScore := row.2.2, syllables := entry.syllables,
    syncedLearning := entry.syncedLearning }

theorem PhraseIndex.publish_toCandidate (i : ℕ) (row : IndexRow) (h : ix.rows[i]? = some row)
    (record : MatchRecord) :
    ix.publish (ix.toCandidate i row.1 record) = row.candidate record := by
  obtain ⟨he, -, hscore⟩ := ix.row_fields i row h
  have hindex : (ix.toCandidate i row.1 record).entryIndex = i := rfl
  rw [publish, hindex, he]
  dsimp only [toCandidate, IndexRow.candidate]
  rw [hscore]

theorem PhraseIndex.mem_published (hv : ix.Valid) (input : Bytes) (x : Candidate) :
    x ∈ (ix.ranked input).map ix.publish ↔ normalizePinyin input ≠ [] ∧ ∃ row ∈ ix.rows, ∃ record,
      recordOf (ix.aliases input) (normalizePinyin input) row.1 = some record ∧
      row.1.entry.open row.2.1 (normalizePinyin input) ∧
      row.1.entry.passes (normalizePinyin input) record ∧ x = row.candidate record := by
  rw [mem_map]
  constructor
  · rintro ⟨c, hc, rfl⟩
    obtain ⟨hq, i, e, record, he, hrecord, hopen, hpasses, rfl⟩ := (ix.mem_ranked hv input c).mp hc
    have hrow := hv.row he
    exact ⟨hq, _, mem_of_getElem? hrow, record, hrecord, hopen, hpasses,
      ix.publish_toCandidate i _ hrow record⟩
  · rintro ⟨hq, row, hmem, record, hrecord, hopen, hpasses, rfl⟩
    obtain ⟨i, hi⟩ := getElem?_of_mem hmem
    obtain ⟨he, htomb, -⟩ := ix.row_fields i row hi
    refine ⟨ix.toCandidate i row.1 record, ?_, ix.publish_toCandidate i row hi record⟩
    exact (ix.mem_ranked hv input _).mpr
      ⟨hq, i, row.1, record, he, hrecord, htomb.symm ▸ hopen, hpasses, rfl⟩

theorem PhraseIndex.rankKey_publish (c : RankedCandidate) :
    rankKey (ix.publish c) = rankKey c.toCandidate := by
  rw [publish]
  cases ix.entries[c.entryIndex]? <;> rfl

/-- The two indexes hold the same rows and expand the same aliases. -/
structure PhraseIndex.SameRows (ix ix' : PhraseIndex) : Prop where
  valid : ix.Valid
  valid' : ix'.Valid
  rows : ix.rows.Perm ix'.rows
  fuzzyConfig : ix.fuzzyConfig = ix'.fuzzyConfig

theorem PhraseIndex.SameRows.published (h : ix.SameRows ix') (input : Bytes) :
    (ix.ranked input).map ix.publish = (ix'.ranked input).map ix'.publish := by
  have haliases : ix.aliases input = ix'.aliases input := by
    rw [aliases, aliases, h.fuzzyConfig]
  have hmem (x : Candidate) :
      x ∈ (ix.ranked input).map ix.publish ↔ x ∈ (ix'.ranked input).map ix'.publish := by
    rw [ix.mem_published h.valid, ix'.mem_published h.valid', haliases]
    simp only [h.rows.mem_iff]
  have hnodup (ix : PhraseIndex) (hv : ix.Valid) : ((ix.ranked input).map ix.publish).Nodup := by
    refine List.Nodup.of_map Candidate.id ?_
    rw [map_map]
    have hid : Candidate.id ∘ ix.publish = fun c => c.id := funext ix.publish_id
    rw [hid]
    exact ix.ranked_ids hv input
  have hkeys (ix : PhraseIndex) : ((ix.ranked input).map ix.publish).Pairwise
      (fun a b => rankKey a ≤ rankKey b) := by
    refine pairwise_map.mpr ((ix.ranked_pairwise input).imp (fun {a b} hab => ?_))
    rw [ix.rankKey_publish, ix.rankKey_publish]
    exact hab
  have hperm := (perm_ext_iff_of_nodup (hnodup ix h.valid) (hnodup ix' h.valid')).mpr hmem
  refine hperm.eq_of_pairwise (fun a b ha hb hab hba => ?_) (hkeys ix) (hkeys ix')
  -- Equal keys have equal ids, and both are candidates of the second index.
  have hid := id_of_rankKey (le_antisymm hab hba)
  obtain ⟨c, hc, rfl⟩ := mem_map.mp (hperm.subset ha)
  obtain ⟨c', hc', rfl⟩ := mem_map.mp hb
  rw [ix'.publish_id, ix'.publish_id] at hid
  rw [ix'.ranked_eq_of_id h.valid' hc hc' hid]

theorem firstPage_forall₂ (R : RankedCandidate → RankedCandidate → Prop)
    (hR : ∀ a b, R a b → a.isPersonal = b.isPersonal) {l l' : List RankedCandidate}
    (h : List.Forall₂ R l l') (room personal : ℕ) :
    List.Forall₂ R (firstPage room personal l).1 (firstPage room personal l').1 ∧
      List.Forall₂ R (firstPage room personal l).2 (firstPage room personal l').2 := by
  induction h generalizing room personal with
  | nil => exact ⟨List.Forall₂.nil, List.Forall₂.nil⟩
  | cons hab hrest ih =>
    cases room with
    | zero => exact ⟨List.Forall₂.nil, List.Forall₂.cons hab hrest⟩
    | succ room =>
      rw [firstPage, firstPage, hR _ _ hab]
      split_ifs
      · obtain ⟨hpage, hothers⟩ := ih (room+1) personal
        exact ⟨hpage, List.Forall₂.cons hab hothers⟩
      · obtain ⟨hpage, hothers⟩ := ih room (personal+1)
        exact ⟨List.Forall₂.cons hab hpage, hothers⟩
      · obtain ⟨hpage, hothers⟩ := ih room personal
        exact ⟨List.Forall₂.cons hab hpage, hothers⟩

theorem shownOf_forall₂ (R : RankedCandidate → RankedCandidate → Prop)
    (hR : ∀ a b, R a b → a.isPersonal = b.isPersonal) {l l' : List RankedCandidate}
    (h : List.Forall₂ R l l') (limit : ℕ) : List.Forall₂ R (shownOf limit l) (shownOf limit l') := by
  obtain ⟨hpage, hothers⟩ := firstPage_forall₂ R hR h (min 8 limit) 0
  rw [shownOf, shownOf, hpage.length_eq]
  split_ifs
  · exact hpage
  · exact rel_append hpage (forall₂_take _ hothers)

theorem PhraseIndex.SameRows.query (h : ix.SameRows ix') (input : Bytes) (limit : ℕ) :
    ix.query input limit = ix'.query input limit := by
  have hranked : List.Forall₂ (fun c c' => ix.publish c = ix'.publish c') (ix.ranked input)
      (ix'.ranked input) := by
    rw [← forall₂_map_right_iff, ← forall₂_map_left_iff, h.published input,
      forall₂_eq_eq_eq]
  have hpersonal (a b : RankedCandidate) (hab : ix.publish a = ix'.publish b) :
      a.isPersonal = b.isPersonal := by
    rw [← ix.publish_isPersonal, hab, ix'.publish_isPersonal]
  have hshown := shownOf_forall₂ _ hpersonal hranked limit
  rw [← forall₂_map_right_iff, ← forall₂_map_left_iff, forall₂_eq_eq_eq] at hshown
  rw [ix.query_eq, ix'.query_eq, hshown]

theorem indexEntry_ok_iff {ids : List Bytes} (entry : PhraseEntry) (e : IndexedEntry) :
    indexEntry ids entry = .ok e ↔ indexEntry [] entry = .ok e ∧ e.entry.id ∉ ids := by
  rw [indexEntry, indexEntry]
  cases normalizeSyllables entry.syllables <;> grind

theorem indexEntries_ok_iff (done : List IndexedEntry) (entries : List PhraseEntry)
    (indexed : List IndexedEntry)
    (hdone : (done.map (fun e => e.entry.id)).Nodup) :
    indexEntries done entries = .ok indexed ↔ ∃ new,
      List.Forall₂ (fun entry e => indexEntry [] entry = .ok e) entries new ∧
      indexed = done ++ new ∧ (indexed.map (fun e => e.entry.id)).Nodup := by
  induction entries generalizing done with
  | nil =>
    simp only [indexEntries, Except.ok.injEq, forall₂_nil_left_iff]
    grind
  | cons entry rest ih =>
    rw [indexEntries]
    -- An entry is taken on when its id is new.
    have hids (e : IndexedEntry) : ((done ++ [e]).map (fun e => e.entry.id)).Nodup ↔
        e.entry.id ∉ done.map (fun e => e.entry.id) := by
      rw [map_append, map_singleton, nodup_append_comm, singleton_append,
        nodup_cons]
      exact and_iff_left hdone
    constructor
    · intro h
      split at h
      · cases h
      rename_i e hentry
      obtain ⟨hone, hfresh⟩ := (indexEntry_ok_iff entry e).mp hentry
      obtain ⟨new, hnew, rfl, hnodup⟩ := (ih (done ++ [e]) ((hids e).mpr hfresh)).mp h
      rw [append_assoc] at hnodup ⊢
      exact ⟨e :: new, List.Forall₂.cons hone hnew, rfl, hnodup⟩
    · rintro ⟨new, hnew, rfl, hnodup⟩
      cases hnew with
      | cons hone hrest =>
        rename_i e new
        have hsplit : done ++ e :: new = (done ++ [e]) ++ new := append_cons ..
        have hnew : ((done ++ [e]).map (fun e => e.entry.id)).Nodup := by
          rw [hsplit, map_append] at hnodup
          exact hnodup.of_append_left
        rw [(indexEntry_ok_iff entry e).mpr ⟨hone, (hids e).mp hnew⟩]
        exact (ih (done ++ [e]) hnew).mpr ⟨new, hrest, hsplit, hnodup⟩

def IndexedEntry.row (e : IndexedEntry) : IndexRow :=
  (e, e.entry.tombstoned, clampScore e.entry.correctionScore)

theorem PhraseIndex.make_ok {config : FuzzyConfig}
    (h : make entries config = .ok ix) :
    List.Forall₂ (fun entry e => indexEntry [] entry = .ok e) entries ix.entries ∧
      ix.rows = ix.entries.map IndexedEntry.row ∧ ix.fuzzyConfig = config := by
  rw [make] at h
  split at h
  · cases h
  rename_i indexed hindexed
  cases h
  obtain ⟨new, hnew, rfl, -⟩ := (indexEntries_ok_iff [] entries indexed nodup_nil).mp hindexed
  refine ⟨hnew, ?_, rfl⟩
  dsimp only [rows]
  rw [zip_map']
  nth_rewrite 1 [← map_id indexed]
  rw [zip_map']
  rfl

theorem PhraseIndex.make_perm {entries' : List PhraseEntry} {config : FuzzyConfig}
    (hperm : entries.Perm entries') (h : make entries config = .ok ix) :
    ∃ ix', make entries' config = .ok ix' ∧ ix.SameRows ix' := by
  obtain ⟨hall, hrows, hconfig⟩ := make_ok h
  have hv := valid_make h
  obtain ⟨new, hnew, hsame⟩ := perm_comp_forall₂ hperm.symm hall
  have hids : (new.map (fun e => e.entry.id)).Nodup := (hsame.map _).nodup_iff.mpr hv.ids
  have hindexed : indexEntries [] entries' = .ok new :=
    (indexEntries_ok_iff [] entries' new nodup_nil).mpr ⟨new, hnew, rfl, hids⟩
  obtain ⟨ix', hmake⟩ : ∃ ix', make entries' config = .ok ix' := by
    rw [make, hindexed]
    exact ⟨_, rfl⟩
  have hentries : ix'.entries = new := by
    rw [make, hindexed] at hmake
    cases hmake
    rfl
  obtain ⟨-, hrows', hconfig'⟩ := make_ok hmake
  refine ⟨ix', hmake, hv, valid_make hmake, ?_, ?_⟩
  · rw [hrows, hrows', hentries]
    exact (hsame.map _).symm
  · rw [hconfig, hconfig']

inductive Update where
  | tombstone (id : Bytes)
  | feedback (id : Bytes) (delta : Int32)

def PhraseIndex.update (ix : PhraseIndex) : Update → PhraseIndex
  | .tombstone id => (ix.applyTombstone id).1
  | .feedback id delta => (ix.applyCorrectionFeedback id delta.toInt).1

def PhraseIndex.updates (ix : PhraseIndex) (calls : List Update) : PhraseIndex :=
  calls.foldl update ix

theorem PhraseIndex.valid_update (hv : ix.Valid) (u : Update) : (ix.update u).Valid := by
  cases u with
  | tombstone id => exact ix.valid_applyTombstone id hv
  | feedback id delta => exact ix.valid_applyCorrectionFeedback id delta.toInt hv

theorem PhraseIndex.update_same (u : Update) :
    (ix.update u).entries = ix.entries ∧ (ix.update u).fuzzyConfig = ix.fuzzyConfig := by
  cases u with
  | tombstone id =>
    rw [update, applyTombstone]
    cases ix.indexOf id <;> exact ⟨rfl, rfl⟩
  | feedback id delta =>
    rw [update, applyCorrectionFeedback]
    cases ix.indexOf id with
    | none => exact ⟨rfl, rfl⟩
    | some index =>
      dsimp only
      split_ifs <;> exact ⟨rfl, rfl⟩

def Update.change : Update → IndexRow → IndexRow
  | .tombstone id, row => if row.1.entry.id = id then (row.1, true, row.2.2) else row
  | .feedback id delta, row =>
    if row.1.entry.id = id ∧ delta.toInt ≠ 0 then
      (row.1, row.2.1, adjustScore row.2.2 delta.toInt)
    else row

theorem PhraseIndex.Valid.indexOf_eq (hv : ix.Valid) (id : Bytes) {i : ℕ} {e : IndexedEntry}
    (he : ix.entries[i]? = some e) : ix.indexOf id = some i ↔ e.entry.id = id := by
  constructor
  · intro h
    obtain ⟨hi, hfound, -⟩ := findIdx?_eq_some_iff_getElem.mp h
    rw [getElem?_eq_getElem hi, Option.some_inj] at he
    rw [← he]
    exact of_decide_eq_true hfound
  · intro hid
    obtain ⟨j, hj⟩ : ∃ j, ix.indexOf id = some j := by
      rw [← Option.isSome_iff_exists, indexOf, findIdx?_isSome, any_eq_true]
      exact ⟨e, mem_of_getElem? he, decide_eq_true hid⟩
    obtain ⟨hlt, hfound, -⟩ := findIdx?_eq_some_iff_getElem.mp hj
    have hsame : ix.entries[j].entry.id = e.entry.id := by
      rw [hid]
      exact of_decide_eq_true hfound
    rw [hj, hv.eq_of_id (getElem?_eq_getElem hlt) he hsame]

theorem PhraseIndex.rows_map (ix ix' : PhraseIndex) (hv : ix.Valid) (hv' : ix'.Valid)
    (hentries : ix'.entries = ix.entries) (f : IndexRow → IndexRow)
    (h : ∀ i e, ix.entries[i]? = some e →
      f (e, ix.tombstones.getD i false, ix.correctionScores.getD i 0) =
        (e, ix'.tombstones.getD i false, ix'.correctionScores.getD i 0)) :
    ix'.rows = ix.rows.map f := by
  apply ext_getElem?
  intro i
  rw [getElem?_map]
  cases he : ix.entries[i]? with
  | some e =>
    rw [hv'.row (hentries.symm ▸ he), hv.row he, Option.map_some, h i e he]
  | none =>
    have hnone (jx : PhraseIndex) (hj : jx.entries[i]? = none) : jx.rows[i]? = none := by
      rw [Option.eq_none_iff_forall_ne_some]
      intro row hrow
      cases hj.symm.trans (jx.row_fields i row hrow).1
    rw [hnone ix' (hentries.symm ▸ he), hnone ix he, Option.map_none]

theorem PhraseIndex.rows_update (hv : ix.Valid) (u : Update) :
    (ix.update u).rows = ix.rows.map u.change := by
  have hv' := ix.valid_update hv u
  have htombstones := hv.tombstones
  have hscores := hv.correctionScores
  refine ix.rows_map _ hv hv' (ix.update_same u).1 _ (fun i e he => ?_)
  have hi := (List.getElem?_eq_some_iff.mp he).1
  -- The one entry with the id has its place written, the others are left alone.
  cases u with
  | tombstone id =>
    have hplace := hv.indexOf_eq id he
    simp only [update, applyTombstone, Update.change]
    cases hfound : ix.indexOf id <;> grind
  | feedback id delta =>
    have hplace := hv.indexOf_eq id he
    simp only [update, applyCorrectionFeedback, Update.change]
    cases hfound : ix.indexOf id <;> grind

theorem PhraseIndex.SameRows.update (h : ix.SameRows ix') (u : Update) :
    (ix.update u).SameRows (ix'.update u) := by
  refine ⟨ix.valid_update h.valid u, ix'.valid_update h.valid' u, ?_, ?_⟩
  · rw [ix.rows_update h.valid, ix'.rows_update h.valid']
    exact h.rows.map _
  · rw [(ix.update_same u).2, (ix'.update_same u).2, h.fuzzyConfig]

theorem PhraseIndex.SameRows.updates (h : ix.SameRows ix') (calls : List Update) :
    (ix.updates calls).SameRows (ix'.updates calls) := by
  induction calls generalizing ix ix' with
  | nil => exact h
  | cons u calls ih => exact ih (h.update u)

/-- Entries in another order are accepted too, and after any updates every query returns the same,
in whatever order the hash maps are iterated and however equal parts are sorted. -/
theorem query_entry_order (entries entries' : List PhraseEntry) (hperm : entries.Perm entries')
    (config : FuzzyConfig) (ix : PhraseIndex) (h : PhraseIndex.make entries config = .ok ix) :
    ∃ ix', PhraseIndex.make entries' config = .ok ix' ∧
      ∀ (calls : List Update) (input : Bytes) (limit : ℕ), ∃ result,
        (∀ r, (ix.updates calls).Returns input limit r ↔ r = result) ∧
        (∀ r, (ix'.updates calls).Returns input limit r ↔ r = result) := by
  obtain ⟨ix', hmake, hsame⟩ := PhraseIndex.make_perm hperm h
  refine ⟨ix', hmake, fun calls input limit => ⟨(ix.updates calls).query input limit, ?_, ?_⟩⟩
  · exact (ix.updates calls).returns_iff (hsame.updates calls).valid input limit
  · rw [(hsame.updates calls).query input limit]
    exact (ix'.updates calls).returns_iff (hsame.updates calls).valid' input limit

theorem query_entry_order_sample : ∃ ix ix', PhraseIndex.make niHaoEntries {} = .ok ix ∧
    PhraseIndex.make niHaoEntries.reverse {} = .ok ix' ∧
    ∀ r r', ix.Returns (lit "nih") 8 r → ix'.Returns (lit "nih") 8 r' → r = r' := by
  obtain ⟨ix, hmake⟩ : ∃ ix, PhraseIndex.make niHaoEntries {} = .ok ix := ⟨_, rfl⟩
  obtain ⟨ix', hmake', hall⟩ := query_entry_order niHaoEntries niHaoEntries.reverse
    (reverse_perm _).symm {} ix hmake
  obtain ⟨result, hr, hr'⟩ := hall [] (lit "nih") 8
  refine ⟨ix, ix', hmake, hmake', fun r r' h h' => ?_⟩
  rw [(hr r).mp h, (hr' r').mp h']

end Engine
end YunPin
