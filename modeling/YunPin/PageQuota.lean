import YunPin.LostRecall

/-! The quota of the first page: two personal candidates on the first page, and nothing dropped
that the quota does not drop. Both kinds of candidates keep the order of the ranking. -/
namespace YunPin
open ByteText List

namespace Engine

def Candidate.isPublic (c : Candidate) : Bool := !c.isPersonal

/-- What the quota makes of a ranked list: the candidates `shown` of the list `ranking` under a
limit. -/
structure PageQuota (limit : ℕ) (ranking shown : List Candidate) : Prop where
  length : shown.length ≤ limit
  subset : shown ⊆ ranking
  once : (shown.map Candidate.id).Nodup
  quota : (shown.take 8).countP Candidate.isPersonal ≤ 2
  personal : shown.filter Candidate.isPersonal <+: ranking.filter Candidate.isPersonal
  other : shown.filter Candidate.isPublic <+: ranking.filter Candidate.isPublic
  /-- A short first page lacks the personal candidates after the second one, and nothing else. -/
  short : shown.length < min 8 limit → (∀ c ∈ ranking, c.isPublic = true → c ∈ shown) ∧
    (ranking.filter Candidate.isPersonal).take 2 ⊆ shown
  full : min 8 limit ≤ shown.length → shown.length < limit → ranking ⊆ shown

variable (room personal : ℕ) (ix : PhraseIndex) (limit : ℕ) (ranked : List RankedCandidate)

theorem firstPage_closed (h : 2 ≤ personal) :
    (firstPage room personal ranked).1.filter (fun c => c.isPersonal) = [] := by
  fun_induction firstPage room personal ranked <;> simp_all

theorem firstPage_personal : (firstPage room personal ranked).1.filter (fun c => c.isPersonal) ++
        (firstPage room personal ranked).2.filter (fun c => c.isPersonal) =
      ranked.filter (fun c => c.isPersonal) := by
  fun_induction firstPage room personal ranked with
  | case1 => rfl
  | case2 => rfl
  | case3 room personal c rest hskip page others hpage ih =>
    -- The candidate is passed over, and so are all personal ones after it.
    have hclosed := firstPage_closed (room+1) personal rest hskip.2
    rw [hpage] at hclosed ih
    simp only [hclosed, nil_append, filter_cons, if_pos hskip.1, ← ih]
  | case4 room personal c rest hskip page others hpage ih =>
    simp_all only [filter_cons]
    split_ifs <;> simp_all

theorem firstPage_public : (firstPage room personal ranked).1.filter (fun c => c.isPublic) ++
        (firstPage room personal ranked).2.filter (fun c => c.isPublic) =
      ranked.filter (fun c => c.isPublic) := by
  fun_induction firstPage room personal ranked with
  | case1 => rfl
  | case2 => rfl
  | case3 => simp_all [Candidate.isPublic]
  | case4 =>
    simp_all only [filter_cons]
    split_ifs <;> simp_all

theorem firstPage_quota :
    (firstPage room personal ranked).1.countP (fun c => c.isPersonal) ≤ 2-personal := by
  fun_induction firstPage room personal ranked <;> grind

theorem firstPage_short (h : (firstPage room personal ranked).1.length < room) :
    (ranked.filter (fun c => c.isPersonal)).take (2-personal) =
      (firstPage room personal ranked).1.filter (fun c => c.isPersonal) := by
  fun_induction firstPage room personal ranked with
  | case1 => simp
  | case2 => simp at h
  | case3 room personal c rest hskip page others hpage ih =>
    have hclosed := firstPage_closed (room+1) personal rest hskip.2
    simp_all [Nat.sub_eq_zero_of_le hskip.2]
  | case4 room personal c rest hskip page others hpage ih =>
    have hrest := ih (by rw [hpage]; exact Nat.lt_of_succ_lt_succ h)
    cases hc : c.isPersonal with
    | true =>
      have htwo : 2-personal = 2-(personal+1)+1 := by
        have hroom : ¬personal ≥ 2 := fun hp => hskip ⟨hc, hp⟩
        omega
      simp_all
    | false => simp_all

theorem PhraseIndex.publish_isPersonal (c : RankedCandidate) :
    (ix.publish c).isPersonal = c.isPersonal := by
  rw [PhraseIndex.publish]
  cases ix.entries[c.entryIndex]? <;> rfl

theorem PhraseIndex.publish_isPublic (c : RankedCandidate) :
    (ix.publish c).isPublic = c.isPublic := by
  rw [Candidate.isPublic, ix.publish_isPersonal, Candidate.isPublic]

/-- The ranked candidates that a query shows: the first page, and when it is full what comes
next of the others. -/
def shownOf (limit : ℕ) (ranked : List RankedCandidate) : List RankedCandidate :=
  let split := firstPage (min 8 limit) 0 ranked
  if split.1.length < min 8 limit then split.1 else split.1 ++ split.2.take (limit-split.1.length)

theorem PhraseIndex.query_eq (input : Bytes) (limit : ℕ) :
    ix.query input limit = (shownOf limit (ix.ranked input)).map ix.publish := by
  have height : kFirstPageCandidateCount = 8 := rfl
  have hlen := firstPage_length_le (min 8 limit) 0 (ix.ranked input)
  simp only [PhraseIndex.query, shownOf, height]
  split_ifs with hlimit
  · omega
  · subst hlimit
    simp_all
  · rfl
  · rfl

/-- What is shown of a kind comes first among the ranked ones of that kind, if the first pass only
cuts them. -/
theorem filter_shownOf {limit : ℕ} {ranked : List RankedCandidate} (p : RankedCandidate → Bool)
    (h : (firstPage (min 8 limit) 0 ranked).1.filter p ++
      (firstPage (min 8 limit) 0 ranked).2.filter p = ranked.filter p) :
    (shownOf limit ranked).filter p <+: ranked.filter p := by
  rw [shownOf, ← h]
  split_ifs
  · exact prefix_append _ _
  · rw [filter_append]
    exact (prefix_append_right_inj _).mpr (( take_prefix _ _).filter p)

theorem shownOf_length : (shownOf limit ranked).length ≤ limit := by
  have hpage := firstPage_length_le (min 8 limit) 0 ranked
  rw [shownOf]
  split_ifs
  · omega
  · rw [length_append, length_take]
    omega

theorem shownOf_quota : ((shownOf limit ranked).take 8).countP (fun c => c.isPersonal) ≤ 2 := by
  have hpage := firstPage_length_le (min 8 limit) 0 ranked
  have hquota := firstPage_quota (min 8 limit) 0 ranked
  rw [shownOf]
  split_ifs with hshort
  · exact ((take_sublist _ _).countP_le).trans hquota
  · -- A full page has eight places, or as many as may be shown at all.
    refine le_trans (List.Sublist.countP_le ?_) hquota
    rw [take_append, take_take]
    have hnone : min (8-(firstPage (min 8 limit) 0 ranked).1.length)
        (limit-(firstPage (min 8 limit) 0 ranked).1.length) = 0 := by omega
    rw [hnone, take_zero, append_nil]
    exact take_sublist _ _

theorem shownOf_short (h : (shownOf limit ranked).length < min 8 limit) :
    (∀ c ∈ ranked, c.isPublic = true → c ∈ shownOf limit ranked) ∧
      (ranked.filter (fun c => c.isPersonal)).take 2 ⊆ shownOf limit ranked := by
  rw [shownOf] at h ⊢
  split_ifs at h ⊢ with hshort
  · constructor
    · intro c hc hpublic
      have hmem := (firstPage_perm (min 8 limit) 0 ranked).symm.subset hc
      refine (mem_append.mp hmem).resolve_right (fun hother => ?_)
      have hpersonal := (firstPage_others (min 8 limit) 0 ranked hshort c hother).1
      rw [Candidate.isPublic, hpersonal] at hpublic
      cases hpublic
    · rw [← Nat.sub_zero 2, firstPage_short (min 8 limit) 0 ranked hshort]
      exact filter_subset_self _
  · rw [length_append] at h
    omega

theorem shownOf_full (hpage : min 8 limit ≤ (shownOf limit ranked).length)
    (hmore : (shownOf limit ranked).length < limit) : ranked ⊆ shownOf limit ranked := by
  intro c hc
  have hmem := (firstPage_perm (min 8 limit) 0 ranked).symm.subset hc
  rw [shownOf] at hpage hmore ⊢
  split_ifs at hpage hmore ⊢ with hshort
  · exact absurd hshort (not_lt.mpr hpage)
  · rw [length_append, length_take] at hmore
    rw [take_of_length_le (by omega)]
    exact hmem

theorem shownOf_subset : (shownOf limit ranked).Subperm ranked := by
  have hperm := firstPage_perm (min 8 limit) 0 ranked
  have hsub : (shownOf limit ranked).Sublist
      ((firstPage (min 8 limit) 0 ranked).1 ++ (firstPage (min 8 limit) 0 ranked).2) := by
    rw [shownOf]
    split_ifs
    · exact sublist_append_left _ _
    · exact (List.Sublist.refl _).append (take_sublist _ _)
  exact hsub.subperm.trans hperm.subperm

theorem PhraseIndex.ranked_ids (hv : ix.Valid) (input : Bytes) :
    ((ix.ranked input).map (fun c => c.id)).Nodup := by
  have hindex := pairwise_map.mp (ix.ranked_nodup input)
  refine pairwise_map.mpr (hindex.imp_of_mem (fun {a b} ha hb hne hid => hne ?_))
  obtain ⟨-, i, e, record, he, -, -, -, rfl⟩ := (ix.mem_ranked hv input a).mp ha
  obtain ⟨-, j, e', record', he', -, -, -, rfl⟩ := (ix.mem_ranked hv input b).mp hb
  exact hv.eq_of_id he he' hid

/-- The result of a query keeps the quota of the first page and drops nothing else: against the
whole ranking it has all properties of `PageQuota`. -/
theorem query_page_quota (ix : PhraseIndex) (h : ix.Live) (input : Bytes) (limit : ℕ) :
    PageQuota limit ((ix.ranked input).map ix.publish) (ix.query input limit) := by
  have hpersonal : Candidate.isPersonal ∘ ix.publish = fun c => c.isPersonal :=
    funext ix.publish_isPersonal
  have hpublic : Candidate.isPublic ∘ ix.publish = fun c => c.isPublic :=
    funext ix.publish_isPublic
  have hsub := shownOf_subset limit (ix.ranked input)
  rw [ix.query_eq input limit]
  refine ⟨?_, ?_, ?_, ?_, ?_, ?_, ?_, ?_⟩
  · rw [length_map]
    exact shownOf_length limit _
  · exact map_subset _ hsub.subset
  · rw [map_map]
    have hid : Candidate.id ∘ ix.publish = fun c => c.id := funext ix.publish_id
    rw [hid]
    obtain ⟨l, hperm, hsublist⟩ := hsub
    have hids := ix.ranked_ids h.valid input
    exact (hperm.map _).nodup_iff.mp (hids.sublist (hsublist.map _))
  · rw [← map_take, countP_map, hpersonal]
    exact shownOf_quota limit _
  · rw [filter_map, filter_map, hpersonal]
    exact (filter_shownOf _ (firstPage_personal _ _ _)).map _
  · rw [filter_map, filter_map, hpublic]
    exact (filter_shownOf _ (firstPage_public _ _ _)).map _
  · intro hshort
    rw [length_map] at hshort
    obtain ⟨hothers, htwo⟩ := shownOf_short limit _ hshort
    constructor
    · intro x hx hkind
      obtain ⟨c, hc, rfl⟩ := mem_map.mp hx
      rw [ix.publish_isPublic] at hkind
      exact mem_map_of_mem (hothers c hc hkind)
    · rw [filter_map, hpersonal, ← map_take]
      exact map_subset _ htwo
  · intro hpage hmore
    rw [length_map] at hpage hmore
    exact map_subset _ (shownOf_full limit _ hpage hmore)

def niHao (id text : String) (origin : Snapshot.PhraseOrigin) : PhraseEntry :=
  { baseEntry id text [lit "ni", lit "hao"] with origin }

/-- Three personal and two public phrases of one spelling. -/
def niHaoEntries : List PhraseEntry :=
  [niHao "p1" "你好" .personal, niHao "p2" "拟好" .personal, niHao "p3" "逆好" .personal,
    niHao "b1" "尼好" .base, niHao "b2" "泥好" .base]

/-- The third personal phrase is ranked and not shown. -/
theorem query_page_quota_sample : ∃ ix, PhraseIndex.make niHaoEntries {} = .ok ix ∧
    PageQuota 8 ((ix.ranked (lit "nihao")).map ix.publish) (ix.query (lit "nihao") 8) ∧
    (ix.ranked (lit "nihao")).map (fun c => c.id) =
      [lit "p1", lit "p2", lit "p3", lit "b1", lit "b2"] ∧
    (ix.query (lit "nihao") 8).map (fun c => c.id) = [lit "p1", lit "p2", lit "b1", lit "b2"] :=
  ⟨_, rfl, query_page_quota _ (.make niHaoEntries {} _ rfl) (lit "nihao") 8, by decide +kernel,
    by decide +kernel⟩

end Engine
end YunPin
