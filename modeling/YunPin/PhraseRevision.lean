import YunPin.PhraseOrder

/-! The revision of an index: it counts the updates that change something, so a candidate menu
computed at the same revision is still what a query returns. -/
namespace YunPin
open ByteText List

namespace Engine

def PhraseIndex.canReuseRevision (ix : PhraseIndex) (cachedRevision : UInt32) : Bool :=
  cachedRevision = ix.revision

def int32Result (n : ℤ) : Option ℤ := if -2^31 ≤ n ∧ n < 2^31 then some n else none

def adjustScore32 (current delta : ℤ) : Option ℤ :=
  if delta > 0 then
    match int32Result (kMaxCorrectionScore - min delta kMaxCorrectionScore) with
    | none => none
    | some bound =>
      if current > bound then some kMaxCorrectionScore
      else int32Result (current + min delta kMaxCorrectionScore)
  else
    match int32Result (-kMaxCorrectionScore - max delta (-kMaxCorrectionScore)) with
    | none => none
    | some bound =>
      if current < bound then some (-kMaxCorrectionScore)
      else int32Result (current + max delta (-kMaxCorrectionScore))

theorem int32Result_eq {n : ℤ} (h : -2000000 ≤ n ∧ n ≤ 2000000) : int32Result n = some n := by
  rw [int32Result, if_pos]
  omega

theorem adjustScore32_eq (current delta : ℤ)
    (h : -kMaxCorrectionScore ≤ current ∧ current ≤ kMaxCorrectionScore) :
    adjustScore32 current delta = some (adjustScore current delta) := by
  have hmax : kMaxCorrectionScore = 1000000 := rfl
  rw [hmax] at h
  rw [adjustScore32, adjustScore, hmax]
  by_cases hdelta : delta > 0
  · rw [if_pos hdelta, if_pos hdelta, int32Result_eq (by omega)]
    dsimp only
    split_ifs
    · rfl
    · exact int32Result_eq (by omega)
  · rw [if_neg hdelta, if_neg hdelta, int32Result_eq (by omega)]
    dsimp only
    split_ifs
    · rfl
    · exact int32Result_eq (by omega)

def PhraseIndex.content (ix : PhraseIndex) : List Bool × List ℤ :=
  (ix.tombstones, ix.correctionScores)

theorem PhraseIndex.update_cases (ix : PhraseIndex) (hv : ix.Valid) (u : Update) :
    ix.update u = ix ∨
      ((ix.update u).content ≠ ix.content ∧ (ix.update u).revision = ix.revision+1) := by
  have htombstones := hv.tombstones
  have hscores := hv.correctionScores
  cases u with
  | tombstone id =>
    rw [update, applyTombstone]
    cases hfound : ix.indexOf id with
    | none => exact .inl rfl
    | some index =>
      have hindex := (findIdx?_eq_some_iff_getElem.mp hfound).1
      dsimp only
      cases hbefore : ix.tombstones.getD index false with
      | true =>
        have hset : ix.tombstones.set index true = ix.tombstones := by
          apply ext_getElem?
          grind
        rw [hset, if_pos rfl]
        exact .inl rfl
      | false =>
        refine .inr ⟨fun hsame => ?_, if_neg Bool.false_ne_true⟩
        have hlist : ix.tombstones.set index true = ix.tombstones := congrArg Prod.fst hsame
        grind
  | feedback id delta =>
    rw [update, applyCorrectionFeedback]
    cases hfound : ix.indexOf id with
    | none => exact .inl rfl
    | some index =>
      have hindex := (findIdx?_eq_some_iff_getElem.mp hfound).1
      dsimp only
      split_ifs with hdelta hnext
      · exact .inl rfl
      · exact .inl rfl
      · refine .inr ⟨fun hsame => hnext ?_, rfl⟩
        have hlist : ix.correctionScores.set index (adjustScore (ix.correctionScores.getD index 0)
            delta.toInt) = ix.correctionScores := congrArg Prod.snd hsame
        grind

def PhraseIndex.changes (ix : PhraseIndex) : List Update → ℕ
  | [] => 0
  | u :: calls => (if (ix.update u).content ≠ ix.content then 1 else 0) + (ix.update u).changes calls

theorem PhraseIndex.changes_append (ix : PhraseIndex) (calls more : List Update) :
    ix.changes (calls ++ more) = ix.changes calls + (ix.updates calls).changes more := by
  induction calls generalizing ix with
  | nil => exact (Nat.zero_add _).symm
  | cons u calls ih =>
    rw [cons_append, changes, changes, ih, Nat.add_assoc]
    rfl

theorem PhraseIndex.valid_updates (ix : PhraseIndex) (hv : ix.Valid) (calls : List Update) :
    (ix.updates calls).Valid := by
  induction calls generalizing ix with
  | nil => exact hv
  | cons u calls ih => exact ih (ix.update u) (ix.valid_update hv u)

theorem PhraseIndex.revision_updates (ix : PhraseIndex) (hv : ix.Valid) (calls : List Update) :
    (ix.updates calls).revision = ix.revision + UInt32.ofNat (ix.changes calls) := by
  induction calls generalizing ix with
  | nil => exact (UInt32.add_zero _).symm
  | cons u calls ih =>
    have hrest := ih (ix.update u) (ix.valid_update hv u)
    change ((ix.update u).updates calls).revision = _
    rw [hrest, changes]
    rcases ix.update_cases hv u with hsame | ⟨hchange, hrevision⟩
    · rw [hsame, if_neg (not_not.mpr rfl), Nat.zero_add]
    · rw [if_pos hchange, hrevision, UInt32.ofNat_add, UInt32.add_assoc]
      rfl

theorem PhraseIndex.updates_of_changes_zero (ix : PhraseIndex) (hv : ix.Valid) {calls : List Update}
    (h : ix.changes calls = 0) : ix.updates calls = ix := by
  induction calls generalizing ix with
  | nil => rfl
  | cons u calls ih =>
    rw [changes] at h
    rcases ix.update_cases hv u with hsame | ⟨hchange, -⟩
    · rw [hsame] at h
      change (ix.update u).updates calls = ix
      rw [hsame]
      exact ih ix hv (Nat.eq_zero_of_add_eq_zero_left h)
    · rw [if_pos hchange] at h
      omega

/-- In a run with fewer than 2^32 changes, a revision that can be reused stands for the index it was
read from: every query returns the same. The scores stay in range, no score computation overflows,
and a call without a change keeps the revision. -/
theorem revision_guards_query (ix : PhraseIndex) (h : ix.Live) (before after : List Update)
    (hfew : ix.changes (before ++ after) < 2^32) :
    ((ix.updates (before ++ after)).canReuseRevision (ix.updates before).revision = true →
      ∀ input limit, (ix.updates (before ++ after)).query input limit =
        (ix.updates before).query input limit) ∧
    (∀ score ∈ (ix.updates (before ++ after)).correctionScores,
      (-1000000 ≤ score ∧ score ≤ 1000000) ∧
      ∀ delta : Int32, adjustScore32 score delta.toInt = some (adjustScore score delta.toInt)) ∧
    (∀ u, ((ix.updates (before ++ after)).update u).content =
        (ix.updates (before ++ after)).content →
      ((ix.updates (before ++ after)).update u).revision =
        (ix.updates (before ++ after)).revision) := by
  have hold := ix.valid_updates h.valid before
  have hnow := ix.valid_updates h.valid (before ++ after)
  have hsplit : ix.updates (before ++ after) = (ix.updates before).updates after :=
    foldl_append ..
  refine ⟨fun hreuse input limit => ?_, fun score hscore => ?_, fun u hsame => ?_⟩
  · rw [PhraseIndex.canReuseRevision, decide_eq_true_eq, hsplit,
      (ix.updates before).revision_updates hold after] at hreuse
    rw [ix.changes_append] at hfew
    -- the changes since then are a multiple of 2^32, and there are fewer
    have hzero : UInt32.ofNat ((ix.updates before).changes after) = 0 := by
      have hadd := (UInt32.add_zero (ix.updates before).revision).trans hreuse
      exact (UInt32.add_right_inj _).mp hadd.symm
    have hcount : (ix.updates before).changes after = 0 := by
      have hnat := congrArg UInt32.toNat hzero
      rw [UInt32.toNat_ofNat_of_lt' (by rw [UInt32.size]; omega)] at hnat
      exact hnat
    rw [hsplit, (ix.updates before).updates_of_changes_zero hold hcount]
  · have hrange := hnow.scores score hscore
    exact ⟨hrange, fun delta => adjustScore32_eq score delta.toInt hrange⟩
  · rcases (ix.updates (before ++ after)).update_cases hnow u with hupdate | ⟨hchange, -⟩
    · rw [hupdate]
    · exact absurd hsame hchange

/-- The first deletion changes the revision and the page, the second one neither. -/
theorem revision_guards_query_sample : ∃ ix, PhraseIndex.make niHaoEntries {} = .ok ix ∧
    (ix.updates [.tombstone (lit "p1")]).revision ≠ ix.revision ∧
    (ix.updates [.tombstone (lit "p1")]).query (lit "nihao") 8 ≠ ix.query (lit "nihao") 8 ∧
    (ix.updates [.tombstone (lit "p1"), .tombstone (lit "p1")]).query (lit "nihao") 8 =
      (ix.updates [.tombstone (lit "p1")]).query (lit "nihao") 8 :=
  ⟨_, rfl, by decide +kernel, by decide +kernel,
    (revision_guards_query _ (.make niHaoEntries {} _ rfl) [.tombstone (lit "p1")]
      [.tombstone (lit "p1")] (by decide +kernel)).1 (by decide +kernel) (lit "nihao") 8⟩

end Engine
end YunPin
