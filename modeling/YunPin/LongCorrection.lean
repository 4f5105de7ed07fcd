import YunPin.MergedTranslation

/-! Where an automatic correction can stand in the merged stream when the guard for long input is
on. The guard fixes its place from the heads, and the promotion of a learned phrase comes after
that. -/
namespace YunPin
open ByteText List

namespace RimeFilter
open YunPinMergedTranslation

def PrivateHeads (F : List Candidate) : Prop :=
  F.length ≤ 2 ∧ ∀ f ∈ F, f.yunpin.isSome = true ∧ f.isCorrection = false

/-- The guard has put a correction into the second place of the window behind one head, and then a
candidate with a third text is promoted over the head. -/
def Displaced (U F : List Candidate) (g : Guards) (score : Bytes → ℤ) : Prop :=
  ∃ f o c rest p, F = [f] ∧ preparedWindow g F U score = o :: c :: rest ∧ c.isCorrection = true ∧
    promoted F (prepared g F U).evidence = some p ∧ p.text ≠ f.text ∧ p.text ≠ o.text ∧
    p.text ≠ c.text

def Ordinary (l : List Candidate) : Prop := ∀ c ∈ l, c.isCorrection = false

theorem Ordinary.append {l l' : List Candidate} (h : Ordinary l) (h' : Ordinary l') :
    Ordinary (l ++ l') := fun c hc => (mem_append.mp hc).elim (h c) (h' c)

theorem Ordinary.sublist {l l' : List Candidate} (h : Ordinary l) (hs : l'.Sublist l) :
    Ordinary l' := fun c hc => h c (hs.subset hc)

theorem ordinary_filter (l : List Candidate) : Ordinary (l.filter (fun c => !c.isCorrection)) := by
  intro c hc
  simpa using (mem_filter.mp hc).2

section Guard
variable (U F : List Candidate) (g : Guards) (score : Bytes → ℤ)
  (hg : g.protectLongCorrections = true)
include hg

/-- With the guard on, a window has no correction, or one in the second place and one head at
most. -/
theorem preparedWindow_shape : Ordinary (preparedWindow g F U score) ∨
    (F.length < 2 ∧ ∃ o c rest, preparedWindow g F U score = o :: c :: rest ∧
      o.isCorrection = false ∧ c.isCorrection = true ∧ Ordinary rest) := by
  rw [preparedWindow]
  set window := sortByScore score (prepared g F U).window
  have hord := ordinary_filter window
  rcases protect_cases g F.length window with ⟨hoff, -⟩ | ⟨-, h⟩ | ⟨-, hfront, o, rest, c, ho, -, hc, h⟩
  · exact absurd (hoff.symm.trans hg) (by decide)
  · rw [h]
    exact .inl hord
  · rw [ho] at hord
    refine .inr ⟨hfront, o, c, rest, h, hord o mem_cons_self, hc, fun d hd => ?_⟩
    exact hord d (mem_cons_of_mem o hd)

theorem stream_ordinary (l : List Candidate) :
    Ordinary (l.filter (fun c => !g.suppressed (F.map Candidate.text) c true)) := by
  intro c hc
  have hshown := (mem_filter.mp hc).2
  exact (not_suppressed g _ c (by simpa using hshown)).2.2 rfl hg

end Guard

theorem promoted_page {f o c p : Candidate} {rest stream : List Candidate}
    (hcp : c.text ≠ p.text) :
    (p :: [f].filter (fun item => item.text ≠ p.text)) ++
      ((o :: c :: rest).filter (fun item => item.text ≠ p.text) ++ stream) =
    (p :: [f, o].filter (fun item => item.text ≠ p.text)) ++
      c :: (rest.filter (fun item => item.text ≠ p.text) ++ stream) := by
  have hkeep : [c].filter (fun item => item.text ≠ p.text) = [c] := by simp [hcp]
  rw [show (o :: c :: rest) = [o] ++ ([c] ++ rest) from rfl, filter_append,
    filter_append, show [f, o] = [f] ++ [o] from rfl, filter_append,
    hkeep]
  simp

theorem length_filter_pair (f o p : Candidate) :
    ([f, o].filter (fun item => item.text ≠ p.text)).length =
      (if f.text = p.text then 0 else 1) + (if o.text = p.text then 0 else 1) := by
  by_cases hf : f.text = p.text
  · by_cases ho : o.text = p.text
    · simp [hf, ho]
    · simp [hf, ho]
  · by_cases ho : o.text = p.text
    · simp [hf, ho]
    · simp [hf, ho]

/-- What the reader gets, seen from the corrections: none of them, or one with an ordinary upstream
candidate before it, at a place that is among the first three unless it was displaced. -/
theorem emitted_shape (U F : List Candidate) {g : Guards} (score : Bytes → ℤ)
    (hg : g.protectLongCorrections = true) (hF : PrivateHeads F) :
    (Ordinary (make U F g score).remaining ∧ ¬Displaced U F g score) ∨
    ∃ before c later, (make U F g score).remaining = before ++ c :: later ∧ Ordinary before ∧
      c.isCorrection = true ∧ Ordinary later ∧ (∃ o ∈ before, o ∈ U) ∧
      (before.length < 3 ↔ ¬Displaced U F g score) := by
  obtain ⟨taken, hdivision⟩ := make_division U F g score
  have hmem (c : Candidate) (hc : c ∈ taken) : c ∈ U := by
    rw [hdivision.split]
    exact mem_append_left _ hc
  have hheads : Ordinary F := fun f hf => (hF.2 f hf).2
  have hstream := stream_ordinary F g hg (prepared g F U).upstream
  rw [make_remaining]
  generalize (prepared g F U).upstream.filter
    (fun c => !g.suppressed (F.map Candidate.text) c true) = stream at hstream
  rcases preparedWindow_shape U F g score hg with
    hnone | ⟨hfront, o, c, rest, hwindow, ho, hc, hrest⟩
  · refine .inl ⟨?_, ?_⟩
    · rw [promoteLearnedUpstream]
      cases hp : promoted F (prepared g F U).evidence with
      | none => exact hheads.append (hnone.append hstream)
      | some p =>
        have hpOrd : Ordinary (p :: F.filter (fun item => item.text ≠ p.text)) :=
          Ordinary.append (l := [p]) (fun d hd => by
            rw [mem_singleton.mp hd]
            exact (promoted_spec hp).2.1) (hheads.sublist filter_sublist)
        exact hpOrd.append ((hnone.sublist filter_sublist).append hstream)
    · rintro ⟨f, o, c, rest, p, -, hwindow, hc, -⟩
      rw [hwindow] at hnone
      have hfalse := hnone c (mem_cons_of_mem o mem_cons_self)
      exact absurd (hc.symm.trans hfalse) (by decide)
  rw [promoteLearnedUpstream]
  cases hp : promoted F (prepared g F U).evidence with
  | none =>
    -- the heads, then the ordinary candidate and the correction of the window
    have hoU : o ∈ U := hmem o (hdivision.window_shown o (by rw [hwindow]; exact mem_cons_self)).1
    refine .inr ⟨F ++ [o], c, rest ++ stream, ?_, ?_, hc, hrest.append hstream, ?_, ?_⟩
    · rw [hwindow]
      simp
    · exact hheads.append (fun d hd => by rw [mem_singleton.mp hd]; exact ho)
    · exact ⟨o, mem_append_right _ mem_cons_self, hoU⟩
    · refine ⟨fun _ => ?_, fun _ => ?_⟩
      · rintro ⟨f, o', c', rest', p, -, -, -, hp', -⟩
        rw [hp] at hp'
        cases hp'
      · rw [length_append]
        exact Nat.succ_lt_succ hfront
  | some p =>
    obtain ⟨hev, hpOrd, hne⟩ := promoted_spec hp
    have hpU : p ∈ U := hmem p (hdivision.evidence p hev).1
    have hone : F.length = 1 := by
      have hpos := length_pos_of_ne_nil hne
      omega
    obtain ⟨f, rfl⟩ := length_eq_one_iff.mp hone
    rw [hwindow]
    have hfOrd := hheads f mem_cons_self
    by_cases hcp : c.text = p.text
    · -- the promotion takes the correction out of the window with its own text
      refine .inl ⟨?_, ?_⟩
      · have hrest' : Ordinary ((o :: c :: rest).filter (fun item => item.text ≠ p.text)) := by
          intro d hd
          obtain ⟨hd, hne⟩ := mem_filter.mp hd
          rcases mem_cons.mp hd with rfl | hd
          · exact ho
          rcases mem_cons.mp hd with rfl | hd
          · exact absurd hcp (by simpa using hne)
          · exact hrest d hd
        have hfront' : Ordinary (p :: [f].filter (fun item => item.text ≠ p.text)) := by
          intro d hd
          rcases mem_cons.mp hd with rfl | hd
          · exact hpOrd
          · exact hheads d (mem_of_mem_filter hd)
        exact hfront'.append (hrest'.append hstream)
      · rintro ⟨f', o', c', rest', p', -, hwindow', -, hp', -, -, hne'⟩
        rw [hp] at hp'
        rw [hwindow] at hwindow'
        cases hp'
        cases hwindow'
        exact hne' hcp.symm
    · refine .inr ⟨p :: [f, o].filter (fun item => item.text ≠ p.text), c,
        rest.filter (fun item => item.text ≠ p.text) ++ stream, ?_, ?_, hc,
        (hrest.sublist filter_sublist).append hstream, ⟨p, mem_cons_self, hpU⟩, ?_⟩
      · exact promoted_page hcp
      · intro d hd
        rcases mem_cons.mp hd with rfl | hd
        · exact hpOrd
        rcases mem_cons.mp (mem_of_mem_filter hd) with rfl | hd
        · exact hfOrd
        · rw [mem_singleton.mp hd]
          exact ho
      · rw [length_cons, length_filter_pair]
        constructor
        · rintro hlt ⟨f', o', c', rest', p', hf', hwindow', -, hp', hpf, hpo, -⟩
          rw [hp] at hp'
          rw [hwindow] at hwindow'
          cases hp'
          cases hwindow'
          cases hf'
          rw [if_neg (Ne.symm hpf), if_neg (Ne.symm hpo)] at hlt
          omega
        · intro hno
          by_cases hpf : f.text = p.text
          · rw [if_pos hpf]
            split_ifs <;> decide
          by_cases hpo : o.text = p.text
          · rw [if_neg hpf, if_pos hpo]
            decide
          · exact absurd ⟨f, o, c, rest, p, rfl, hwindow, hc, hp, Ne.symm hpf, Ne.symm hpo,
              Ne.symm hcp⟩ hno

/-- With the guard on there is at most one correction, an ordinary upstream candidate comes before
it, and it is among the first three candidates unless the promotion has displaced it. -/
theorem long_correction_guard (U F : List Candidate) (g : Guards) (score : Bytes → ℤ)
    (hg : g.protectLongCorrections = true) (hF : PrivateHeads F) (emitted : List Candidate)
    (h : (make U F g score).Reads emitted) :
    emitted.countP Candidate.isCorrection ≤ 1 ∧
    (∀ (k : ℕ) (c : Candidate), emitted[k]? = some c → c.isCorrection = true →
      ∃ j < k, ∃ o ∈ U, emitted[j]? = some o ∧ o.isCorrection = false) ∧
    ((∀ (k : ℕ) (c : Candidate), emitted[k]? = some c → c.isCorrection = true → k < 3) ↔
      ¬Displaced U F g score) := by
  rw [h.unique (reads_remaining _ (make_ready U F g score))]
  rcases emitted_shape U F score hg hF with
    ⟨hnone, hplace⟩ | ⟨before, c, later, hshape, hbefore, hc, hlater, ⟨o, ho, hoU⟩, hplace⟩
  · generalize (make U F g score).remaining = emitted at hnone
    have hno (k : ℕ) (c : Candidate) (hk : emitted[k]? = some c) (hc : c.isCorrection = true) :
        False := by
      have hfalse := hnone c (mem_of_getElem? hk)
      exact absurd (hc.symm.trans hfalse) (by decide)
    refine ⟨?_, fun k c hk hc => (hno k c hk hc).elim, fun _ => hplace,
      fun _ k c hk hc => (hno k c hk hc).elim⟩
    rw [countP_eq_zero.mpr (fun c hc => by rw [hnone c hc]; exact Bool.false_ne_true)]
    exact Nat.zero_le 1
  · rw [hshape]
    have honly (k : ℕ) (d : Candidate) (hk : (before ++ c :: later)[k]? = some d)
        (hd : d.isCorrection = true) : k = before.length := by
      rcases lt_trichotomy k before.length with hlt | heq | hgt
      · rw [getElem?_append_left hlt] at hk
        have hfalse := hbefore d (mem_of_getElem? hk)
        exact absurd (hd.symm.trans hfalse) (by decide)
      · exact heq
      · rw [getElem?_append_right hgt.le] at hk
        obtain ⟨m, hm⟩ := Nat.exists_eq_add_of_lt hgt
        rw [show k-before.length = m+1 by omega, getElem?_cons_succ] at hk
        have hfalse := hlater d (mem_of_getElem? hk)
        exact absurd (hd.symm.trans hfalse) (by decide)
    refine ⟨?_, fun k d hk hd => ?_, ?_⟩
    · rw [countP_append, countP_cons, if_pos hc,
        countP_eq_zero.mpr (fun d hd => by rw [hbefore d hd]; exact Bool.false_ne_true),
        countP_eq_zero.mpr (fun d hd => by rw [hlater d hd]; exact Bool.false_ne_true)]
    · obtain ⟨j, hj, hget⟩ := getElem_of_mem ho
      refine ⟨j, (honly k d hk hd).symm ▸ hj, o, hoU, ?_, hbefore o ho⟩
      rw [getElem?_append_left hj, getElem?_eq_getElem hj, hget]
    · rw [← hplace]
      refine ⟨fun hall => hall before.length c ?_ hc, fun hlt k d hk hd => ?_⟩
      · rw [getElem?_append_right (le_refl _), Nat.sub_self]
        rfl
      · rw [honly k d hk hd]
        exact hlt

/-- A private head from a synchronized source that is neither pinned nor corrected towards. -/
def syncedHead : Candidate :=
  ⟨lit "F", 0, 12, false, none, some ⟨some (lit "zh"), false, 0, true, 1⟩⟩

def correction : Candidate := ⟨lit "C", 0, 12, true, none, none⟩

def learned : Candidate :=
  ⟨lit "P", 0, 12, false,
    some ⟨some (lit "zh"), true, [1], false, lit "user_phrase", 1⟩, none⟩

def fourthPlaceUpstream : List Candidate := [plain (lit "O"), correction, learned]

theorem syncedHead_private : PrivateHeads [syncedHead] := by
  refine ⟨by decide, fun f hf => ?_⟩
  rw [mem_singleton.mp hf]
  exact ⟨rfl, rfl⟩

theorem make_reads (U F : List Candidate) (g : Guards) (score : Bytes → ℤ)
    (emitted : List Candidate) (h : (make U F g score).remaining = emitted) :
    (make U F g score).Reads emitted := by
  rw [← h]
  exact reads_remaining _ (make_ready U F g score)

theorem long_correction_guard_sample :
    ∃ j < 2, ∃ o ∈ [plain (lit "O"), correction],
      [syncedHead, plain (lit "O"), correction][j]? = some o ∧ o.isCorrection = false :=
  (long_correction_guard [plain (lit "O"), correction] [syncedHead] ⟨false, true⟩ (fun _ => 0) rfl
    syncedHead_private [syncedHead, plain (lit "O"), correction]
    (make_reads _ _ _ _ _ (by decide))).2.1 2 correction rfl rfl

theorem correction_in_fourth_place :
    (make fourthPlaceUpstream [syncedHead] ⟨false, true⟩ (fun _ => 0)).Reads
      [learned, syncedHead, plain (lit "O"), correction] ∧ PrivateHeads [syncedHead] ∧
      Displaced fourthPlaceUpstream [syncedHead] ⟨false, true⟩ (fun _ => 0) := by
  refine ⟨make_reads _ _ _ _ _ (by decide), syncedHead_private, syncedHead, plain (lit "O"),
    correction, [learned], learned, rfl, ?_, rfl, ?_, by decide, by decide, by decide⟩
  · decide
  · decide

end RimeFilter
end YunPin
