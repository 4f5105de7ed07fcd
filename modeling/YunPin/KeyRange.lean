import YunPin.SortedMap

/-! Ranges of a list of references sorted by key: the part between two lower bounds, found by
halving, and the range of the keys that begin with a given word when every letter lies below a fixed
top letter. -/
namespace KeyRange
open List

/-- The search of `std::lower_bound`: halve the stretch until it is empty. -/
def bisect (before : ℕ → Bool) (first count : ℕ) : ℕ :=
  if count = 0 then first
  else if before (first+count/2) then bisect before (first+count/2+1) (count-count/2-1)
  else bisect before first (count/2)
termination_by count

theorem bisect_eq (before : ℕ → Bool) {first count n : ℕ} (hlow : first ≤ n)
    (hhigh : n ≤ first+count) (h : ∀ i < first+count, before i = true ↔ i < n) :
    bisect before first count = n := by
  fun_induction bisect before first count with
  | case1 first => omega
  | case2 first count hcount hbefore ih =>
    have hn := (h (first+count/2) (by omega)).mp hbefore
    exact ih hn (by omega) (fun i hi => h i (by omega))
  | case3 first count hcount hbefore ih =>
    have hn := mt (h (first+count/2) (by omega)).mpr hbefore
    exact ih hlow (by omega) (fun i hi => h i (by omega))

section Bounds
variable {ρ κ : Type*} [LinearOrder κ]

/-- What is true of a stretch at the front only is found there by a scan. -/
theorem takeWhile_dropWhile_eq (p : ρ → Bool) {l : List ρ}
    (h : l.Pairwise (fun a b => p b = true → p a = true)) :
    l.takeWhile p = l.filter p ∧ l.dropWhile p = l.filter (fun a => !p a) := by
  induction l with
  | nil => exact ⟨rfl, rfl⟩
  | cons a l ih =>
    obtain ⟨ha, hl⟩ := pairwise_cons.mp h
    obtain ⟨htake, hdrop⟩ := ih hl
    cases hp : p a with
    | true => simp [hp, htake, hdrop]
    | false =>
      have hnone : ∀ b ∈ l, p b = false := fun b hb =>
        Bool.eq_false_iff.mpr (fun hb' => by simp [hp] at ha; simp [ha b hb] at hb')
      have hnil : l.filter p = [] := filter_eq_nil_iff.mpr (fun b hb => by simp [hnone b hb])
      have hself : l.filter (fun a => !p a) = l :=
        filter_eq_self.mpr (fun b hb => by simp [hnone b hb])
      simp [hp, hnil, hself]

/-- So the search by halving finds its end. -/
theorem bisect_takeWhile (p : ρ → Bool) {l : List ρ} (d : ρ) {first : ℕ}
    (h : l.Pairwise (fun a b => p b = true → p a = true))
    (hfirst : first ≤ (l.takeWhile p).length) :
    bisect (fun i => p (l.getD i d)) first (l.length-first) = (l.takeWhile p).length := by
  have hlength : (l.takeWhile p).length ≤ l.length := (takeWhile_sublist p).length_le
  apply bisect_eq _ hfirst (by omega)
  intro i hi
  have hsplit := takeWhile_append_dropWhile (p := p) (l := l)
  rw [getD_eq_getElem?_getD]
  conv_lhs => rw [← hsplit]
  by_cases hlt : i < (l.takeWhile p).length
  · rw [getElem?_append_left hlt, getElem?_eq_getElem hlt]
    exact iff_of_true (mem_takeWhile_imp (getElem_mem hlt)) hlt
  · have hrest : i-(l.takeWhile p).length < (l.dropWhile p).length := by
      have := congrArg length hsplit
      rw [length_append] at this
      omega
    rw [getElem?_append_right (not_lt.mp hlt), getElem?_eq_getElem hrest]
    refine iff_of_false (fun hp => ?_) hlt
    have hmem : (l.dropWhile p)[i-(l.takeWhile p).length] ∈ l.filter (fun a => !p a) :=
      (takeWhile_dropWhile_eq p h).2 ▸ getElem_mem hrest
    rw [mem_filter, Bool.not_eq_true'] at hmem
    exact absurd hp (ne_true_of_eq_false hmem.2)

/-- What `lower_bound` leaves of a list sorted by key: from the first key that is not below. -/
def lowerBound (key : ρ → κ) (value : κ) (refs : List ρ) : List ρ :=
  refs.dropWhile (fun r => decide (key r < value))

def range (key : ρ → κ) (low high : κ) (refs : List ρ) : List ρ :=
  (lowerBound key low refs).takeWhile (fun r => decide (key r < high))

variable (key : ρ → κ) (low high : κ) (refs : List ρ)

theorem below_closed (h : refs.Pairwise (fun r s => key r ≤ key s)) :
    refs.Pairwise (fun r s => decide (key s < low) = true → decide (key r < low) = true) := by
  refine h.imp (fun hle hlt => ?_)
  rw [decide_eq_true_eq] at hlt ⊢
  exact hle.trans_lt hlt

theorem lowerBound_eq (h : refs.Pairwise (fun r s => key r ≤ key s)) :
    lowerBound key low refs = refs.filter (fun r => decide (low ≤ key r)) := by
  rw [lowerBound, (takeWhile_dropWhile_eq _ (below_closed key low refs h)).2]
  simp only [← decide_not, not_lt]

theorem range_eq (h : refs.Pairwise (fun r s => key r ≤ key s)) :
    range key low high refs = refs.filter (fun r => decide (low ≤ key r ∧ key r < high)) := by
  have hsub : (lowerBound key low refs).Pairwise (fun r s => key r ≤ key s) :=
    h.sublist (dropWhile_sublist _)
  rw [range, (takeWhile_dropWhile_eq _ (below_closed key high _ hsub)).1,
    lowerBound_eq key low refs h, filter_filter]
  simp only [Bool.decide_and, Bool.and_comm]

theorem equal_eq (h : refs.Pairwise (fun r s => key r ≤ key s)) (p : ρ → Bool)
    (hp : ∀ r, p r = true ↔ key r = low) : (lowerBound key low refs).takeWhile p = refs.filter p := by
  have hclosed : (refs.filter (fun r => decide (low ≤ key r))).Pairwise
      (fun r s => p s = true → p r = true) := by
    apply (h.filter _).imp_of_mem
    intro r s hr _ hle hs
    rw [hp] at hs ⊢
    exact le_antisymm (hs ▸ hle) (of_decide_eq_true (mem_filter.mp hr).2)
  rw [lowerBound_eq key low refs h, (takeWhile_dropWhile_eq _ hclosed).1, filter_filter]
  apply filter_congr
  intro r _
  by_cases hkey : key r = low
  · simp [hkey]
  · simp [Bool.eq_false_iff.mpr (mt (hp r).mp hkey)]

/-- The place that the search finds from a place of the list on. -/
def lowerBoundAt (d : ρ) (first : ℕ) (value : κ) : ℕ :=
  bisect (fun i => decide (key (refs.getD i d) < value)) first (refs.length-first)

variable (d : ρ)

theorem lowerBoundAt_eq {first : ℕ} (h : refs.Pairwise (fun r s => key r ≤ key s))
    (hfirst : first ≤ (refs.takeWhile (fun r => decide (key r < low))).length) :
    lowerBoundAt key refs d first low = (refs.takeWhile (fun r => decide (key r < low))).length :=
  bisect_takeWhile _ d (below_closed key low refs h) hfirst

theorem drop_lowerBoundAt (h : refs.Pairwise (fun r s => key r ≤ key s)) :
    refs.drop (lowerBoundAt key refs d 0 low) = lowerBound key low refs := by
  rw [lowerBoundAt_eq key low refs d h (Nat.zero_le _)]
  have hsplit := takeWhile_append_dropWhile (p := fun r => decide (key r < low)) (l := refs)
  nth_rewrite 2 [← hsplit]
  exact drop_left

/-- The range lies between the places that two searches find, the second from the first on. -/
theorem range_between (h : refs.Pairwise (fun r s => key r ≤ key s)) (hle : low ≤ high) :
    lowerBoundAt key refs d 0 low ≤
        lowerBoundAt key refs d (lowerBoundAt key refs d 0 low) high ∧
      lowerBoundAt key refs d (lowerBoundAt key refs d 0 low) high ≤ refs.length ∧
      (refs.take (lowerBoundAt key refs d (lowerBoundAt key refs d 0 low) high)).drop
        (lowerBoundAt key refs d 0 low) = range key low high refs := by
  have hfirst := lowerBoundAt_eq key low refs d h (Nat.zero_le _)
  have hsplit := takeWhile_append_dropWhile (p := fun r => decide (key r < low)) (l := refs)
  -- What is below the lower bound is below the upper one.
  have htake : refs.takeWhile (fun r => decide (key r < high)) =
      refs.takeWhile (fun r => decide (key r < low)) ++ range key low high refs := by
    conv_lhs => rw [← hsplit]
    apply takeWhile_append_of_pos
    intro r hr
    have hlow : key r < low := of_decide_eq_true (mem_takeWhile_imp hr :)
    exact decide_eq_true (hlow.trans_le hle)
  have hbelow : (refs.takeWhile (fun r => decide (key r < low))).length ≤
      (refs.takeWhile (fun r => decide (key r < high))).length := by
    rw [htake, length_append]
    exact Nat.le_add_right _ _
  rw [hfirst, lowerBoundAt_eq key high refs d h hbelow]
  refine ⟨hbelow, (takeWhile_sublist _).length_le, ?_⟩
  rw [← prefix_iff_eq_take.mp ( takeWhile_prefix _), htake]
  exact drop_left

theorem range_sublist : (range key low high refs).Sublist refs :=
  (takeWhile_sublist _).trans (dropWhile_sublist _)

end Bounds

section Words
variable {α : Type*} [LinearOrder α]

theorem cons_lt_cons (a b : α) (k l : List α) : a :: k < b :: l ↔ a < b ∨ (a = b ∧ k < l) :=
  cons_lt_cons_iff

theorem between_iff_prefix {top : α} (w k : List α) (hk : ∀ a ∈ k, a < top) :
    (w ≤ k ∧ k < w ++ [top]) ↔ w <+: k := by
  induction w generalizing k with
  | nil =>
    refine ⟨fun _ => nil_prefix, fun _ => ⟨not_lt.mp (not_lt_nil k), ?_⟩⟩
    rcases k with _ | ⟨a, k⟩
    · exact nil_lt_cons _ _
    · exact (cons_lt_cons a top k []).mpr (.inl (hk a mem_cons_self))
  | cons b w ih =>
    rcases k with _ | ⟨a, k⟩
    · refine ⟨fun h => absurd h.1 (not_le.mpr (nil_lt_cons _ _)), fun h => ?_⟩
      exact absurd (prefix_nil.mp h) (cons_ne_nil _ _)
    · have hrest := ih k (forall_mem_cons.mp hk).2
      rw [cons_prefix_cons, ← hrest, cons_append, ← not_lt, ← not_lt, cons_lt_cons,
        cons_lt_cons]
      constructor
      · rintro ⟨hlow, hhigh | ⟨rfl, hhigh⟩⟩
        · exact absurd (.inl hhigh) hlow
        · exact ⟨rfl, fun h => hlow (.inr ⟨rfl, h⟩), hhigh⟩
      · rintro ⟨rfl, hlow, hhigh⟩
        refine ⟨?_, .inr ⟨rfl, hhigh⟩⟩
        rintro (h | ⟨_, h⟩)
        · exact lt_irrefl _ h
        · exact hlow h

theorem range_prefix {ρ : Type*} (key : ρ → List α) {top : α} (w : List α) {refs : List ρ}
    (h : refs.Pairwise (fun r s => key r ≤ key s)) (hkeys : ∀ r ∈ refs, ∀ a ∈ key r, a < top) :
    range key w (w ++ [top]) refs = refs.filter (fun r => w.isPrefixOf (key r)) := by
  rw [range_eq key _ _ refs h]
  apply filter_congr
  intro r hr
  rw [Bool.eq_iff_iff, isPrefixOf_iff_prefix, ← between_iff_prefix w (key r) (hkeys r hr)]
  simp only [decide_eq_true_eq]

end Words
end KeyRange
