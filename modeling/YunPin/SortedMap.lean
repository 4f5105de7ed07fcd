import Mathlib

/-! Finite maps as key-sorted association lists. The order makes the
representation unique, so two maps with the same lookups are equal and an
iteration has a definite order. -/

def List.assoc {K V : Type*} [LinearOrder K] (k : K) : List (K × V) → Option V
  | [] => none
  | (k', v) :: rest => if k = k' then some v else List.assoc k rest

def List.insertEntry {K V : Type*} [LinearOrder K] (k : K) (v : V) : List (K × V) → List (K × V)
  | [] => [(k, v)]
  | (k', v') :: rest =>
    if k < k' then (k, v) :: (k', v') :: rest
    else if k = k' then (k, v) :: rest
    else (k', v') :: List.insertEntry k v rest

structure SortedMap (K V : Type*) [LinearOrder K] where
  entries : List (K × V)
  sorted : (entries.map Prod.fst).Pairwise (· < ·)

namespace SortedMap
open List

variable {K V : Type*} [LinearOrder K]

instance [DecidableEq V] : DecidableEq (SortedMap K V) := fun a b =>
  decidable_of_iff (a.entries = b.entries) ⟨fun h => by cases a; cases b; simpa using h,
    fun h => by rw [h]⟩

def empty : SortedMap K V := ⟨[], List.Pairwise.nil⟩

instance : EmptyCollection (SortedMap K V) := ⟨empty⟩

instance : Inhabited (SortedMap K V) := ⟨empty⟩

def find? (m : SortedMap K V) (k : K) : Option V := m.entries.assoc k

variable (m : SortedMap K V) (k j : K) (v : V) (l : List (K × V))

theorem mem_keys_insertEntry :
    j ∈ (l.insertEntry k v).map Prod.fst ↔ j = k ∨ j ∈ l.map Prod.fst := by
  induction l with
  | nil => simp [List.insertEntry]
  | cons e rest ih =>
    obtain ⟨k', v'⟩ := e
    simp only [List.insertEntry]
    split_ifs with h1 h2
    · simp
    · subst h2
      simp
    · simp only [map_cons, mem_cons, ih]
      tauto

theorem sorted_insertEntry (h : (l.map Prod.fst).Pairwise (· < ·)) :
    ((l.insertEntry k v).map Prod.fst).Pairwise (· < ·) := by
  induction l with
  | nil => simp [List.insertEntry]
  | cons e rest ih =>
    obtain ⟨k', v'⟩ := e
    obtain ⟨hlt, hrest⟩ := pairwise_cons.mp h
    simp only [List.insertEntry]
    split_ifs with h1 h2
    · refine pairwise_cons.mpr ⟨?_, h⟩
      intro j hj
      rcases mem_cons.mp hj with rfl | hj
      · exact h1
      · exact h1.trans (hlt j hj)
    · subst h2
      exact h
    · refine pairwise_cons.mpr ⟨?_, ih hrest⟩
      intro j hj
      rcases (mem_keys_insertEntry k j v rest).mp hj with rfl | hj
      · exact lt_of_le_of_ne (not_lt.mp h1) (Ne.symm h2)
      · exact hlt j hj

def insert (m : SortedMap K V) (k : K) (v : V) : SortedMap K V :=
  ⟨m.entries.insertEntry k v, sorted_insertEntry k v _ m.sorted⟩

/-- Insert the pairs of a list from left to right: a later pair replaces an
earlier one with the same key. -/
def ofList (l : List (K × V)) : SortedMap K V := l.foldl (fun m e => m.insert e.1 e.2) ∅

def keys (m : SortedMap K V) : List K := m.entries.map Prod.fst

@[simp] theorem find?_empty : (∅ : SortedMap K V).find? k = none := rfl

theorem assoc_insertEntry : (l.insertEntry k v).assoc j = if j = k then some v else l.assoc j := by
  induction l with
  | nil => simp [List.insertEntry, List.assoc]
  | cons e rest ih =>
    obtain ⟨k', v'⟩ := e
    simp only [List.insertEntry]
    by_cases h1 : k < k'
    · simp only [h1, if_true, List.assoc]
    · by_cases h2 : k = k'
      · subst h2
        by_cases hj : j = k <;> simp [List.assoc, hj]
      · simp only [h1, h2, if_false, List.assoc, ih]
        by_cases hj : j = k'
        · have hne : j ≠ k := fun he => h2 (he.symm.trans hj)
          simp only [hj, if_true, if_neg (hj ▸ hne)]
        · simp only [hj, if_false]

@[simp] theorem find?_insert : (m.insert k v).find? j = if j = k then some v else m.find? j :=
  assoc_insertEntry k j v m.entries

theorem find?_insert_self : (m.insert k v).find? k = some v := by simp

theorem find?_insert_ne (h : j ≠ k) : (m.insert k v).find? j = m.find? j := by simp [h]

theorem assoc_eq_none_iff : l.assoc k = none ↔ k ∉ l.map Prod.fst := by
  induction l with
  | nil => simp [List.assoc]
  | cons e rest ih =>
    simp only [List.assoc, map_cons, mem_cons, not_or]
    split_ifs with h
    · simp [h]
    · simp [h, ih]

theorem assoc_eq_some_iff (h : (l.map Prod.fst).Pairwise (· < ·)) (k : K) (v : V) :
    l.assoc k = some v ↔ (k, v) ∈ l := by
  induction l with
  | nil => simp [List.assoc]
  | cons e rest ih =>
    obtain ⟨k', v'⟩ := e
    obtain ⟨hlt, hrest⟩ := pairwise_cons.mp h
    simp only [List.assoc, mem_cons, Prod.mk.injEq]
    split_ifs with he
    · subst he
      have hn : (k, v) ∉ rest := fun hm =>
        lt_irrefl k (hlt k (mem_map_of_mem (f := Prod.fst) hm))
      simp [hn, eq_comm]
    · rw [ih hrest]
      simp [he]

theorem find?_eq_some_iff :
    m.find? k = some v ↔ (k, v) ∈ m.entries := assoc_eq_some_iff m.entries m.sorted k v

theorem find?_eq_none_iff : m.find? k = none ↔ k ∉ m.keys :=
  assoc_eq_none_iff k m.entries

theorem ext_find? (m m' : SortedMap K V) (h : ∀ k, m.find? k = m'.find? k) : m = m' := by
  have hmem (e : K × V) : e ∈ m.entries ↔ e ∈ m'.entries := by
    rw [← find?_eq_some_iff, ← find?_eq_some_iff, h]
  have hperm : m.entries.Perm m'.entries := by
    apply (perm_ext_iff_of_nodup ?_ ?_).mpr hmem
    · exact List.Nodup.of_map _ (m.sorted.imp (fun h => h.ne))
    · exact List.Nodup.of_map _ (m'.sorted.imp (fun h => h.ne))
  have hs (a : SortedMap K V) : a.entries.Pairwise (fun x y => x.1 < y.1) :=
    pairwise_map.mp a.sorted
  have he : m.entries = m'.entries :=
    hperm.eq_of_pairwise (fun x y _ _ hxy hyx => absurd (hxy.trans hyx) (lt_irrefl _)) (hs m) (hs m')
  cases m
  cases m'
  simpa using he

theorem find?_foldl_insert (hl : (l.map Prod.fst).Pairwise (· < ·)) (m : SortedMap K V) (k : K) :
    (l.foldl (fun m e => m.insert e.1 e.2) m).find? k = (l.assoc k).or (m.find? k) := by
  induction l generalizing m with
  | nil => simp [List.assoc]
  | cons e rest ih =>
    obtain ⟨hlt, hrest⟩ := pairwise_cons.mp hl
    rw [foldl_cons, ih hrest, find?_insert]
    simp only [List.assoc]
    by_cases hk : k = e.1
    · have hnone : rest.assoc k = none :=
        (assoc_eq_none_iff k rest).mpr (fun hm => lt_irrefl k (hk ▸ hlt k hm))
      simp only [hnone, if_pos hk, Option.none_or, Option.some_or]
    · simp only [if_neg hk]

theorem ofList_entries : ofList m.entries = m := by
  apply ext_find?
  intro k
  rw [ofList, find?_foldl_insert m.entries m.sorted, find?_empty, Option.or_none]
  rfl

section Sums

variable {M : Type*} [AddCommMonoid M]

/-- A sum over the entries as a sum over any finite set of keys that covers
them, a missing key contributing nothing. -/
theorem sum_entries (f : V → M) (S : Finset K) (hS : ∀ k ∈ m.keys, k ∈ S) :
    (m.entries.map (fun e => f e.2)).sum = ∑ k ∈ S, ((m.find? k).map f).getD 0 := by
  have hk : ∑ k ∈ S, ((m.find? k).map f).getD 0 =
      ∑ k ∈ m.keys.toFinset, ((m.find? k).map f).getD 0 := by
    symm
    apply Finset.sum_subset
    · intro k hk
      exact hS k (mem_toFinset.mp hk)
    · intro k _ hn
      rw [(find?_eq_none_iff m k).mpr (fun h => hn (mem_toFinset.mpr h))]
      rfl
  have hnd : m.keys.Nodup := m.sorted.imp (fun h => h.ne)
  rw [hk, sum_toFinset _ hnd, keys, map_map]
  congr 1
  apply map_congr_left
  intro e he
  have hf := (find?_eq_some_iff m e.1 e.2).mpr he
  simp only [Function.comp, hf, Option.map_some, Option.getD_some]

theorem sum_entries_congr (m' : SortedMap K V) (f : V → M)
    (h : ∀ k, ((m.find? k).map f).getD 0 = ((m'.find? k).map f).getD 0) :
    (m.entries.map (fun e => f e.2)).sum = (m'.entries.map (fun e => f e.2)).sum := by
  rw [sum_entries m f (m.keys.toFinset ∪ m'.keys.toFinset),
    sum_entries m' f (m.keys.toFinset ∪ m'.keys.toFinset)]
  · exact Finset.sum_congr rfl (fun k _ => h k)
  · intro k hk
    exact Finset.mem_union_right _ (mem_toFinset.mpr hk)
  · intro k hk
    exact Finset.mem_union_left _ (mem_toFinset.mpr hk)

end Sums

end SortedMap
