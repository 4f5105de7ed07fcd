import Mathlib.Data.List.Basic
import Mathlib.Data.List.Nodup
import Mathlib.Data.List.Lex
import Mathlib.Algebra.BigOperators.Group.List.Basic

/-! Texts cut into words. A dictionary is a predicate on words; a path is a list of words, and it
tiles the text that its words make up. The tilings of a text are enumerated with the longest word
first, and a search that stops after a number of results finds the first ones of them. -/
namespace WordTiling
open List

section Capped
variable {ι β : Type*}

theorem foldl_capped {cap : ℕ} (round : List β → ι → List β) (found : ι → List β)
    (h : ∀ acc i, round acc i = acc ++ (found i).take (cap-acc.length)) (is : List ι)
    (acc : List β) : is.foldl round acc = acc ++ (is.flatMap found).take (cap-acc.length) := by
  induction is generalizing acc with
  | nil => rw [foldl_nil, flatMap_nil, take_nil, append_nil]
  | cons i is ih =>
    have hroom : cap-(acc ++ (found i).take (cap-acc.length)).length =
        cap-acc.length-(found i).length := by
      rw [length_append, length_take]
      omega
    rw [foldl_cons, ih, h acc i, hroom, flatMap_cons, take_append, append_assoc]

end Capped

section Tilings
variable {α : Type*}

/-- The words of the path are in the dictionary and make up the text. -/
structure Tiles (word : List α → Bool) (path : List (List α)) (text : List α) : Prop where
  words : ∀ w ∈ path, word w = true
  flatten : path.flatten = text

def lengths (n : ℕ) : List ℕ := (List.range n).map (n-·)

theorem mem_lengths (n k : ℕ) : k ∈ lengths n ↔ 1 ≤ k ∧ k ≤ n := by
  rw [lengths, mem_map]
  constructor
  · rintro ⟨i, hi, rfl⟩
    have := mem_range.mp hi
    omega
  · intro h
    exact ⟨n-k, mem_range.mpr (by omega), by omega⟩

theorem lengths_pairwise (n : ℕ) : (lengths n).Pairwise (fun k l => l < k) := by
  rw [lengths, pairwise_map]
  refine pairwise_lt_range.imp_of_mem (fun {i j} _ hj hij => ?_)
  have := mem_range.mp hj
  omega

/-- The tilings of a text with at most `room` words, of which none is longer than `longest`. -/
def tilings (word : List α → Bool) (longest : ℕ) (room : ℕ) (text : List α) :
    List (List (List α)) :=
  match text, room with
  | [], _ => [[]]
  | _ :: _, 0 => []
  | a :: rest, room+1 => (lengths (min longest (a :: rest).length)).flatMap (fun n =>
      if word ((a :: rest).take n) then
        (tilings word longest room ((a :: rest).drop n)).map ((a :: rest).take n :: ·)
      else [])

/-- The order of the search: at the first word that differs the longer one comes first. -/
def LongestFirst : List (List α) → List (List α) → Prop := List.Lex (fun v w => w.length < v.length)

variable (word : List α → Bool) (longest : ℕ)

theorem tilings_nil (room : ℕ) : tilings word longest room [] = [[]] := by
  rw [tilings]

variable {text : List α}

theorem tilings_zero (h : text ≠ []) : tilings word longest 0 text = [] := by
  cases text with
  | nil => exact absurd rfl h
  | cons a rest => rw [tilings]

theorem tilings_succ (room : ℕ) (h : text ≠ []) :
    tilings word longest (room+1) text = (lengths (min longest text.length)).flatMap (fun n =>
      if word (text.take n) then
        (tilings word longest room (text.drop n)).map (text.take n :: ·)
      else []) := by
  cases text with
  | nil => exact absurd rfl h
  | cons a rest => rw [tilings]

theorem mem_tilings_succ (room : ℕ) (h : text ≠ []) (path : List (List α)) :
    path ∈ tilings word longest (room+1) text ↔ ∃ n p, (1 ≤ n ∧ n ≤ min longest text.length) ∧
      word (text.take n) = true ∧ p ∈ tilings word longest room (text.drop n) ∧
      path = text.take n :: p := by
  rw [tilings_succ word longest room h, mem_flatMap]
  constructor
  · rintro ⟨n, hn, hpath⟩
    by_cases hword : word (text.take n) = true
    · rw [if_pos hword] at hpath
      obtain ⟨p, hp, rfl⟩ := mem_map.mp hpath
      exact ⟨n, p, (mem_lengths _ n).mp hn, hword, hp, rfl⟩
    · rw [if_neg hword] at hpath
      cases hpath
  · rintro ⟨n, p, hn, hword, hp, rfl⟩
    refine ⟨n, (mem_lengths _ n).mpr hn, ?_⟩
    rw [if_pos hword]
    exact mem_map_of_mem hp

/-- A dictionary without the empty word, and with no word above the length. -/
structure Bounded : Prop where
  nonempty : word [] = false
  short : ∀ w, word w = true → w.length ≤ longest

variable {word longest}

theorem Tiles.ne_nil (hb : Bounded word longest) {path : List (List α)} (h : Tiles word path text)
    (w : List α) (hw : w ∈ path) : w ≠ [] := by
  rintro rfl
  exact absurd (h.words [] hw) (by rw [hb.nonempty]; exact Bool.false_ne_true)

theorem mem_tilings_nil (hb : Bounded word longest) {room : ℕ} {path : List (List α)} :
    path ∈ tilings word longest room [] ↔ Tiles word path [] ∧ path.length ≤ room := by
  rw [tilings_nil, mem_singleton]
  constructor
  · rintro rfl
    exact ⟨⟨fun w hw => absurd hw not_mem_nil, rfl⟩, Nat.zero_le _⟩
  · rintro ⟨h, -⟩
    -- a word of the path would be empty
    apply eq_nil_iff_forall_not_mem.mpr
    intro w hw
    exact h.ne_nil hb w hw (flatten_eq_nil_iff.mp h.flatten w hw)

theorem mem_tilings (hb : Bounded word longest) (room : ℕ) (text : List α)
    (path : List (List α)) :
    path ∈ tilings word longest room text ↔ Tiles word path text ∧ path.length ≤ room := by
  induction room generalizing text path with
  | zero =>
    by_cases htext : text = []
    · exact htext ▸ mem_tilings_nil hb
    rw [tilings_zero word longest htext, Nat.le_zero, length_eq_zero_iff]
    refine ⟨fun h => absurd h not_mem_nil, ?_⟩
    rintro ⟨h, rfl⟩
    exact absurd h.flatten.symm htext
  | succ room ih =>
    by_cases htext : text = []
    · exact htext ▸ mem_tilings_nil hb
    rw [mem_tilings_succ word longest room htext]
    constructor
    · rintro ⟨n, p, hn, hword, hp, rfl⟩
      obtain ⟨htiles, hlen⟩ := (ih (text.drop n) p).mp hp
      refine ⟨⟨?_, ?_⟩, Nat.succ_le_succ hlen⟩
      · intro w hw
        rcases mem_cons.mp hw with rfl | hw
        · exact hword
        · exact htiles.words w hw
      · rw [flatten_cons, htiles.flatten, take_append_drop]
    · rintro ⟨h, hlen⟩
      cases path with
      | nil => exact absurd h.flatten.symm htext
      | cons w path =>
        have hflat := h.flatten
        rw [flatten_cons] at hflat
        have hw := h.words w mem_cons_self
        have hne := length_pos_iff.mpr (h.ne_nil hb w mem_cons_self)
        have htake : text.take w.length = w := by rw [← hflat, take_left]
        have hdrop : text.drop w.length = path.flatten := by rw [← hflat, drop_left]
        have hle : w.length ≤ text.length := by
          rw [← hflat, length_append]
          exact Nat.le_add_right _ _
        refine ⟨w.length, path, ⟨hne, le_min (hb.short w hw) hle⟩, ?_, ?_, ?_⟩
        · rw [htake]
          exact hw
        · rw [hdrop]
          exact (ih _ path).mpr
            ⟨⟨(forall_mem_cons.mp h.words).2, rfl⟩, Nat.le_of_succ_le_succ hlen⟩
        · rw [htake]

theorem tilings_pairwise (room : ℕ) (text : List α) :
    (tilings word longest room text).Pairwise LongestFirst := by
  induction room generalizing text with
  | zero => cases text <;> simp [tilings]
  | succ room ih =>
    by_cases htext : text = []
    · rw [htext, tilings_nil]
      exact pairwise_singleton _ _
    rw [tilings_succ word longest room htext, pairwise_flatMap]
    constructor
    · intro n _
      split_ifs
      · -- the same first word: the order of what follows
        exact pairwise_map.mpr ((ih (text.drop n)).imp (fun h => List.Lex.cons h))
      · exact List.Pairwise.nil
    · refine (lengths_pairwise _).imp_of_mem (fun {n k} hn hk hlt x hx y hy => ?_)
      have hn' := (mem_lengths _ n).mp hn
      have hk' := (mem_lengths _ k).mp hk
      split_ifs at hx hy
      · obtain ⟨p, -, rfl⟩ := mem_map.mp hx
        obtain ⟨q, -, rfl⟩ := mem_map.mp hy
        refine List.Lex.rel ?_
        rw [length_take, length_take]
        omega
      all_goals grind

theorem longestFirst_irrefl (path : List (List α)) : ¬LongestFirst path path := by
  intro h
  induction path with
  | nil => cases h
  | cons w path ih =>
    cases h with
    | rel h => exact lt_irrefl _ h
    | cons h => exact ih h

theorem tilings_nodup {room : ℕ} : (tilings word longest room text).Nodup := by
  refine List.Pairwise.imp ?_ (tilings_pairwise room text)
  rintro p q h rfl
  exact longestFirst_irrefl p h

theorem append_inj_of_flatten (p q s t : List (List α)) (hp : ∀ w ∈ p, w ≠ [])
    (hq : ∀ w ∈ q, w ≠ []) (hflat : p.flatten = q.flatten) (h : p ++ s = q ++ t) :
    p = q ∧ s = t := by
  induction p generalizing q with
  | nil =>
    have hnil : q = [] := by
      cases q with
      | nil => rfl
      | cons w q =>
        have hw := flatten_eq_nil_iff.mp hflat.symm w mem_cons_self
        exact absurd hw (hq w mem_cons_self)
    rw [hnil] at h ⊢
    exact ⟨rfl, h⟩
  | cons w p ih =>
    cases q with
    | nil =>
      have hw := flatten_eq_nil_iff.mp hflat w mem_cons_self
      exact absurd hw (hp w mem_cons_self)
    | cons v q =>
      rw [cons_append, cons_append, List.cons.injEq] at h
      obtain ⟨rfl, h⟩ := h
      rw [flatten_cons, flatten_cons, append_cancel_left_eq] at hflat
      obtain ⟨rfl, hst⟩ := ih q (forall_mem_cons.mp hp).2
        (forall_mem_cons.mp hq).2 hflat h
      exact ⟨rfl, hst⟩

end Tilings

section Parts
variable {α : Type*}

/-- Every path continued with every tail, without those that get too long, and at most `cap` of
them. -/
def extend (cap room : ℕ) (paths tails : List (List α)) : List (List α) :=
  ((paths.flatMap (fun start => tails.map (start ++ ·))).filter
    (fun path => decide (path.length ≤ room))).take cap

variable {cap room : ℕ}

variable {paths tails : List (List α)} {choices : List (List (List α))}

variable {path : List α}

theorem mem_of_mem_product (h : path ∈ paths.flatMap (fun start => tails.map (start ++ ·))) :
    ∃ start ∈ paths, ∃ tail ∈ tails, path = start ++ tail := by
  obtain ⟨start, hstart, hpath⟩ := mem_flatMap.mp h
  obtain ⟨tail, htail, rfl⟩ := mem_map.mp hpath
  exact ⟨start, hstart, tail, htail, rfl⟩

theorem mem_of_mem_extend (h : path ∈ extend cap room paths tails) :
    path.length ≤ room ∧ ∃ start ∈ paths, ∃ tail ∈ tails, path = start ++ tail := by
  obtain ⟨hmem, hlen⟩ := mem_filter.mp (mem_of_mem_take h)
  exact ⟨of_decide_eq_true hlen, mem_of_mem_product hmem⟩

theorem length_product (paths tails : List (List α)) :
    (paths.flatMap (fun start => tails.map (start ++ ·))).length = paths.length*tails.length := by
  induction paths with
  | nil => rw [flatMap_nil, length_nil, Nat.zero_mul]
  | cons start paths ih =>
    rw [flatMap_cons, length_append, length_map, ih, length_cons, Nat.succ_mul,
      Nat.add_comm]

theorem length_extend :
    (extend cap room paths tails).length ≤ paths.length*tails.length := by
  rw [← length_product, extend]
  exact (length_take_le' _ _).trans (length_filter_le _ _)

theorem extend_length_le :
    (extend cap room paths tails).length ≤ cap := length_take_le _ _

theorem mem_extend (hcap : paths.length*tails.length ≤ cap) {start tail : List α}
    (hstart : start ∈ paths) (htail : tail ∈ tails) (hroom : (start ++ tail).length ≤ room) :
    start ++ tail ∈ extend cap room paths tails := by
  have hall : ((paths.flatMap (fun start => tails.map (start ++ ·))).filter
      (fun path => decide (path.length ≤ room))).length ≤ cap := by
    refine (length_filter_le _ _).trans ?_
    rw [length_product]
    exact hcap
  rw [extend, take_of_length_le hall, mem_filter]
  refine ⟨mem_flatMap.mpr ⟨start, hstart, mem_map_of_mem htail⟩, ?_⟩
  exact decide_eq_true hroom

theorem parts_of_mem_foldl {round : List (List α) → List (List α) → List (List α)}
    (hround : ∀ paths tails, ∀ path ∈ round paths tails,
      ∃ start ∈ paths, ∃ tail ∈ tails, path = start ++ tail)
    (h : path ∈ choices.foldl round paths) :
    ∃ start ∈ paths, ∃ parts, List.Forall₂ (· ∈ ·) parts choices ∧
      path = start ++ parts.flatten := by
  induction choices generalizing paths with
  | nil => exact ⟨path, h, [], List.Forall₂.nil, by rw [flatten_nil, append_nil]⟩
  | cons tails choices ih =>
    obtain ⟨start, hstart, parts, hparts, rfl⟩ := ih h
    obtain ⟨first, hfirst, tail, htail, rfl⟩ := hround paths tails start hstart
    refine ⟨first, hfirst, tail :: parts, List.Forall₂.cons htail hparts, ?_⟩
    rw [flatten_cons, append_assoc]

theorem prod_pos_of_parts {parts : List (List α)} (h : List.Forall₂ (· ∈ ·) parts choices) :
    1 ≤ (choices.map List.length).prod := by
  induction h with
  | nil => exact le_rfl
  | cons hmem _ ih =>
    rw [map_cons, prod_cons]
    exact Nat.mul_pos (length_pos_of_mem hmem) ih

theorem mem_foldl_of_parts {start : List α} {parts : List (List α)}
    (hcap : paths.length*(choices.map List.length).prod ≤ cap) (hstart : start ∈ paths)
    (hparts : List.Forall₂ (· ∈ ·) parts choices) (hroom : (start ++ parts.flatten).length ≤ room) :
    start ++ parts.flatten ∈ choices.foldl (extend cap room) paths := by
  induction hparts generalizing paths start with
  | nil =>
    rw [flatten_nil, append_nil]
    exact hstart
  | cons htail hparts ih =>
    rename_i tail tails parts choices
    rw [map_cons, prod_cons, ← Nat.mul_assoc] at hcap
    -- every later list has a member, so the product of this round is within the cap as well
    have hround : paths.length*tails.length ≤ cap :=
      (Nat.le_mul_of_pos_right _ (prod_pos_of_parts hparts)).trans hcap
    rw [flatten_cons, ← append_assoc] at hroom ⊢
    have hshort : (start ++ tail).length ≤ room := by
      rw [length_append] at hroom
      exact (Nat.le_add_right _ _).trans hroom
    apply ih
    · exact (Nat.mul_le_mul_right _ (length_extend)).trans hcap
    · exact mem_extend hround hstart htail hshort
    · exact hroom

theorem foldl_extend_bounds (room : ℕ) (choices : List (List (List α))) (paths : List (List α))
    (hcap : paths.length ≤ cap) (hroom : ∀ path ∈ paths, path.length ≤ room) :
    (choices.foldl (extend cap room) paths).length ≤ cap ∧
      ∀ path ∈ choices.foldl (extend cap room) paths, path.length ≤ room := by
  induction choices generalizing paths with
  | nil => exact ⟨hcap, hroom⟩
  | cons tails choices ih =>
    exact ih _ (extend_length_le) (fun path h => (mem_of_mem_extend h).1)

structure Distinct (paths : List (List (List α))) (text : List α) : Prop where
  nodup : paths.Nodup
  nonempty : ∀ path ∈ paths, ∀ w ∈ path, w ≠ []
  flatten : ∀ path ∈ paths, path.flatten = text

theorem Distinct.extend {paths tails : List (List (List α))} {text more : List α}
    (hp : Distinct paths text) (ht : Distinct tails more) :
    Distinct (extend cap room paths tails) (text ++ more) where
  nodup := by
    have hall : (paths.flatMap (fun start => tails.map (start ++ ·))).Nodup := by
      rw [nodup_flatMap]
      constructor
      · intro start _
        exact ht.nodup.map (fun _ _ h => append_cancel_left h)
      · refine hp.nodup.imp_of_mem (fun {p q} hpm hqm hne => ?_)
        intro path hpath hpath'
        obtain ⟨s, -, rfl⟩ := mem_map.mp hpath
        obtain ⟨t, -, heq⟩ := mem_map.mp hpath'
        have hflat := (hp.flatten q hqm).trans (hp.flatten p hpm).symm
        exact hne (append_inj_of_flatten q p t s (hp.nonempty q hqm) (hp.nonempty p hpm) hflat
          heq).1.symm
    exact (hall.filter _).sublist (take_sublist _ _)
  nonempty := by
    intro path hpath w hw
    obtain ⟨-, start, hstart, tail, htail, rfl⟩ := mem_of_mem_extend hpath
    rcases mem_append.mp hw with hw | hw
    · exact hp.nonempty start hstart w hw
    · exact ht.nonempty tail htail w hw
  flatten := by
    intro path hpath
    obtain ⟨-, start, hstart, tail, htail, rfl⟩ := mem_of_mem_extend hpath
    rw [flatten_append, hp.flatten start hstart, ht.flatten tail htail]

theorem Distinct.foldl {choices : List (List (List (List α)))} {texts : List (List α)}
    (h : List.Forall₂ Distinct choices texts) {paths : List (List (List α))} {text : List α}
    (hp : Distinct paths text) :
    Distinct (choices.foldl (WordTiling.extend cap room) paths) (text ++ texts.flatten) := by
  induction h generalizing paths text with
  | nil =>
    rw [flatten_nil, append_nil]
    exact hp
  | cons htails _ ih =>
    rw [flatten_cons, ← append_assoc]
    exact ih (hp.extend htails)

end Parts
end WordTiling
