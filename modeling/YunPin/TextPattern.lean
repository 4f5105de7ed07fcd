import Mathlib.Data.List.Infix
import Mathlib.Data.List.Flatten

/-! Regular expressions with assertions about the neighbouring characters, as backtracking
matchers have them, and a search that decides whether some part of a text matches. -/
namespace TextPattern
open List
variable {α : Type}

/-- A place in a text: the character before it, if there is one, and the text after it. -/
abbrev Place (α : Type) := Option α × List α

inductive Pattern (α : Type) where
  | empty
  | one (p : α → Bool)
  /-- An assertion about the characters before and after a place. -/
  | look (p : Option α → Option α → Bool)
  | seq (a b : Pattern α)
  | alt (a b : Pattern α)
  | many (a : Pattern α)

namespace Pattern

/-- A match that starts at the first place and ends at the second. -/
inductive Matches : Pattern α → Place α → Place α → Prop
  | empty (q : Place α) : Matches .empty q q
  | one {p : α → Bool} (before : Option α) {c : α} (rest : List α) (h : p c = true) :
      Matches (.one p) (before, c :: rest) (some c, rest)
  | look {p : Option α → Option α → Bool} (q : Place α) (h : p q.1 q.2.head? = true) :
      Matches (.look p) q q
  | seq {a b : Pattern α} {q q' q'' : Place α} (ha : Matches a q q') (hb : Matches b q' q'') :
      Matches (.seq a b) q q''
  | left {a b : Pattern α} {q q' : Place α} (h : Matches a q q') : Matches (.alt a b) q q'
  | right {a b : Pattern α} {q q' : Place α} (h : Matches b q q') : Matches (.alt a b) q q'
  | stop {a : Pattern α} (q : Place α) : Matches (.many a) q q
  | more {a : Pattern α} {q q' q'' : Place α} (ha : Matches a q q')
      (hs : Matches (.many a) q' q'') : Matches (.many a) q q''

/-- At most `n` rounds of a step. A round that consumes nothing reaches no new place. -/
def rounds (step : Place α → List (Place α)) : ℕ → Place α → List (Place α)
  | 0, q => [q]
  | n+1, q => q :: (step q).flatMap (fun q' =>
      if q'.2.length < q.2.length then rounds step n q' else [])

def ends : Pattern α → Place α → List (Place α)
  | .empty, q => [q]
  | .one _, (_, []) => []
  | .one p, (_, c :: rest) => if p c then [(some c, rest)] else []
  | .look p, q => if p q.1 q.2.head? then [q] else []
  | .seq a b, q => (a.ends q).flatMap b.ends
  | .alt a b, q => a.ends q ++ b.ends q
  | .many a, q => rounds a.ends q.2.length q

def searchFrom (r : Pattern α) (before : Option α) : List α → Bool
  | [] => !(r.ends (before, [])).isEmpty
  | c :: rest => !(r.ends (before, c :: rest)).isEmpty || r.searchFrom (some c) rest

def search (r : Pattern α) (s : List α) : Bool := r.searchFrom none s

def opt (r : Pattern α) : Pattern α := .alt r .empty

def some1 (r : Pattern α) : Pattern α := .seq r (.many r)

def times : ℕ → Pattern α → Pattern α
  | 0, _ => .empty
  | n+1, r => .seq r (times n r)

def upTo : ℕ → Pattern α → Pattern α
  | 0, _ => .empty
  | n+1, r => .opt (.seq r (upTo n r))

def atLeast (n : ℕ) (r : Pattern α) : Pattern α := .seq (times n r) (.many r)

def seqs : List (Pattern α) → Pattern α
  | [] => .empty
  | r :: rest => .seq r (seqs rest)

def alts : List (Pattern α) → Pattern α
  | [] => .one (fun _ => false)
  | r :: rest => .alt r (alts rest)

variable {S : α → Prop} {r : Pattern α} {q q' : Place α}

theorem Matches.suffix (h : Matches r q q') : q'.2 <:+ q.2 := by
  induction h with
  | empty q | look q h | stop q => exact suffix_rfl
  | one before rest h => exact suffix_cons _ _
  | seq _ _ iha ihb => exact ihb.trans iha
  | left _ ih => exact ih
  | right _ ih => exact ih
  | more _ _ iha ihs => exact ihs.trans iha

theorem Matches.eq_of_length (h : Matches r q q') (hlen : q'.2.length = q.2.length) : q' = q := by
  induction h with
  | empty q => rfl
  | one before rest h =>
    simp only [length_cons] at hlen
    omega
  | look q h => rfl
  | seq ha hb iha ihb =>
    have hm := ha.suffix.length_le
    have hm' := hb.suffix.length_le
    rw [ihb (by omega), iha (by omega)]
  | left _ ih => exact ih hlen
  | right _ ih => exact ih hlen
  | stop q => rfl
  | more ha hs iha ihs =>
    have hm := ha.suffix.length_le
    have hm' := hs.suffix.length_le
    rw [ihs (by omega), iha (by omega)]

variable {a : Pattern α} {step : Place α → List (Place α)} {n : ℕ} {l : List (Pattern α)}

theorem matches_of_mem_rounds (hstep : ∀ q, ∀ q' ∈ step q, Matches a q q') (q q' : Place α)
    (h : q' ∈ rounds step n q) : Matches (.many a) q q' := by
  induction n generalizing q with
  | zero =>
    rw [rounds, mem_singleton] at h
    subst h
    exact .stop q'
  | succ n ih =>
    rcases mem_cons.mp h with he | h
    · subst he
      exact .stop q'
    · obtain ⟨m, hm, hq'⟩ := mem_flatMap.mp h
      split at hq'
      · exact .more (hstep q m hm) (ih m hq')
      · cases hq'

theorem matches_of_mem_ends (r : Pattern α) (q q' : Place α) (h : q' ∈ r.ends q) :
    Matches r q q' := by
  induction r generalizing q q' with
  | empty =>
    rw [ends, mem_singleton] at h
    exact h ▸ .empty q
  | one p =>
    obtain ⟨before, _ | ⟨c, rest⟩⟩ := q
    · cases h
    · rw [ends] at h
      split at h
      · next hp =>
        rw [mem_singleton] at h
        exact h ▸ .one before rest hp
      · cases h
  | look p =>
    rw [ends] at h
    split at h
    · next hp =>
      rw [mem_singleton] at h
      exact h ▸ .look q hp
    · cases h
  | seq a b iha ihb =>
    obtain ⟨m, hm, hq'⟩ := mem_flatMap.mp h
    exact .seq (iha q m hm) (ihb m q' hq')
  | alt a b iha ihb =>
    rcases mem_append.mp h with h | h
    · exact .left (iha q q' h)
    · exact .right (ihb q q' h)
  | many a ih => exact matches_of_mem_rounds ih q q' h

theorem mem_rounds_of_matches (hstep : ∀ q q', Matches a q q' → q' ∈ step q) (h : Matches r q q')
    (hr : r = .many a) (n : ℕ) (hn : q.2.length ≤ n) :
    q' ∈ rounds step n q := by
  induction h generalizing n with
  | stop q => cases n <;> simp [rounds]
  | @more b q m q' ha hs _ ihs =>
    obtain rfl : b = a := by injection hr
    have hlen := ha.suffix.length_le
    rcases Nat.lt_or_ge m.2.length q.2.length with hlt | hge
    · obtain ⟨n, rfl⟩ : ∃ k, n = k+1 := ⟨n-1, by omega⟩
      rw [rounds]
      refine mem_cons_of_mem _ (mem_flatMap.mpr ⟨m, hstep q m ha, ?_⟩)
      rw [if_pos hlt]
      exact ihs rfl n (by omega)
    · obtain rfl := ha.eq_of_length (by omega)
      exact ihs rfl n hn
  | _ => cases hr

theorem mem_ends_iff (r : Pattern α) (q q' : Place α) : q' ∈ r.ends q ↔ Matches r q q' := by
  refine ⟨matches_of_mem_ends r q q', fun h => ?_⟩
  induction r generalizing q q' with
  | empty =>
    cases h
    exact mem_singleton_self _
  | one p =>
    cases h with
    | one before rest hp => rw [ends, if_pos hp, mem_singleton]
  | look p =>
    cases h with
    | look _ hp => rw [ends, if_pos hp, mem_singleton]
  | seq a b iha ihb =>
    cases h with
    | seq ha hb => exact mem_flatMap.mpr ⟨_, iha _ _ ha, ihb _ _ hb⟩
  | alt a b iha ihb =>
    cases h with
    | left h => exact mem_append_left _ (iha _ _ h)
    | right h => exact mem_append_right _ (ihb _ _ h)
  | many a ih => exact mem_rounds_of_matches ih h rfl _ le_rfl

theorem searchFrom_iff (r : Pattern α) (before : Option α) (s : List α) :
    r.searchFrom before s = true ↔
      ∃ l m, s = l ++ m ∧ ∃ q, Matches r ((l.getLast?).or before, m) q := by
  have hhere (b : Option α) (m : List α) :
      (!(r.ends (b, m)).isEmpty) = true ↔ ∃ q, Matches r (b, m) q := by
    simp only [← mem_ends_iff, Bool.not_eq_true', isEmpty_eq_false_iff_exists_mem]
  induction s generalizing before with
  | nil =>
    rw [searchFrom, hhere]
    constructor
    · exact fun h => ⟨[], [], rfl, h⟩
    · rintro ⟨l, m, hs, h⟩
      obtain ⟨rfl, rfl⟩ := append_eq_nil_iff.mp hs.symm
      exact h
  | cons c rest ih =>
    rw [searchFrom, Bool.or_eq_true, hhere]
    refine (or_congr_right (ih (some c))).trans ?_
    constructor
    · rintro (h | ⟨l, m, rfl, h⟩)
      · exact ⟨[], c :: rest, rfl, h⟩
      · refine ⟨c :: l, m, rfl, ?_⟩
        rw [getLast?_cons]
        cases hl : l.getLast? <;> simpa [hl] using h
    · rintro ⟨_ | ⟨d, l⟩, m, hs, h⟩
      · exact .inl (hs ▸ h)
      · obtain ⟨rfl, rfl⟩ := List.cons.inj hs
        refine .inr ⟨l, m, rfl, ?_⟩
        rw [getLast?_cons] at h
        cases hl : l.getLast? <;> simpa [hl] using h

theorem search_iff (r : Pattern α) (s : List α) : r.search s = true ↔
    ∃ l m, s = l ++ m ∧ ∃ q, Matches r (l.getLast?, m) q := by
  rw [search, searchFrom_iff]
  simp only [Option.or_none]

def Blocked (S : α → Prop) : Pattern α → Prop
  | .one p => ∀ c, S c → p c = false
  | .seq a b => a.Blocked S ∨ b.Blocked S
  | .alt a b => a.Blocked S ∧ b.Blocked S
  | _ => False

theorem Matches.not_blocked (h : Matches r q q') (hS : ∀ c ∈ q.2, S c) : ¬r.Blocked S := by
  induction h with
  | one before rest h =>
    intro hb
    rw [hb _ (hS _ mem_cons_self)] at h
    cases h
  | seq ha hb iha ihb =>
    rintro (h | h)
    · exact iha hS h
    · exact ihb (fun c hc => hS c (ha.suffix.subset hc)) h
  | left h ih => exact fun hb => ih hS hb.1
  | right h ih => exact fun hb => ih hS hb.2
  | _ => exact id

theorem search_of_blocked (S : α → Prop) (h : r.Blocked S) {s : List α} (hS : ∀ c ∈ s, S c) :
    r.search s = false := by
  rw [← Bool.not_eq_true, search_iff]
  rintro ⟨l, m, rfl, q, hm⟩
  exact hm.not_blocked (fun c hc => hS c (mem_append_right l hc)) h

theorem blocked_times (h : r.Blocked S) : (times (n+1) r).Blocked S := .inl h

theorem blocked_atLeast (h : r.Blocked S) :
    (atLeast (n+1) r).Blocked S := .inl (blocked_times h)

theorem blocked_some1 (h : r.Blocked S) : (some1 r).Blocked S :=
  .inl h

theorem blocked_seqs (hr : r ∈ l) (h : r.Blocked S) : (seqs l).Blocked S := by
  induction l with
  | nil => cases hr
  | cons a l ih =>
    rcases mem_cons.mp hr with rfl | hr
    · exact .inl h
    · exact .inr (ih hr)

theorem blocked_alts (h : ∀ r ∈ l, r.Blocked S) : (alts l).Blocked S := by
  induction l with
  | nil => exact fun _ _ => rfl
  | cons a l ih =>
    exact ⟨h a mem_cons_self, ih (forall_mem_cons.mp h).2⟩

end Pattern
end TextPattern
