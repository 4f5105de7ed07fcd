import Mathlib

/-! Words with one separator between them. A text is read as letters, gaps and characters
that count for nothing; two readings of a text spell the same words exactly when they see
gaps between the same letters. -/
namespace SeparatedWords
open List Option
variable {α : Type*}

def spell (space : α) : (started pending : Bool) → List (Option α) → List α
  | _, _, [] => []
  | started, _, none :: rest => spell space started started rest
  | _, pending, some a :: rest =>
    (if pending then [space] else []) ++ a :: spell space true false rest

/-- A letter, a gap (`some none`), or nothing. -/
def piece (letter drop : α → Bool) (a : α) : Option (Option α) :=
  if letter a then some (some a) else if drop a then none else some none

def pieces (letter drop : α → Bool) (l : List α) : List (Option α) := l.filterMap (piece letter drop)

section Pieces
variable (letter drop : α → Bool)

theorem pieces_append (l m : List α) :
    pieces letter drop (l ++ m) = pieces letter drop l ++ pieces letter drop m :=
  filterMap_append

theorem pieces_cons_letter {a : α} (l : List α) (h : letter a = true) :
    pieces letter drop (a :: l) = some a :: pieces letter drop l := by
  simp [pieces, piece, h]

theorem pieces_cons_drop (a : α) (l : List α) (h : letter a = false) (hd : drop a = true) :
    pieces letter drop (a :: l) = pieces letter drop l := by
  simp [pieces, piece, h, hd]

theorem pieces_cons_gap {a : α} (l : List α) (h : letter a = false) (hd : drop a = false) :
    pieces letter drop (a :: l) = none :: pieces letter drop l := by
  simp [pieces, piece, h, hd]

theorem pieces_swap {a b : α} (l : List α) (ha : letter a = false) (hb : letter b = false) :
    pieces letter drop (a :: b :: l) = pieces letter drop (b :: a :: l) := by
  cases hda : drop a <;> cases hdb : drop b <;> simp [pieces, piece, ha, hb, hda, hdb]

theorem pieces_none {l : List α} (h : ∀ a ∈ l, letter a = false) :
    ∀ o ∈ pieces letter drop l, o = none := by
  intro o ho
  obtain ⟨a, ha, he⟩ := mem_filterMap.mp ho
  rw [piece, h a ha] at he
  simp only [Bool.false_eq_true, if_false] at he
  split_ifs at he
  exact (some.inj he).symm

end Pieces

section Spell
variable (space : α)

variable {g : List (Option α)}

theorem spell_none (started pending : Bool) (h : ∀ o ∈ g, o = none) :
    spell space started pending g = [] := by
  induction g generalizing pending with
  | nil => rfl
  | cons o g ih =>
    obtain rfl := h o mem_cons_self
    exact ih started (forall_mem_cons.mp h).2

theorem spell_append_none (started pending : Bool) {p : List (Option α)} (h : ∀ o ∈ g, o = none) :
    spell space started pending (p ++ g) = spell space started pending p := by
  induction p generalizing started pending with
  | nil => exact spell_none space started pending h
  | cons o p ih =>
    cases o with
    | none => exact ih started started
    | some a =>
      rw [cons_append, spell, spell, ih]

theorem spell_none_append {p : List (Option α)} (h : ∀ o ∈ g, o = none) :
    spell space false false (g ++ p) = spell space false false p := by
  induction g with
  | nil => rfl
  | cons o g ih =>
    obtain rfl := h o mem_cons_self
    exact ih (forall_mem_cons.mp h).2

theorem spell_ends (letter drop : α → Bool) {a m b : List α} (ha : ∀ x ∈ a, letter x = false)
    (hb : ∀ x ∈ b, letter x = false) :
    spell space false false (pieces letter drop (a ++ m ++ b)) =
      spell space false false (pieces letter drop m) := by
  rw [pieces_append, pieces_append, spell_append_none space _ _ (pieces_none letter drop hb),
    spell_none_append space (pieces_none letter drop ha)]

theorem spell_forall (letter drop : α → Bool) (P : α → Prop) (hspace : P space) {l : List α}
    (h : ∀ a ∈ l, letter a = true → P a) (started pending : Bool) :
    ∀ a ∈ spell space started pending (pieces letter drop l), P a := by
  have hpieces : ∀ o ∈ pieces letter drop l, ∀ a, o = some a → P a := by
    rintro o ho a rfl
    obtain ⟨b, hb, he⟩ := mem_filterMap.mp ho
    unfold piece at he
    split_ifs at he with hletter
    · obtain rfl := some.inj (some.inj he)
      exact h b hb hletter
    · cases some.inj he
  generalize pieces letter drop l = p at hpieces
  induction p generalizing started pending with
  | nil => simp [spell]
  | cons o p ih =>
    have ih' (started pending : Bool) :=
      ih started pending (forall_mem_cons.mp hpieces).2
    cases o with
    | none => exact ih' started started
    | some b =>
      intro a ha
      rw [spell, mem_append, mem_cons] at ha
      rcases ha with ha | rfl | ha
      · split_ifs at ha
        · rw [mem_singleton.mp ha]
          exact hspace
        · cases ha
      · exact hpieces _ mem_cons_self a rfl
      · exact ih' true false a ha

/-- Between two letters that follow one another, one reading has a gap when the other has. -/
def SameGaps (letter drop drop' : α → Bool) (l : List α) : Prop :=
  ∀ before x gap y after, l = before ++ x :: (gap ++ y :: after) → letter x = true →
    letter y = true → (∀ a ∈ gap, letter a = false) →
    ((∃ a ∈ gap, drop a = false) ↔ ∃ a ∈ gap, drop' a = false)

def SameStart (letter drop drop' : α → Bool) (started pending pending' : Bool) (l : List α) : Prop :=
  ∀ gap y after, l = gap ++ y :: after → letter y = true → (∀ a ∈ gap, letter a = false) →
    ((pending = true ∨ (started = true ∧ ∃ a ∈ gap, drop a = false)) ↔
      (pending' = true ∨ (started = true ∧ ∃ a ∈ gap, drop' a = false)))

variable (letter drop drop' : α → Bool) {a : α}

theorem sameGaps_of_eq {l : List α} (h : ∀ a ∈ l, drop a = drop' a) :
    SameGaps letter drop drop' l := by
  rintro before x gap y after rfl - - -
  have hgap (a : α) (ha : a ∈ gap) : drop a = drop' a := h a (by simp [ha])
  constructor
  · rintro ⟨a, ha, hdrop⟩
    exact ⟨a, ha, hgap a ha ▸ hdrop⟩
  · rintro ⟨a, ha, hdrop⟩
    exact ⟨a, ha, (hgap a ha).trans hdrop⟩

theorem sameGaps_cons_nonletter (l : List α) (h : letter a = false) :
    SameGaps letter drop drop' (a :: l) ↔ SameGaps letter drop drop' l := by
  constructor
  · intro hs before x gap y after hl
    exact hs (a :: before) x gap y after (by rw [hl, cons_append])
  · intro hs before x gap y after hl hx
    cases before with
    | nil =>
      rw [nil_append, List.cons.injEq] at hl
      rw [hl.1, hx] at h
      cases h
    | cons b before =>
      rw [cons_append, List.cons.injEq] at hl
      exact hs before x gap y after hl.2 hx

theorem sameGaps_cons_letter (l : List α) (h : letter a = true) :
    SameGaps letter drop drop' (a :: l) ↔
      SameStart letter drop drop' true false false l ∧ SameGaps letter drop drop' l := by
  constructor
  · intro hs
    constructor
    · intro gap y after hl hy hgap
      simpa using hs [] a gap y after (by rw [hl, nil_append]) h hy hgap
    · intro before x gap y after hl
      exact hs (a :: before) x gap y after (by rw [hl, cons_append])
  · rintro ⟨hstart, hs⟩ before x gap y after hl hx hy hgap
    cases before with
    | nil =>
      rw [nil_append, List.cons.injEq] at hl
      simpa using hstart gap y after hl.2 hy hgap
    | cons b before =>
      rw [cons_append, List.cons.injEq] at hl
      exact hs before x gap y after hl.2 hx hy hgap

theorem sameStart_cons_letter (started pending pending' : Bool) (l : List α) (h : letter a = true) :
    SameStart letter drop drop' started pending pending' (a :: l) ↔ pending = pending' := by
  constructor
  · intro hs
    have := hs [] a l rfl h (by simp)
    cases pending <;> cases pending' <;> simp_all
  · rintro rfl gap y after hl hy hgap
    cases gap with
    | nil => simp
    | cons g gap =>
      rw [cons_append, List.cons.injEq] at hl
      have := hgap g mem_cons_self
      rw [← hl.1, h] at this
      cases this

theorem sameStart_cons_nonletter (started pending pending' : Bool) (l : List α)
    (h : letter a = false) :
    SameStart letter drop drop' started pending pending' (a :: l) ↔
      SameStart letter drop drop' started (pending || (started && !drop a))
        (pending' || (started && !drop' a)) l := by
  constructor
  · intro hs gap y after hl hy hgap
    have := hs (a :: gap) y after (by rw [hl, cons_append]) hy
      (forall_mem_cons.mpr ⟨h, hgap⟩)
    cases started <;> cases hd : drop a <;> cases hd' : drop' a <;> simp_all
  · intro hs gap y after hl hy hgap
    cases gap with
    | nil =>
      rw [nil_append, List.cons.injEq] at hl
      rw [← hl.1, h] at hy
      cases hy
    | cons g gap =>
      rw [cons_append, List.cons.injEq] at hl
      obtain ⟨rfl, hl⟩ := hl
      have := hs gap y after hl hy (forall_mem_cons.mp hgap).2
      cases started <;> cases hd : drop a <;> cases hd' : drop' a <;> simp_all

theorem spell_cons_nonletter {started pending : Bool} (l : List α) (h : letter a = false)
    (hp : pending = true → started = true) :
    spell space started pending (pieces letter drop (a :: l)) =
      spell space started (pending || (started && !drop a)) (pieces letter drop l) := by
  cases hd : drop a with
  | true =>
    rw [pieces_cons_drop letter drop a l h hd]
    simp
  | false =>
    rw [pieces_cons_gap letter drop l h hd, spell]
    cases started <;> cases pending <;> simp_all

theorem spell_eq_iff_of_state (hspace : letter space = false) (l : List α)
    (started pending pending' : Bool) (hp : pending = true → started = true)
    (hp' : pending' = true → started = true) :
    spell space started pending (pieces letter drop l) =
        spell space started pending' (pieces letter drop' l) ↔
      SameStart letter drop drop' started pending pending' l ∧ SameGaps letter drop drop' l := by
  induction l generalizing started pending pending' with
  | nil => simp [pieces, spell, SameStart, SameGaps]
  | cons a l ih =>
    cases ha : letter a with
    | false =>
      rw [spell_cons_nonletter space letter drop l ha hp,
        spell_cons_nonletter space letter drop' l ha hp',
        sameStart_cons_nonletter letter drop drop' started pending pending' l ha,
        sameGaps_cons_nonletter letter drop drop' l ha]
      apply ih
      · intro h
        cases started <;> simp_all
      · intro h
        cases started <;> simp_all
    | true =>
      have hne : space ≠ a := by
        rintro rfl
        rw [hspace] at ha
        cases ha
      rw [pieces_cons_letter letter drop l ha, pieces_cons_letter letter drop' l ha, spell, spell,
        sameStart_cons_letter letter drop drop' started pending pending' l ha,
        sameGaps_cons_letter letter drop drop' l ha, ← ih true false false (by simp) (by simp)]
      cases pending <;> cases pending' <;> simp [hne, hne.symm]

theorem spell_eq_iff (hspace : letter space = false) (l : List α) :
    spell space false false (pieces letter drop l) =
        spell space false false (pieces letter drop' l) ↔ SameGaps letter drop drop' l := by
  rw [spell_eq_iff_of_state space letter drop drop' hspace l false false false (by simp) (by simp)]
  simp [SameStart]

end Spell

section Collapse
variable (isSpace : α → Bool) (space : α)

def collapse : (inside : Bool) → List α → List α
  | _, [] => []
  | inside, a :: rest =>
    if isSpace a then (if inside then [] else [space]) ++ collapse true rest
    else a :: collapse false rest

def strip (l : List α) : List α := (l.dropWhile isSpace).rdropWhile isSpace

theorem rdropWhile_cons {a : α} {l : List α} (h : isSpace a = false) :
    (a :: l).rdropWhile isSpace = a :: l.rdropWhile isSpace := by
  rw [List.rdropWhile, List.rdropWhile, reverse_cons, dropWhile_append]
  split_ifs with he
  · simp [List.isEmpty_iff.mp he, h]
  · rw [reverse_append]
    rfl

theorem strip_split (l : List α) : ∃ a b, l = a ++ strip isSpace l ++ b ∧
    (∀ x ∈ a, isSpace x = true) ∧ ∀ x ∈ b, isSpace x = true := by
  refine ⟨l.takeWhile isSpace, (l.dropWhile isSpace).rtakeWhile isSpace, ?_, ?_, ?_⟩
  · rw [append_assoc, strip, rdropWhile_append_rtakeWhile, takeWhile_append_dropWhile]
  · exact fun x hx => mem_takeWhile_imp hx
  · exact fun x hx => mem_rtakeWhile_imp hx

variable (hspace : isSpace space = true)
include hspace

theorem rdropWhile_collapse (l : List α) :
    (collapse isSpace space false l).rdropWhile isSpace =
        spell space true false (l.map (fun a => if isSpace a then none else some a)) ∧
      (space :: collapse isSpace space true l).rdropWhile isSpace =
        spell space true true (l.map (fun a => if isSpace a then none else some a)) := by
  induction l with
  | nil => simp [collapse, spell, List.rdropWhile, hspace]
  | cons a l ih =>
    cases ha : isSpace a with
    | true => simpa [collapse, spell, ha] using ih.2
    | false =>
      have hfalse : (a :: collapse isSpace space false l).rdropWhile isSpace =
          a :: spell space true false (l.map (fun a => if isSpace a then none else some a)) := by
        rw [rdropWhile_cons isSpace ha, ih.1]
      constructor
      · simpa [collapse, spell, ha] using hfalse
      · -- A separator before a letter stays.
        have hkeep : (space :: a :: collapse isSpace space false l).rdropWhile isSpace =
            space :: (a :: collapse isSpace space false l).rdropWhile isSpace := by
          rw [rdropWhile_cons isSpace ha, List.rdropWhile, reverse_cons, reverse_cons,
            append_assoc, dropWhile_append]
          split_ifs with he
          · simp [List.rdropWhile, List.isEmpty_iff.mp he, ha]
          · simp [List.rdropWhile]
        simpa [collapse, spell, ha, hfalse] using hkeep

theorem dropWhile_collapse (l : List α) (inside : Bool) :
    (collapse isSpace space inside l).dropWhile isSpace =
      collapse isSpace space false (l.dropWhile isSpace) := by
  induction l generalizing inside with
  | nil => rfl
  | cons a l ih =>
    cases ha : isSpace a with
    | true => cases inside <;> simp [collapse, ha, hspace, ih]
    | false => simp [collapse, ha]

theorem strip_collapse (l : List α) :
    strip isSpace (collapse isSpace space false l) =
      spell space false false (l.map (fun a => if isSpace a then none else some a)) := by
  have hlead : spell space false false (l.map (fun a => if isSpace a then none else some a)) =
      spell space false false
        ((l.dropWhile isSpace).map (fun a => if isSpace a then none else some a)) := by
    induction l with
    | nil => rfl
    | cons a l ih =>
      cases ha : isSpace a with
      | true => simpa [spell, ha] using ih
      | false => simp [ha]
  rw [strip, dropWhile_collapse isSpace space hspace, hlead]
  cases hl : l.dropWhile isSpace with
  | nil => rfl
  | cons a rest =>
    have ha : isSpace a = false := by
      have hne : l.dropWhile isSpace ≠ [] := by rw [hl]; simp
      have := head_dropWhile_not isSpace hne
      simpa [hl] using this
    have hrest := (rdropWhile_collapse isSpace space hspace rest).1
    rw [collapse, if_neg (by simp [ha]), rdropWhile_cons isSpace ha, hrest, map_cons,
      if_neg (by simp [ha]), spell]
    rfl

end Collapse
end SeparatedWords
