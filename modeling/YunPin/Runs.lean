import Mathlib

/-! Runs of a machine given by a partial step function, and the induction that
carries an invariant along a run. -/
namespace Runs
open Option

variable {σ α : Type*}

def run (step : σ → α → Option σ) : σ → List α → Option σ
  | s, [] => some s
  | s, a :: rest =>
    match step s a with
    | none => none
    | some s' => run step s' rest

/-- The machine that takes only the steps meeting a condition on the state before
them. -/
def restrict (ok : σ → α → Prop) [∀ s a, Decidable (ok s a)] (step : σ → α → Option σ) :
    σ → α → Option σ :=
  fun s a => if ok s a then step s a else none

variable {step : σ → α → Option σ}

variable {s t : σ} {actions : List α} {a : α} {first second : List α} {s' : σ}

theorem run_cons {rest : List α} (h : run step s (a :: rest) = some t) :
    ∃ s', step s a = some s' ∧ run step s' rest = some t := by
  simp only [run] at h
  split at h
  · simp at h
  · rename_i s' hs
    exact ⟨s', hs, h⟩

theorem run_append (h : run step s (first ++ second) = some t) :
    ∃ u, run step s first = some u ∧ run step u second = some t := by
  induction first generalizing s with
  | nil => exact ⟨s, rfl, h⟩
  | cons a rest ih =>
    obtain ⟨s', hs, hrest⟩ := run_cons h
    obtain ⟨u, hu, ht⟩ := ih hrest
    exact ⟨u, by simp only [run, hs, hu], ht⟩

theorem run_trans {u : σ} (h : run step s first = some t) (h' : run step t second = some u) :
    run step s (first ++ second) = some u := by
  induction first generalizing s with
  | nil => exact some.inj h ▸ h'
  | cons a rest ih =>
    obtain ⟨s', hs, hrest⟩ := run_cons h
    simp only [List.cons_append, run, hs]
    exact ih hrest

theorem restrict_some {ok : σ → α → Prop} [∀ s a, Decidable (ok s a)]
    (h : restrict ok step s a = some s') : ok s a ∧ step s a = some s' := by
  unfold restrict at h
  split_ifs at h with hok
  exact ⟨hok, h⟩

theorem run_invariant (I : σ → Prop) (hstep : ∀ s a s', I s → step s a = some s' → I s') (hs : I s)
    (h : run step s actions = some t) : I t := by
  induction actions generalizing s with
  | nil => exact some.inj h ▸ hs
  | cons a rest ih =>
    obtain ⟨s', hs', hrest⟩ := run_cons h
    exact ih (hstep s a s' hs hs') hrest

theorem run_relation (I : σ → Prop) (R : σ → σ → Prop) (hrefl : ∀ s, R s s)
    (htrans : ∀ s t u, R s t → R t u → R s u)
    (hstep : ∀ s a s', I s → step s a = some s' → I s' ∧ R s s') (hs : I s)
    (h : run step s actions = some t) : R s t := by
  have hinv : I t ∧ R s t := by
    apply run_invariant (fun u => I u ∧ R s u) ?_ ⟨hs, hrefl s⟩ h
    rintro u a u' ⟨hu, hr⟩ hu'
    obtain ⟨hi, hr'⟩ := hstep u a u' hu hu'
    exact ⟨hi, htrans s u u' hr hr'⟩
  exact hinv.2

theorem run_simulation {τ β : Type*} {step' : τ → β → Option τ} (R : σ → τ → Prop)
    (hstep : ∀ s t a s', R s t → step s a = some s' →
      ∃ actions t', run step' t actions = some t' ∧ R s' t') {t : τ} (hs : R s t)
    (h : run step s actions = some s') :
    ∃ actions' t', run step' t actions' = some t' ∧ R s' t' := by
  induction actions generalizing s t with
  | nil => exact ⟨[], t, rfl, some.inj h ▸ hs⟩
  | cons a rest ih =>
    obtain ⟨u, hu, hrest⟩ := run_cons h
    obtain ⟨first, t₁, hfirst, hr⟩ := hstep s t a u hs hu
    obtain ⟨second, t₂, hsecond, hr'⟩ := ih hr hrest
    exact ⟨first ++ second, t₂, run_trans hfirst hsecond, hr'⟩

/-- What a run on fixed inputs ends in is found by evaluation. -/
theorem exists_some {o : Option σ} (p : σ → Prop) [DecidablePred p] {q : σ → Prop}
    (h : o.any (fun s => p s) = true) (hq : ∀ s, o = some s → p s → q s) :
    ∃ s, o = some s ∧ q s := by
  obtain ⟨s, hs, hp⟩ := (any_eq_true _ _).mp h
  exact ⟨s, hs, hq s hs (of_decide_eq_true hp)⟩

theorem exists_some_some {τ : Type*} {o : Option σ} {o' : σ → Option τ} (p : σ → τ → Prop)
    [∀ s t, Decidable (p s t)] {q : σ → τ → Prop}
    (h : o.any (fun s => (o' s).any (fun t => p s t)) = true)
    (hq : ∀ s t, o = some s → o' s = some t → p s t → q s t) :
    ∃ s t, o = some s ∧ o' s = some t ∧ q s t := by
  obtain ⟨s, hs, h⟩ := (any_eq_true _ _).mp h
  obtain ⟨t, ht, h⟩ := exists_some (p s) h (hq s · hs)
  exact ⟨s, t, hs, ht, h⟩

end Runs
