import Mathlib.Data.List.Basic

/-! Tables whose rows have owners. A query or an update whose `WHERE` clause names an
owner reads and writes the rows of that owner only. -/
namespace OwnedTable
open List

variable {ρ κ : Type} [DecidableEq κ] {owner : ρ → κ} {k other : κ}

/-- The rows of an owner. -/
def rowsOf (owner : ρ → κ) (k : κ) (rows : List ρ) : List ρ := rows.filter (fun r => owner r = k)

/-- The clause selects rows of this owner only. -/
def Within (owner : ρ → κ) (k : κ) (where_ : ρ → Prop) : Prop := ∀ r, where_ r → owner r = k

/-- `UPDATE ... SET ... WHERE`. -/
def update (where_ : ρ → Prop) [DecidablePred where_] (set : ρ → ρ) (rows : List ρ) : List ρ :=
  rows.map (fun r => if where_ r then set r else r)

variable {where_ : ρ → Bool}

theorem Within.and_owner (h : Within owner k (fun r => where_ r)) :
    (fun r => where_ r && decide (owner r = k)) = where_ := by
  funext r
  cases hw : where_ r with
  | false => rfl
  | true => simpa using h r hw

theorem filter_rowsOf (h : Within owner k (fun r => where_ r)) (rows : List ρ) :
    (rowsOf owner k rows).filter where_ = rows.filter where_ := by
  rw [rowsOf, filter_filter, h.and_owner]

variable {a b : List ρ}

/-- A query within the rows of an owner cannot tell tables apart that agree on these. -/
theorem filter_congr (h : Within owner k (fun r => where_ r))
    (hab : rowsOf owner k a = rowsOf owner k b) : a.filter where_ = b.filter where_ := by
  rw [← filter_rowsOf h a, ← filter_rowsOf h b, hab]

theorem find?_congr (h : Within owner k (fun r => where_ r))
    (hab : rowsOf owner k a = rowsOf owner k b) : a.find? where_ = b.find? where_ := by
  rw [← head?_filter, ← head?_filter, filter_congr h hab]

theorem countP_congr (h : Within owner k (fun r => where_ r))
    (hab : rowsOf owner k a = rowsOf owner k b) : a.countP where_ = b.countP where_ := by
  rw [countP_eq_length_filter, countP_eq_length_filter, filter_congr h hab]

section Update
variable {where_ : ρ → Prop} [DecidablePred where_] {set : ρ → ρ}

theorem rowsOf_update (hset : ∀ r, owner (set r) = owner r) (rows : List ρ) :
    rowsOf owner k (update where_ set rows) = update where_ set (rowsOf owner k rows) := by
  rw [rowsOf, update, filter_map, update, rowsOf]
  congr 2
  funext r
  simp only [Function.comp]
  split_ifs
  · rw [hset]
  · rfl

theorem rowsOf_update_congr (hset : ∀ r, owner (set r) = owner r)
    (hab : rowsOf owner k a = rowsOf owner k b) :
    rowsOf owner k (update where_ set a) = rowsOf owner k (update where_ set b) := by
  rw [rowsOf_update hset, rowsOf_update hset, hab]

/-- An update within the rows of an owner leaves those of the others alone. -/
theorem rowsOf_update_other (h : Within owner k where_) (hset : ∀ r, owner (set r) = owner r)
    (hk : other ≠ k) {rows : List ρ} :
    rowsOf owner other (update where_ set rows) = rowsOf owner other rows := by
  rw [rowsOf_update hset, update]
  conv_rhs => rw [← map_id (rowsOf owner other rows)]
  apply map_congr_left
  intro r hr
  have howner : owner r = other := of_decide_eq_true (mem_filter.mp hr).2
  have hw : ¬where_ r := fun hw => hk (howner.symm.trans (h r hw))
  rw [if_neg hw, id]

end Update

theorem rowsOf_append (a b : List ρ) :
    rowsOf owner k (a ++ b) = rowsOf owner k a ++ rowsOf owner k b :=
  filter_append a b

theorem rowsOf_insert_other {rows : List ρ} {r : ρ} (h : owner r ≠ other) :
    rowsOf owner other (rows ++ [r]) = rowsOf owner other rows := by
  rw [rowsOf_append]
  simp [rowsOf, h]

theorem rowsOf_insert_congr {r : ρ} (hab : rowsOf owner k a = rowsOf owner k b) :
    rowsOf owner k (a ++ [r]) = rowsOf owner k (b ++ [r]) := by
  rw [rowsOf_append, rowsOf_append, hab]

end OwnedTable
