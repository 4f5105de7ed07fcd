import YunPin.ProtocolCrdt

/-! The algebra of `MergePhrase` on values, counter maps compared with their keys. It is associative
and idempotent; it is commutative up to devices whose counter is there and zero. -/
namespace YunPin
open ByteText Option

theorem raise_idem (x : Option UInt64) : raise x x = x := if_neg (UInt64.lt_irrefl _)

theorem raise_assoc (x y z : Option UInt64) : raise (raise x y) z = raise x (raise y z) := by
  simp only [raise, gt_iff_lt, UInt64.lt_iff_toNat_lt]
  split_ifs <;> first | rfl | omega

theorem raise_comm_iff (x y : Option UInt64) :
    raise x y = raise y x ↔ (x = some 0 → y ≠ none) ∧ (y = some 0 → x ≠ none) := by
  have hnone (v : UInt64) : raise none (some v) = some v ↔ v ≠ 0 := by
    simp [raise, UInt64.pos_iff_ne_zero]
  cases x with
  | none =>
    cases y with
    | none => simp
    | some v =>
      rw [raise_none, hnone]
      simp
  | some v =>
    cases y with
    | none =>
      rw [raise_none, eq_comm, hnone]
      simp
    | some w =>
      simp only [raise, getD_some, gt_iff_lt, UInt64.lt_iff_toNat_lt]
      refine iff_of_true ?_ (by simp)
      split_ifs
      · omega
      · rfl
      · rfl
      · exact congrArg some (UInt64.toNat_inj.mp (by omega))

theorem find?_mergeCounts (left right : Counts) (d : Bytes) :
    (mergeCounts left right).find? d = raise (left.find? d) (right.find? d) :=
  find?_foldl_raiseCount right.sorted left d

theorem chooseBool_comm (a b : LWWBool) : chooseBool a b = chooseBool b a := by
  apply LWWBool.view_injective
  rw [chooseBool_view, chooseBool_view, sup_comm]

theorem chooseBool_assoc (a b c : LWWBool) :
    chooseBool (chooseBool a b) c = chooseBool a (chooseBool b c) := by
  apply LWWBool.view_injective
  simp only [chooseBool_view, sup_assoc]

theorem choosePresence_comm (a b : Presence) : choosePresence a b = choosePresence b a := by
  apply Presence.view_injective
  rw [choosePresence_view, choosePresence_view, sup_comm]

theorem choosePresence_assoc (a b c : Presence) :
    choosePresence (choosePresence a b) c = choosePresence a (choosePresence b c) := by
  apply Presence.view_injective
  simp only [choosePresence_view, sup_assoc]

def PhraseState.devices (s : PhraseState) : Counts := s.counts.getD ∅

/-- The states are equal as values; a sorted map is determined by its keys and their values. -/
def SameValue (a b : PhraseState) : Prop :=
  a.objectID = b.objectID ∧ a.devices = b.devices ∧ a.pinned = b.pinned ∧ a.presence = b.presence

instance (a b : PhraseState) : Decidable (SameValue a b) := by
  unfold SameValue
  infer_instance

def merged (a b : PhraseState) : PhraseState :=
  ⟨a.objectID, some (mergeCounts a.devices b.devices), chooseBool a.pinned b.pinned,
    choosePresence a.presence b.presence⟩

theorem mergePhrase_eq_merged {a b : PhraseState} (hne : a.objectID ≠ [])
    (hid : b.objectID = a.objectID) : mergePhrase a b = .ok (merged a b) :=
  (mergePhrase_ok_iff a b _).mpr ⟨⟨hne, hid.symm⟩, rfl⟩

/-- Every device whose counter is zero on one side has a counter on the other. -/
def ZeroesShared (a b : PhraseState) : Prop :=
  ∀ d, (a.devices.find? d = some 0 → b.devices.find? d ≠ none) ∧
    (b.devices.find? d = some 0 → a.devices.find? d ≠ none)

/-- Merging states of one object: the order of arguments matters for counters that are zero. -/
theorem merge_laws (a b c : PhraseState) (hne : a.objectID ≠ []) (hb : b.objectID = a.objectID)
    (hc : c.objectID = a.objectID) :
    ∃ aa ab ba bc left right, mergePhrase a a = .ok aa ∧ mergePhrase a b = .ok ab ∧
      mergePhrase b a = .ok ba ∧ mergePhrase b c = .ok bc ∧ mergePhrase ab c = .ok left ∧
      mergePhrase a bc = .ok right ∧ SameValue aa a ∧ SameValue left right ∧
      (SameValue ab ba ↔ ZeroesShared a b) := by
  refine ⟨merged a a, merged a b, merged b a, merged b c, merged (merged a b) c,
    merged a (merged b c), mergePhrase_eq_merged hne rfl, mergePhrase_eq_merged hne hb,
    mergePhrase_eq_merged (hb ▸ hne) hb.symm, mergePhrase_eq_merged (hb ▸ hne)
      (hc.trans hb.symm), mergePhrase_eq_merged hne hc, mergePhrase_eq_merged hne hb,
    ⟨rfl, ?_, ?_, ?_⟩, ⟨rfl, ?_, chooseBool_assoc .., choosePresence_assoc ..⟩, ?_⟩
  · apply SortedMap.ext_find?
    intro d
    exact (find?_mergeCounts _ _ d).trans (raise_idem _)
  · exact (chooseBool_cases a.pinned a.pinned).elim id id
  · exact (choosePresence_cases a.presence a.presence).elim id id
  · apply SortedMap.ext_find?
    intro d
    simp only [merged, PhraseState.devices, getD_some, find?_mergeCounts, raise_assoc]
  · have hcounts : (merged a b).devices = (merged b a).devices ↔ ZeroesShared a b := by
      constructor
      · intro h d
        have hd := congrArg (SortedMap.find? · d) h
        simp only [merged, PhraseState.devices, getD_some, find?_mergeCounts] at hd
        exact (raise_comm_iff _ _).mp hd
      · intro h
        apply SortedMap.ext_find?
        intro d
        have hd := (raise_comm_iff _ _).mpr (h d)
        simpa only [merged, PhraseState.devices, getD_some, find?_mergeCounts] using hd
    rw [← hcounts]
    exact ⟨fun h => h.2.1, fun h => ⟨hb.symm, h, chooseBool_comm .., choosePresence_comm ..⟩⟩

def countersOnly (counts : Option Counts) : PhraseState := { PhraseState.zero with
  objectID := [1], counts := counts }

theorem merge_laws_sample :
    ∃ ab ba, mergePhrase (countersOnly none) (countersOnly (some (SortedMap.ofList [([2], 3)]))) =
        .ok ab ∧
      mergePhrase (countersOnly (some (SortedMap.ofList [([2], 3)]))) (countersOnly none) = .ok ba ∧
      (SameValue ab ba ↔ ZeroesShared (countersOnly none)
        (countersOnly (some (SortedMap.ofList [([2], 3)])))) := by
  obtain ⟨-, ab, ba, -, -, -, -, hab, hba, -, -, -, -, -, hiff⟩ := merge_laws (countersOnly none)
    (countersOnly (some (SortedMap.ofList [([2], 3)]))) (countersOnly none) (by decide) rfl rfl
  exact ⟨ab, ba, hab, hba, hiff⟩

/-- One side has a counter that is zero, the other has none. -/
theorem merge_order_visible : ∃ ab ba,
    mergePhrase (countersOnly (some (SortedMap.ofList [([2], 0)]))) (countersOnly none) = .ok ab ∧
      mergePhrase (countersOnly none) (countersOnly (some (SortedMap.ofList [([2], 0)]))) = .ok ba ∧
      ¬SameValue ab ba :=
  ⟨_, _, rfl, rfl, by decide⟩

end YunPin
