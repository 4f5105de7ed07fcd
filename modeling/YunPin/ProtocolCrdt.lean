import YunPin.ByteText
import YunPin.SortedMap

/-! The replicated phrase state: a per-device counter, a last-writer-wins pin
register and a remove-wins presence register, and the lattice they form. -/
namespace YunPin
open ByteText List

structure HLC where
  wallMillis : ℤ
  counter : ℕ
  node : Bytes
deriving DecidableEq, Inhabited

namespace HLC

def compare (clock other : HLC) : ℤ :=
  if clock.wallMillis < other.wallMillis then -1
  else if clock.wallMillis > other.wallMillis then 1
  else if clock.counter < other.counter then -1
  else if clock.counter > other.counter then 1
  else if clock.node < other.node then -1
  else if clock.node > other.node then 1
  else 0

def key (clock : HLC) : ℤ ×ₗ ℕ ×ₗ Bytes := toLex (clock.wallMillis, toLex (clock.counter, clock.node))

theorem key_injective : Function.Injective key := by
  intro a b h
  cases a
  cases b
  simpa [key] using h

instance : LinearOrder HLC := LinearOrder.lift' key key_injective

theorem lt_iff (a b : HLC) : a < b ↔ a.wallMillis < b.wallMillis ∨
    (a.wallMillis = b.wallMillis ∧ (a.counter < b.counter ∨
      (a.counter = b.counter ∧ a.node < b.node))) := by
  change toLex (a.wallMillis, toLex (a.counter, a.node)) <
    toLex (b.wallMillis, toLex (b.counter, b.node)) ↔ _
  simp only [Prod.Lex.toLex_lt_toLex]

theorem compare_neg_iff {a b : HLC} : a.compare b < 0 ↔ a < b := by
  rw [lt_iff]
  unfold compare
  split_ifs with h1 h2 h3 h4 h5 h6 <;> simp <;> grind

theorem compare_pos_iff {a b : HLC} : 0 < a.compare b ↔ b < a := by
  rw [lt_iff]
  unfold compare
  split_ifs with h1 h2 h3 h4 h5 h6 <;> simp <;> grind

end HLC

structure LWWBool where
  value : Bool
  clock : HLC
deriving DecidableEq, Inhabited

structure Presence where
  present : Bool
  clock : HLC
  generation : UInt64
deriving DecidableEq, Inhabited

abbrev Counts := SortedMap Bytes UInt64

structure PhraseState where
  objectID : Bytes
  counts : Option Counts
  pinned : LWWBool
  presence : Presence
deriving DecidableEq, Inhabited

namespace PhraseState

def zero : PhraseState := ⟨[], none, ⟨false, ⟨0, 0, []⟩⟩, ⟨false, ⟨0, 0, []⟩, 0⟩⟩

def count (s : PhraseState) (device : Bytes) : UInt64 := ((s.counts.getD ∅).find? device).getD 0

end PhraseState

def chooseBool (left right : LWWBool) : LWWBool :=
  if left.clock.compare right.clock < 0 then right
  else if left.clock.compare right.clock > 0 then left
  else if right.value then right
  else left

def choosePresence (left right : Presence) : Presence :=
  if left.generation < right.generation then right
  else if left.generation > right.generation then left
  else if left.present ≠ right.present then
    if ¬right.present then right else left
  else if left.clock.compare right.clock < 0 then right
  else if left.clock.compare right.clock > 0 then left
  else left

def raiseCount (result : Counts) (entry : Bytes × UInt64) : Counts :=
  if entry.2 > (result.find? entry.1).getD 0 then result.insert entry.1 entry.2 else result

def mergeCounts (left right : Counts) : Counts := right.entries.foldl raiseCount left

def mergePhrase (left right : PhraseState) : Except String PhraseState :=
  if left.objectID = [] ∨ left.objectID ≠ right.objectID then
    .error "cannot merge different phrase objects"
  else .ok {
    objectID := left.objectID
    counts := some (mergeCounts (left.counts.getD ∅) (right.counts.getD ∅))
    pinned := chooseBool left.pinned right.pinned
    presence := choosePresence left.presence right.presence }

variable (a b c : PhraseState)

theorem mergePhrase_ok_iff : mergePhrase a b = .ok c ↔
    (a.objectID ≠ [] ∧ a.objectID = b.objectID) ∧ c = {
      objectID := a.objectID
      counts := some (mergeCounts (a.counts.getD ∅) (b.counts.getD ∅))
      pinned := chooseBool a.pinned b.pinned
      presence := choosePresence a.presence b.presence } := by
  unfold mergePhrase
  split_ifs with h
  · simp only [false_iff]
    tauto
  · simp only [Except.ok.injEq]
    push Not at h
    exact ⟨fun he => ⟨h, he.symm⟩, fun he => he.2.symm⟩

theorem chooseBool_cases (a b : LWWBool) : chooseBool a b = a ∨ chooseBool a b = b := by
  unfold chooseBool
  split_ifs <;> simp

theorem choosePresence_cases (a b : Presence) :
    choosePresence a b = a ∨ choosePresence a b = b := by
  unfold choosePresence
  split_ifs <;> simp

variable {l : List (Bytes × UInt64)}

theorem mem_foldl_raiseCount (m : Counts) {d : Bytes} (h : d ∈ (l.foldl raiseCount m).keys) :
    d ∈ m.keys ∨ d ∈ l.map Prod.fst := by
  induction l generalizing m with
  | nil => exact .inl h
  | cons e rest ih =>
    rw [map_cons, mem_cons]
    rcases ih (raiseCount m e) h with hm | hr
    · unfold raiseCount at hm
      split_ifs at hm
      · rcases (SortedMap.mem_keys_insertEntry e.1 d e.2 m.entries).mp hm with hd | hd
        · exact .inr (.inl hd)
        · exact .inl hd
      · exact .inl hm
    · exact .inr (.inr hr)

/-- What a merge makes of the two entries of a device: the left one, unless the right count is
larger. -/
def raise (left right : Option UInt64) : Option UInt64 :=
  if right.getD 0 > left.getD 0 then right else left

theorem raise_none (left : Option UInt64) : raise left none = left := if_neg UInt64.not_lt_zero

theorem find?_foldl_raiseCount (hl : (l.map Prod.fst).Pairwise (· < ·)) (m : Counts) (d : Bytes) :
    (l.foldl raiseCount m).find? d = raise (m.find? d) (l.assoc d) := by
  induction l generalizing m with
  | nil => exact (raise_none _).symm
  | cons e rest ih =>
    obtain ⟨k, v⟩ := e
    obtain ⟨hlt, hrest⟩ := pairwise_cons.mp hl
    rw [foldl_cons, ih hrest, raiseCount, List.assoc]
    -- The keys are distinct, so a device is raised by one entry at most.
    by_cases hd : d = k
    · subst hd
      have hnone : rest.assoc d = none :=
        (SortedMap.assoc_eq_none_iff d rest).mpr (fun hm => lt_irrefl d (hlt d hm))
      rw [hnone, if_pos rfl, raise_none, raise, Option.getD_some]
      split_ifs
      · exact SortedMap.find?_insert_self m d v
      · rfl
    · rw [if_neg hd]
      congr 1
      split_ifs
      · exact SortedMap.find?_insert_ne m k d v hd
      · rfl

theorem foldl_raiseCount (hl : (l.map Prod.fst).Pairwise (· < ·)) {m : Counts} (d : Bytes) :
    (((l.foldl raiseCount m).find? d).getD 0).toNat =
      max ((m.find? d).getD 0).toNat ((l.assoc d).getD 0).toNat := by
  rw [find?_foldl_raiseCount hl, raise]
  split_ifs with hgt
  all_goals
    rw [gt_iff_lt, UInt64.lt_iff_toNat_lt] at hgt
    omega

/-- What replication compares in a phrase state: the counters as a function, the
pin register ordered by clock and then value, the presence register ordered by
generation, then absence, then clock. -/
abbrev StateView := (Bytes → ℕ) × (HLC ×ₗ Bool) × (ℕ ×ₗ Bool ×ₗ HLC)

def LWWBool.view (r : LWWBool) : HLC ×ₗ Bool := toLex (r.clock, r.value)

def Presence.view (r : Presence) : ℕ ×ₗ Bool ×ₗ HLC :=
  toLex (r.generation.toNat, toLex (!r.present, r.clock))

def PhraseState.view (s : PhraseState) : StateView :=
  (fun d => (s.count d).toNat, s.pinned.view, s.presence.view)

theorem LWWBool.view_injective : Function.Injective LWWBool.view := by
  intro a b h
  cases a
  cases b
  simp only [view, toLex_inj, Prod.mk.injEq] at h
  simp [h.1, h.2]

theorem Presence.view_injective : Function.Injective Presence.view := by
  intro a b h
  cases a
  cases b
  simp only [view, toLex_inj, Prod.mk.injEq, UInt64.toNat_inj, Bool.not_inj_iff] at h
  simp [h.1, h.2.1, h.2.2]

theorem max_eq_of_lt_cases {α β : Type*} [LinearOrder β] (f : α → β) (a b c : α)
    (h : (f a ≤ f b ∧ f c = f b) ∨ (f b ≤ f a ∧ f c = f a)) : f c = f a ⊔ f b := by
  rcases h with ⟨hle, he⟩ | ⟨hle, he⟩
  · rw [he, sup_eq_right.mpr hle]
  · rw [he, sup_eq_left.mpr hle]

theorem chooseBool_view {a b : LWWBool} : (chooseBool a b).view = a.view ⊔ b.view := by
  apply max_eq_of_lt_cases
  unfold chooseBool
  split_ifs with h1 h2 h3
  · have hlt := (HLC.compare_neg_iff).mp h1
    exact .inl ⟨(Prod.Lex.toLex_le_toLex.mpr (.inl hlt)), rfl⟩
  · have hlt := (HLC.compare_pos_iff).mp h2
    exact .inr ⟨(Prod.Lex.toLex_le_toLex.mpr (.inl hlt)), rfl⟩
  · have heq : a.clock = b.clock := le_antisymm
      (not_lt.mp (fun h => h2 ((HLC.compare_pos_iff).mpr h)))
      (not_lt.mp (fun h => h1 ((HLC.compare_neg_iff).mpr h)))
    exact .inl ⟨Prod.Lex.toLex_le_toLex.mpr (.inr ⟨heq, by simp [h3]⟩), rfl⟩
  · have heq : a.clock = b.clock := le_antisymm
      (not_lt.mp (fun h => h2 ((HLC.compare_pos_iff).mpr h)))
      (not_lt.mp (fun h => h1 ((HLC.compare_neg_iff).mpr h)))
    exact .inr ⟨Prod.Lex.toLex_le_toLex.mpr (.inr ⟨heq.symm, by simp [h3]⟩), rfl⟩

theorem Presence.view_le_iff {a b : Presence} : a.view ≤ b.view ↔
    a.generation.toNat < b.generation.toNat ∨ (a.generation.toNat = b.generation.toNat ∧
      ((!a.present) < (!b.present) ∨ ((!a.present) = (!b.present) ∧ a.clock ≤ b.clock))) := by
  simp only [view, Prod.Lex.toLex_le_toLex]

theorem choosePresence_view {a b : Presence} :
    (choosePresence a b).view = a.view ⊔ b.view := by
  apply max_eq_of_lt_cases
  simp only [Presence.view_le_iff]
  unfold choosePresence
  split_ifs with h1 h2 h3 h4 h5 h6
  · exact .inl ⟨.inl (UInt64.lt_iff_toNat_lt.mp h1), rfl⟩
  · exact .inr ⟨.inl (UInt64.lt_iff_toNat_lt.mp h2), rfl⟩
  all_goals
    have hgen : a.generation.toNat = b.generation.toNat := by
      have hle := UInt64.le_iff_toNat_le.mp (UInt64.not_lt.mp h1)
      have hge := UInt64.le_iff_toNat_le.mp (UInt64.not_lt.mp h2)
      omega
  · have ha : a.present = false := by simpa [h4] using h3
    exact .inr ⟨.inr ⟨hgen.symm, .inl (by simp [ha, h4])⟩, rfl⟩
  · have hb : b.present = false := by simpa using h4
    have ha : a.present = true := by simpa [hb] using h3
    exact .inl ⟨.inr ⟨hgen, .inl (by simp [ha, hb])⟩, rfl⟩
  · have hlt := (HLC.compare_neg_iff).mp h5
    have hp : a.present = b.present := not_not.mp h3
    exact .inl ⟨.inr ⟨hgen, .inr ⟨by rw [hp], hlt.le⟩⟩, rfl⟩
  all_goals
    have hle : b.clock ≤ a.clock := not_lt.mp (fun h => h5 ((HLC.compare_neg_iff).mpr h))
    have hp : a.present = b.present := not_not.mp h3
    exact .inr ⟨.inr ⟨hgen.symm, .inr ⟨by rw [hp], hle⟩⟩, rfl⟩

theorem mergePhrase_view (h : mergePhrase a b = .ok c) : c.view = a.view ⊔ b.view := by
  obtain ⟨_, rfl⟩ := (mergePhrase_ok_iff a b c).mp h
  refine Prod.ext ?_ (Prod.ext (chooseBool_view) (choosePresence_view))
  funext d
  rw [Prod.fst_sup, Pi.sup_apply]
  exact foldl_raiseCount (b.counts.getD ∅).sorted d

/-- Two states that no replica can tell apart: equal registers, and equal counts
with a missing device read as zero. -/
def SameState (a b : PhraseState) : Prop :=
  a.objectID = b.objectID ∧ (∀ d, a.count d = b.count d) ∧ a.pinned = b.pinned ∧
    a.presence = b.presence

def Dominated (s t : PhraseState) : Prop := ∃ m, mergePhrase s t = .ok m ∧ SameState m t

theorem sameState_iff : SameState a b ↔ a.objectID = b.objectID ∧ a.view = b.view := by
  unfold SameState PhraseState.view
  constructor
  · rintro ⟨ho, hc, hp, hq⟩
    exact ⟨ho, by simp only [hc, hp, hq]⟩
  · rintro ⟨ho, hv⟩
    obtain ⟨hc, hp, hq⟩ : _ ∧ _ ∧ _ := by simpa only [Prod.mk.injEq] using hv
    exact ⟨ho, fun d => UInt64.toNat_inj.mp (congrFun hc d), LWWBool.view_injective hp,
      Presence.view_injective hq⟩

theorem dominated_iff (s t : PhraseState) :
    Dominated s t ↔ s.objectID ≠ [] ∧ s.objectID = t.objectID ∧ s.view ≤ t.view := by
  constructor
  · rintro ⟨m, hm, hs⟩
    have hv := mergePhrase_view s t m hm
    obtain ⟨⟨hne, ho⟩, _⟩ := (mergePhrase_ok_iff s t m).mp hm
    rw [((sameState_iff m t).mp hs).2] at hv
    exact ⟨hne, ho, sup_eq_right.mp hv.symm⟩
  · rintro ⟨hne, ho, hle⟩
    refine ⟨_, (mergePhrase_ok_iff s t _).mpr ⟨⟨hne, ho⟩, rfl⟩, ?_⟩
    have hv := mergePhrase_view s t _ ((mergePhrase_ok_iff s t _).mpr ⟨⟨hne, ho⟩, rfl⟩)
    exact (sameState_iff _ _).mpr ⟨ho, hv.trans (sup_eq_right.mpr hle)⟩

theorem Dominated.trans {s t u : PhraseState} (h : Dominated s t) (h' : Dominated t u) :
    Dominated s u := by
  obtain ⟨hne, ho, hle⟩ := (dominated_iff s t).mp h
  obtain ⟨_, ho', hle'⟩ := (dominated_iff t u).mp h'
  exact (dominated_iff s u).mpr ⟨hne, ho.trans ho', hle.trans hle'⟩

def mergeStates : List PhraseState → Except String PhraseState
  | [] => .error "no phrase state to merge"
  | [s] => .ok s
  | s :: rest =>
    match mergeStates rest with
    | .error e => .error e
    | .ok m => mergePhrase s m

theorem mergeStates_ok {o : Bytes} (ho : o ≠ []) {l : List PhraseState} (hl : l ≠ [])
    (hobj : ∀ s ∈ l, s.objectID = o) :
    ∃ m, mergeStates l = .ok m ∧ m.objectID = o ∧ (∀ s ∈ l, s.view ≤ m.view) ∧
      ∀ v, (∀ s ∈ l, s.view ≤ v) → m.view ≤ v := by
  induction l with
  | nil => exact absurd rfl hl
  | cons s rest ih =>
    cases rest with
    | nil => exact ⟨s, rfl, hobj s mem_cons_self, by simp, fun v hv => hv s mem_cons_self⟩
    | cons t rest =>
      obtain ⟨m, hm, hmo, hub, hlub⟩ := ih (by simp) (forall_mem_cons.mp hobj).2
      have hs := hobj s mem_cons_self
      obtain ⟨n, hn⟩ : ∃ n, mergePhrase s m = .ok n :=
        ⟨_, (mergePhrase_ok_iff s m _).mpr ⟨⟨hs ▸ ho, hs.trans hmo.symm⟩, rfl⟩⟩
      have hview := mergePhrase_view s m n hn
      obtain ⟨_, hdef⟩ := (mergePhrase_ok_iff s m n).mp hn
      refine ⟨n, by simp only [mergeStates, hm, hn], by rw [hdef]; exact hs, ?_, ?_⟩
      · intro u hu
        rw [hview]
        rcases mem_cons.mp hu with rfl | hu
        · exact le_sup_left
        · exact (hub u hu).trans le_sup_right
      · intro v hv
        rw [hview]
        exact sup_le (hv s mem_cons_self)
          (hlub v (forall_mem_cons.mp hv).2)

/-- A register that a merge takes from one of two states is, after a merge of many, that of one of
them. -/
theorem mergeStates_mem {α : Type} (f : PhraseState → α)
    (hf : ∀ a b m, mergePhrase a b = .ok m → f m = f a ∨ f m = f b) {l : List PhraseState}
    (m : PhraseState) (h : mergeStates l = .ok m) : ∃ s ∈ l, f m = f s := by
  induction l generalizing m with
  | nil => simp [mergeStates] at h
  | cons s rest ih =>
    cases rest with
    | nil => exact ⟨s, mem_cons_self, by rw [Except.ok.inj h]⟩
    | cons t rest =>
      simp only [mergeStates] at h
      split at h
      · simp at h
      rename_i n hn
      rcases hf s n m h with hc | hc
      · exact ⟨s, mem_cons_self, hc⟩
      · obtain ⟨u, hu, hm⟩ := ih n hn
        exact ⟨u, mem_cons_of_mem s hu, hc.trans hm⟩

theorem mergeStates_pinned {l : List PhraseState} (m : PhraseState) (h : mergeStates l = .ok m) :
    ∃ s ∈ l, m.pinned = s.pinned := by
  refine mergeStates_mem (·.pinned) (fun a b m hm => ?_) m h
  obtain ⟨_, rfl⟩ := (mergePhrase_ok_iff a b m).mp hm
  exact chooseBool_cases a.pinned b.pinned

theorem mergeStates_presence {l : List PhraseState} (m : PhraseState) (h : mergeStates l = .ok m) :
    ∃ s ∈ l, m.presence = s.presence := by
  refine mergeStates_mem (·.presence) (fun a b m hm => ?_) m h
  obtain ⟨_, rfl⟩ := (mergePhrase_ok_iff a b m).mp hm
  exact choosePresence_cases a.presence b.presence

end YunPin
