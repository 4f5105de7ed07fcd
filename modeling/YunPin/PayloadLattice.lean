import YunPin.StoreMerge

/-! The merge of whole payloads as a join. The replicated state has its own lattice; text,
reading and source take the smaller string, where the empty one counts as missing, and
the day takes the larger number. What a record shows is a function of the join alone, the
use count included, in whatever order the counters are added up. -/
namespace YunPin
open ByteText List

/-- The order in which `chooseStableString` takes the smaller string: the empty one is last. -/
def stableKey (s : Bytes) : WithTop Bytes := if s = [] then ⊤ else (s : WithTop Bytes)

theorem stableKey_injective : Function.Injective stableKey := by
  intro a b h
  unfold stableKey at h
  split_ifs at h with ha hb hb
  · rw [ha, hb]
  · exact absurd h.symm WithTop.coe_ne_top
  · exact absurd h WithTop.coe_ne_top
  · exact WithTop.coe_injective h

theorem chooseStableString_key (a b : Bytes) :
    stableKey (chooseStableString a b) = stableKey a ⊓ stableKey b := by
  unfold chooseStableString
  split_ifs with ha hb
  · rw [stableKey, stableKey, if_pos ha, top_inf_eq]
  · rcases hb with hb | hle
    · rw [stableKey, stableKey, if_pos hb, inf_top_eq]
    · symm
      apply inf_eq_left.mpr
      unfold stableKey
      rw [if_neg ha]
      split_ifs
      · exact le_top
      · exact WithTop.coe_le_coe.mpr hle
  · push Not at hb
    symm
    apply inf_eq_right.mpr
    unfold stableKey
    rw [if_neg ha, if_neg hb.1]
    exact WithTop.coe_le_coe.mpr hb.2.le

/-- A payload as a point of a lattice; the merge is the join there. -/
abbrev PayloadView :=
  (WithTop Bytes)ᵒᵈ × (WithTop Bytes)ᵒᵈ × (WithTop Bytes)ᵒᵈ × ℤ × StateView

def PhrasePayload.view (p : PhrasePayload) : PayloadView :=
  (OrderDual.toDual (stableKey p.text), OrderDual.toDual (stableKey p.pinyin),
    OrderDual.toDual (stableKey p.source), p.lastUsedDay, p.state.view)

theorem mergePhrasePayload_view {a b c : PhrasePayload} (h : mergePhrasePayload a b = .ok c) :
    c.view = a.view ⊔ b.view := by
  obtain ⟨hstate, htext, hpinyin, hsource, hday⟩ := mergePhrasePayload_ok h
  have hkey (s t : Bytes) : OrderDual.toDual (stableKey (chooseStableString s t)) =
      OrderDual.toDual (stableKey s) ⊔ OrderDual.toDual (stableKey t) := by
    rw [chooseStableString_key, toDual_inf]
  unfold PhrasePayload.view
  rw [htext, hpinyin, hsource, hday, mergePhrase_view _ _ _ hstate, hkey, hkey, hkey]
  rfl

theorem record_payload (p : PhrasePayload) : p.record.payload = p := rfl

theorem merge_record_view {x : Externals} {store : Store} {m : Merge} {record : Phrase}
    (hp : m.payload.state.Good m.id) (h : m.record x store = .ok record) :
    (m.existing = none → record.payload.view = m.payload.view) ∧
      ∀ old, m.existing = some old →
        record.payload.view = old.payload.view ⊔ m.payload.view := by
  obtain ⟨merged, hmerged, rfl, _⟩ := merge_record_ok hp h
  rw [record_payload]
  unfold Merge.merged at hmerged
  split at hmerged
  · rename_i old hold
    refine ⟨by simp [hold], ?_⟩
    intro old' he
    obtain rfl : old = old' := Option.some.inj (hold.symm.trans he)
    exact mergePhrasePayload_view hmerged
  · rename_i hnone
    refine ⟨fun _ => by rw [Except.ok.inj hmerged], ?_⟩
    intro old he
    rw [hnone] at he
    simp at he

theorem addCounts_toNat (total : UInt64) (l : List (Bytes × UInt64)) :
    (addCounts total l).toNat = min (2^64-1) (total.toNat + (l.map (fun e => e.2.toNat)).sum) := by
  have hm : maxUint64.toNat = 2^64-1 := by decide
  induction l generalizing total with
  | nil =>
    have hbound := total.toNat_lt
    simp only [addCounts, map_nil, sum_nil]
    omega
  | cons e rest ih =>
    have hbound := total.toNat_lt
    have hroom : (maxUint64-total).toNat = 2^64-1-total.toNat := by
      rw [UInt64.toNat_sub_of_le, hm]
      rw [UInt64.le_iff_toNat_le]
      omega
    simp only [addCounts, map_cons, sum_cons]
    split_ifs with hmax
    · rw [UInt64.lt_iff_toNat_lt] at hmax
      omega
    · have hle := UInt64.le_iff_toNat_le.mp (UInt64.not_lt.mp hmax)
      have hadd : (total+e.2).toNat = total.toNat+e.2.toNat := by
        rw [UInt64.toNat_add]
        omega
      rw [ih, hadd]
      omega

theorem addCounts_perm (total : UInt64) {l l' : List (Bytes × UInt64)} (h : l.Perm l') :
    addCounts total l = addCounts total l' := by
  apply UInt64.toNat_inj.mp
  rw [addCounts_toNat, addCounts_toNat, (h.map _).sum_eq]

theorem totalCounts_congr {c c' : Counts}
    (h : ∀ d, (c.find? d).getD 0 = (c'.find? d).getD 0) : totalCounts c = totalCounts c' := by
  have hvalue (c : Counts) (d : Bytes) :
      ((c.find? d).map UInt64.toNat).getD 0 = ((c.find? d).getD 0).toNat := by
    cases c.find? d <;> rfl
  have hsum : (c.entries.map (fun e => e.2.toNat)).sum =
      (c'.entries.map (fun e => e.2.toNat)).sum := by
    apply SortedMap.sum_entries_congr c c' UInt64.toNat
    intro d
    rw [hvalue, hvalue, h d]
  apply UInt64.toNat_inj.mp
  rw [totalCounts, totalCounts, addCounts_toNat, addCounts_toNat, hsum]

/-- All that a record shows, and its replicated state counter by counter. -/
structure SamePhrase (p p' : Phrase) : Prop where
  text : p.text = p'.text
  pinyin : p.pinyin = p'.pinyin
  source : p.source = p'.source
  lastUsedDay : p.lastUsedDay = p'.lastUsedDay
  pinned : p.pinned = p'.pinned
  deleted : p.deleted = p'.deleted
  useCount : p.useCount = p'.useCount
  counts : ∀ d, p.crdt.count d = p'.crdt.count d
  pinnedRegister : p.crdt.pinned = p'.crdt.pinned
  presence : p.crdt.presence = p'.crdt.presence

theorem samePhrase_of_view {p p' : Phrase} (hm : materializePhrase p = p)
    (hm' : materializePhrase p' = p') (h : p.payload.view = p'.payload.view) : SamePhrase p p' := by
  have hkey {s t : Bytes} (he : OrderDual.toDual (stableKey s) = OrderDual.toDual (stableKey t)) :
      s = t := stableKey_injective (OrderDual.toDual.injective he)
  obtain ⟨htext, hpinyin, hsource, hday, hview⟩ : _ ∧ _ ∧ _ ∧ _ ∧ _ := by
    simpa only [PhrasePayload.view, Prod.mk.injEq] using h
  obtain ⟨hcounts, hpinned, hpresence⟩ : _ ∧ _ ∧ _ := by
    simpa only [PhraseState.view, Prod.mk.injEq] using hview
  have hcount (d : Bytes) : p.crdt.count d = p'.crdt.count d :=
    UInt64.toNat_inj.mp (congrFun hcounts d)
  have hpin : p.crdt.pinned = p'.crdt.pinned := LWWBool.view_injective hpinned
  have hpres : p.crdt.presence = p'.crdt.presence := Presence.view_injective hpresence
  obtain ⟨huse, hflag, hdel⟩ := (materialized_iff p).mp hm
  obtain ⟨huse', hflag', hdel'⟩ := (materialized_iff p').mp hm'
  refine ⟨hkey htext, hkey hpinyin, hkey hsource, hday, ?_, ?_, ?_, hcount, hpin, hpres⟩
  · rw [hflag, hflag', hpin]
  · rw [hdel, hdel', hpres]
  · rw [huse, huse', totalCounts_congr hcount]

end YunPin
