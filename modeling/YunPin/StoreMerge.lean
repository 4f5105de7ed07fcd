import YunPin.StoreRecords

/-! What `MergeRemotePayload` writes: a record above the payload and above the record
it has read, under the payload's own object. -/
namespace YunPin
open ByteText List

variable {store : Store} {m : Merge}

/-- A payload that is read in names its object by its own text and reading. -/
theorem mergeLoad_ok {x : Externals} {payload : PhrasePayload} {db : LocalDB}
    (h : mergeLoad x store payload db = .ok m) :
    m.payload = payload ∧ store.objectID x payload.text payload.pinyin = .ok m.id ∧
      payload.state.Good m.id ∧ m.read = db.phrases.find? m.id ∧ m.existing = m.read := by
  unfold mergeLoad at h
  split at h
  · simp at h
  rename_i id hid
  obtain ⟨hobj, hgood⟩ := (validatePayloadObject_ok_iff x store payload id).mp hid
  cases h
  exact ⟨rfl, hobj, hgood, rfl, rfl⟩

theorem migrate_ok {now : Reading} {m' : Merge} {db db' : LocalDB}
    (h : m.migrate store now db = (.ok m', db')) :
    m'.payload = m.payload ∧ m'.id = m.id ∧ m'.read = m.read ∧
      (m'.existing = m.existing ∨ ∃ old, m.existing = some old ∧ old.crdt.objectID = []) := by
  unfold Merge.migrate at h
  split at h
  · rw [← Except.ok.inj (Prod.mk.inj h).1]
    exact ⟨rfl, rfl, rfl, .inl rfl⟩
  rename_i old hold
  split_ifs at h with hlegacy
  · dsimp only at h
    split at h
    · simp at h
    · rw [← Except.ok.inj (Prod.mk.inj h).1]
      exact ⟨rfl, rfl, rfl, .inr ⟨old, hold, hlegacy⟩⟩
  · rw [← Except.ok.inj (Prod.mk.inj h).1]
    exact ⟨rfl, rfl, rfl, .inl rfl⟩

variable {D : DeviceSet} {id : ObjectID} {a b : PhrasePayload}

theorem mergePhrase_good {a b c : PhraseState} (ha : a.Sound D id) (hb : b.Sound D id)
    (h : mergePhrase a b = .ok c) : c.Sound D id := by
  obtain ⟨_, rfl⟩ := (mergePhrase_ok_iff a b c).mp h
  obtain ⟨ca, hca, hka⟩ := ha.counts
  obtain ⟨cb, hcb, hkb⟩ := hb.counts
  refine ⟨ha.objectID, ⟨_, rfl, ?_⟩, ?_, ?_, ?_⟩
  · intro e he
    rw [hca, hcb] at he
    rcases mem_foldl_raiseCount ca (mem_map_of_mem he) with hm | hm
    · obtain ⟨e', he', heq⟩ := mem_map.mp hm
      rw [← heq]
      exact hka e' he'
    · obtain ⟨e', he', heq⟩ := mem_map.mp hm
      rw [← heq]
      exact hkb e' he'
  · rcases choosePresence_cases a.presence b.presence with hp | hp <;> rw [hp]
    · exact ha.generation
    · exact hb.generation
  · rcases chooseBool_cases a.pinned b.pinned with hp | hp <;> rw [hp]
    · exact ha.pinned
    · exact hb.pinned
  · rcases choosePresence_cases a.presence b.presence with hp | hp <;> rw [hp]
    · exact ha.presence
    · exact hb.presence

theorem chooseStableString_ind (P : Bytes → Prop) {left right : Bytes} (hl : P left)
    (hr : P right) : P (chooseStableString left right) := by
  unfold chooseStableString
  split_ifs
  · exact hr
  · exact hl
  · exact hr

theorem mergePhrasePayload_ok {c : PhrasePayload} (h : mergePhrasePayload a b = .ok c) :
    mergePhrase a.state b.state = .ok c.state ∧ c.text = chooseStableString a.text b.text ∧
      c.pinyin = chooseStableString a.pinyin b.pinyin ∧
      c.source = chooseStableString a.source b.source ∧
      c.lastUsedDay = max a.lastUsedDay b.lastUsedDay := by
  unfold mergePhrasePayload at h
  split at h
  · simp at h
  rename_i state hstate
  cases h
  refine ⟨hstate, rfl, rfl, rfl, ?_⟩
  dsimp only
  split_ifs <;> omega

theorem mergePhrasePayload_some (ha : a.state.Sound D id) (hb : b.state.Sound D id) :
    ∃ c, mergePhrasePayload a b = .ok c := by
  obtain ⟨state, hstate⟩ : ∃ state, mergePhrase a.state b.state = .ok state :=
    ⟨_, (mergePhrase_ok_iff _ _ _).mpr ⟨⟨ha.objectID_ne_nil, ha.objectID.trans hb.objectID.symm⟩,
      rfl⟩⟩
  unfold mergePhrasePayload
  rw [hstate]
  exact ⟨_, rfl⟩

/-- The record that a payload is stored as. -/
def PhrasePayload.record (p : PhrasePayload) : Phrase :=
  materializePhrase ⟨p.text, p.pinyin, p.source, 0, false, false, p.lastUsedDay, p.state⟩

theorem ObjectID.hex_injective {a b : ObjectID} (h : hexEncode a.val = hexEncode b.val) : a = b :=
  Subtype.ext (hexEncode_injective h)

/-- The record of a merge is one of the payload's object, and its state is the join. -/
theorem merge_record_ok {x : Externals} {record : Phrase} (hp : m.payload.state.Good m.id)
    (h : m.record x store = .ok record) :
    ∃ merged, m.merged = .ok merged ∧ record = merged.record ∧ record.crdt.Good m.id ∧
      store.objectID x record.text record.pinyin = .ok m.id ∧
      m.payload.state.view ≤ record.crdt.view ∧
      ∀ old, m.existing = some old → old.crdt.objectID = hexEncode m.id.val ∧
        record.crdt.view = old.crdt.view ⊔ m.payload.state.view := by
  unfold Merge.record at h
  split at h
  · simp at h
  rename_i merged hmerged
  split at h
  · simp at h
  rename_i id hid
  obtain ⟨hobj, hgood⟩ := (validatePayloadObject_ok_iff x store merged id).mp hid
  have hclone : clonePhraseState merged.state = merged.state := by
    obtain ⟨c, hc, _⟩ := hgood.counts
    rw [clonePhraseState, hc, Option.getD_some, ← hc]
  rw [hclone] at h
  cases h
  -- The merged state has the identifier of the payload, so it is the same object.
  have hfacts : merged.state.objectID = m.payload.state.objectID ∧
      m.payload.state.view ≤ merged.state.view ∧
      ∀ old, m.existing = some old → old.crdt.objectID = m.payload.state.objectID ∧
        merged.state.view = old.crdt.view ⊔ m.payload.state.view := by
    unfold Merge.merged at hmerged
    split at hmerged
    · rename_i old hold
      unfold mergePhrasePayload at hmerged
      split at hmerged
      · simp at hmerged
      rename_i state hstate
      cases hmerged
      have hview := mergePhrase_view _ _ _ hstate
      obtain ⟨⟨_, hsame⟩, hst⟩ := (mergePhrase_ok_iff _ _ _).mp hstate
      refine ⟨?_, ?_, ?_⟩
      · rw [hst]
        exact hsame
      · rw [hview]
        exact le_sup_right
      · intro old' he
        obtain rfl : old = old' := Option.some.inj (hold.symm.trans he)
        exact ⟨hsame, hview⟩
    · rename_i hnone
      cases hmerged
      exact ⟨rfl, le_rfl, by simp [hnone]⟩
  obtain ⟨hsame, hle, hold⟩ := hfacts
  obtain rfl : id = m.id := ObjectID.hex_injective (by
    rw [← hgood.objectID, hsame, hp.objectID])
  refine ⟨merged, hmerged, rfl, hgood, hobj, hle, ?_⟩
  intro old he
  obtain ⟨ho, hv⟩ := hold old he
  exact ⟨ho.trans hp.objectID, hv⟩

end YunPin
