import YunPin.ReplayEvent
import YunPin.JsonCut

/-! A valid event is read back from its own text, and from no proper part of it. -/
namespace YunPin
open ByteText JsonText List

namespace Replay

variable {α β : Type} {a : α} {fields : List (Target.Field α)} {key : Bytes}

/-- A field whose value is read is the only one that changes. -/
theorem store_field {name : Bytes} (get : α → β) (put : α → β → α) {t : Target β} {v : Value}
    {b : β} (h : t (get a) v = some b) :
    (Target.field name get put t).store a v = some (put a b) := by
  rw [Target.field]
  dsimp only
  rw [h]
  rfl

/-- The record `a` after the members of an object are stored into it in turn. -/
def storedMembers {α : Type} (fields : List (Target.Field α)) (a : α) (members : List Member) :
    Option α :=
  Target.storeMembers fields a (members.map (fun m => (m.key, m.value)))

theorem struct_memberValues (fields : List (Target.Field α)) (a : α) (members : List Member) :
    Target.struct fields a (memberValues members) = storedMembers fields a members := rfl

theorem storedMembers_cons {a' : α} {m : Member} {rest : List Member} {f : Target.Field α}
    (hfind : Target.findField fields m.key = some f) (hstore : f.store a m.value = some a') :
    storedMembers fields a (m :: rest) = storedMembers fields a' rest :=
  Target.storeMembers_cons _ hfind hstore

theorem storedMembers_append {a' : α} {l m : List Member} (h : storedMembers fields a l = some a') :
    storedMembers fields a (l ++ m) = storedMembers fields a' m := by
  rw [storedMembers] at h
  rw [storedMembers, map_append, Target.storeMembers_append, h]
  rfl

theorem store_candidate (candidate : CandidateV1) :
    storedMembers candidateFields {} candidate.members = some candidate := by
  rw [CandidateV1.members, storedMembers_cons rfl rfl, storedMembers_cons rfl rfl,
    storedMembers_cons rfl rfl]
  rfl

theorem store_candidates (candidates : List CandidateV1) :
    (candidates.map (fun c => memberValues c.members)).mapM (Target.struct candidateFields {}) =
      some candidates := by
  induction candidates with
  | nil => rfl
  | cons candidate rest ih =>
    rw [map_cons, mapM_cons, struct_memberValues, store_candidate, ih]
    rfl

theorem slice_candidates {old candidates : Option (List CandidateV1)} :
    Target.slice {} (Target.struct candidateFields) old
      (Member.ofSlice (lit "candidates")
        (candidates.map (List.map CandidateV1.members))).value = some candidates := by
  cases candidates with
  | none => rfl
  | some l =>
    have hstored := store_candidates l
    rw [← Function.comp_def, ← map_map] at hstored
    exact congrArg (Option.map some) hstored

theorem int_intText (old : ℤ) {z : ℤ} (hlow : -2^63 ≤ z) (hhigh : z < 2^63) :
    Target.int old (.number (intText z)) = some z := Target.parseInt_intText hlow hhigh

theorem uint64_decimal {old n : UInt64} : Target.uint64 old (.number (decimal n.toNat)) = some n := by
  rw [Target.uint64, Target.parseUint_decimal n.toNat_lt, Option.map_some, UInt64.ofNat_toNat]

theorem uint32_decimal {old n : UInt32} : Target.uint32 old (.number (decimal n.toNat)) = some n := by
  rw [Target.uint32, Target.parseUint_decimal n.toNat_lt, Option.map_some, UInt32.ofNat_toNat]

theorem store_composition {composition : CompositionV1} (h : composition.Valid) :
    storedMembers compositionFields {} composition.members = some composition := by
  have hshort := h.raw.short
  have hcaret := @int_intText 0 composition.caretByte (by have := h.caret.1; omega) (by
    have := h.caret.2
    rw [maxInputBytes] at hshort
    omega)
  rw [CompositionV1.members, storedMembers_cons rfl rfl, storedMembers_cons rfl rfl,
    storedMembers_cons rfl (store_field _ _ hcaret), storedMembers_cons rfl rfl,
    storedMembers_cons rfl (store_field _ _ slice_candidates)]
  rfl

variable {value : Bytes} (event : EventV1) (selection : SelectionV1)

theorem store_selection (hlow : -2^63 ≤ selection.rank) (hhigh : selection.rank < 2^63) :
    storedMembers selectionFields {} selection.members = some selection := by
  rw [SelectionV1.members, storedMembers_cons rfl (store_field _ _ (int_intText 0 hlow hhigh)),
    storedMembers_cons rfl rfl]
  rfl

theorem store_commit (commit : CommitV1) :
    storedMembers commitFields {} commit.members = some commit := by
  rw [CommitV1.members, storedMembers_cons rfl rfl, storedMembers_cons rfl rfl]
  rfl

theorem store_finalText (final : FinalTextV1) :
    storedMembers finalTextFields {} final.members = some final := by
  rw [FinalTextV1.members, storedMembers_cons rfl rfl,
    storedMembers_cons rfl rfl, storedMembers_cons rfl rfl]
  rfl

theorem store_pointer {zero : α} {t : Target α} {members : List Member}
    (h : t zero (memberValues members) = some a) :
    Target.pointer zero t none (memberValues members) = some (some a) := by
  rw [memberValues] at h ⊢
  rw [Target.pointer]
  · exact congrArg (Option.map some) h
  · exact fun hnull => Value.noConfusion hnull

/-- `omitempty` on a pointer: a null pointer is not written, and stays null when read. -/
theorem store_option {inner : List (Target.Field β)} {zero : β} (members : β → List Member)
    {value : Option β} (get : α → Option β) (put : α → Option β → α)
    (hfind : Target.findField fields key =
      some (Target.field key get put (Target.pointer zero (Target.struct inner))))
    (hget : get a = none) (hput : put a none = a)
    (hvalue : ∀ b ∈ value, storedMembers inner zero (members b) = some b) :
    storedMembers fields a (optionMember key members value) = some (put a value) := by
  cases value with
  | none =>
    rw [hput]
    rfl
  | some b =>
    have hstore : Target.pointer zero (Target.struct inner) (get a) (memberValues (members b)) =
        some (some b) := by
      rw [hget]
      exact store_pointer (hvalue b rfl)
    exact storedMembers_cons hfind (store_field get put hstore)

theorem ofText_text {type : EventType} (h : type ∈ EventType.known) :
    EventType.ofText type.text = type := by
  simp only [EventType.known, mem_cons, not_mem_nil, or_false] at h
  rcases h with rfl | rfl | rfl | rfl | rfl | rfl | rfl | rfl | rfl <;> rfl

/-- `omitempty` on a counter: zero is not written, and is the value of a field not read. -/
theorem store_counter (get : α → β) (put : α → β → α) {t : Target β} {n : ℕ} {b : β}
    (hfind : Target.findField fields key = some (Target.field key get put t))
    (hvalue : t (get a) (.number (decimal n)) = some b) (hzero : n = 0 → put a b = a) :
    storedMembers fields a (counterMember key n) = some (put a b) := by
  rw [counterMember]
  by_cases hn : n = 0
  · rw [if_pos hn, hzero hn]
    rfl
  · rw [if_neg hn]
    exact storedMembers_cons hfind (store_field get put hvalue)

theorem type_known (h : event.validateTypeShape = .ok ()) : event.type ∈ EventType.known := by
  rw [EventV1.validateTypeShape] at h
  cases htype : event.type with
  | other name =>
    rw [htype] at h
    cases h
  | _ => decide

/-- A valid selection is of a candidate that the composition shows. -/
theorem selection_rank (h : event.validateSelection selection = .ok ()) :
    ∃ composition, event.composition = some composition ∧
      1 ≤ selection.rank ∧ selection.rank ≤ composition.shown.length ∧
      selection.matchesRank composition = true := by
  rw [EventV1.validateSelection] at h
  cases hcomposition : event.composition with
  | none =>
    rw [hcomposition] at h
    cases h
  | some composition =>
    rw [hcomposition] at h
    dsimp only at h
    rw [bind_ok_iff, reject_ok_iff, reject_ok_iff, Bool.not_eq_false, Bool.not_eq_false,
      SelectionV1.inRange, decide_eq_true_eq] at h
    exact ⟨composition, rfl, h.1.1, h.1.2, h.2⟩

theorem store_event (h : event.Valid) :
    storedMembers eventFields {} event.members = some event := by
  have hselection : ∀ s ∈ event.selection,
      storedMembers selectionFields {} (SelectionV1.members s) = some s := by
    intro s hs
    obtain ⟨composition, hcomposition, hlow, hhigh, -⟩ := selection_rank event s (h.selection s hs)
    have hfew := (h.composition composition hcomposition).few
    rw [maxCandidates] at hfew
    exact store_selection s (by omega) (by omega)
  have hbase : storedMembers eventFields {} event.required =
      some { version := event.version, sessionID := event.sessionID, episodeID := event.episodeID,
             seq := event.seq, monotonicUS := event.monotonicUS, utc := event.utc,
             type := event.type } := by
    rw [EventV1.required, storedMembers_cons rfl rfl, storedMembers_cons rfl rfl,
      storedMembers_cons rfl rfl, storedMembers_cons rfl (store_field _ _ uint64_decimal),
      storedMembers_cons rfl (store_field _ _ uint64_decimal),
      storedMembers_cons rfl rfl, storedMembers_cons rfl rfl]
    dsimp only
    rw [ofText_text (type_known event h.shape)]
    rfl
  rw [EventV1.members, storedMembers_append hbase,
    storedMembers_append (store_option _ _ _ rfl rfl rfl
      (fun c hc => store_composition (h.composition c hc))),
    storedMembers_append (store_option _ _ _ rfl rfl rfl hselection),
    storedMembers_append (store_option _ _ _ rfl rfl rfl (fun c _ => store_commit c)),
    storedMembers_append (store_counter _ _ rfl uint32_decimal ?_),
    storedMembers_append (store_counter _ _ rfl uint64_decimal ?_),
    store_option _ _ _ rfl rfl rfl (fun f _ => store_finalText f)]
  · intro hzero
    dsimp only
    rw [UInt64.toNat_inj.mp (hzero.trans UInt64.toNat_zero.symm)]
  · intro hzero
    dsimp only
    rw [UInt32.toNat_inj.mp (hzero.trans UInt32.toNat_zero.symm)]

theorem validID_bytes (h : validID value = true) :
    value.length = 32 ∧ ∀ c ∈ value, (0x30 ≤ c ∧ c ≤ 0x39) ∨ (0x61 ≤ c ∧ c ≤ 0x66) := by
  rw [validID, decide_eq_true_eq, all_eq_true] at h
  exact ⟨h.1, fun c hc => of_decide_eq_true (h.2 c hc)⟩

theorem validUTF8_validID (h : validID value = true) : validUTF8 value = true := by
  apply validUTF8_of_ascii
  intro c hc
  rcases (validID_bytes h).2 c hc with hdigit | hletter
  · exact lt_of_le_of_lt hdigit.2 (by decide)
  · exact lt_of_le_of_lt hletter.2 (by decide)

theorem isDateByte_lt {c : UInt8} (h : CivilTime.isDateByte c = true) : c < 0x80 := by
  rw [CivilTime.isDateByte, decide_eq_true_eq] at h
  rcases h with hdigit | rfl | rfl | rfl | rfl | rfl
  · rw [isDigit, decide_eq_true_eq] at hdigit
    exact lt_of_le_of_lt hdigit.2 (by decide)
  all_goals decide

theorem validUTF8_utc (h : CivilTime.isCanonicalUTC value = true) : validUTF8 value = true := by
  apply validUTF8_of_ascii
  intro c hc
  exact isDateByte_lt (all_eq_true.mp (CivilTime.isCanonicalUTC_plain h).2 c hc)

theorem validUTF8_of_mem {texts : List Bytes} (htexts : texts.all validUTF8 = true)
    (h : value ∈ texts) : validUTF8 value = true :=
  all_eq_true.mp htexts value h

theorem written_candidate (candidate : CandidateV1) (h : validUTF8 candidate.text = true) :
    ∀ m ∈ candidate.members, m.Written := by
  rw [CandidateV1.members, forall_mem_cons, forall_mem_cons, forall_mem_singleton]
  exact ⟨Member.written_ofString _ _ rfl h, Member.written_ofBool _ rfl,
    Member.written_ofBool _ rfl⟩

theorem written_composition {composition : CompositionV1} (h : composition.Valid) :
    ∀ m ∈ composition.members, m.Written := by
  rw [CompositionV1.members, forall_mem_cons, forall_mem_cons, forall_mem_cons,
    forall_mem_cons, forall_mem_singleton]
  refine ⟨Member.written_ofString _ _ rfl h.raw.utf8,
    Member.written_ofString _ _ rfl h.pinyin.utf8, Member.written_ofInt _ rfl,
    Member.written_ofBool _ rfl, Member.written_ofSlice _ rfl ?_⟩
  intro l hl members hmembers
  obtain ⟨candidates, hcandidates, rfl⟩ := Option.map_eq_some_iff.mp hl
  obtain ⟨candidate, hcandidate, rfl⟩ := mem_map.mp hmembers
  apply written_candidate candidate
  apply (h.texts candidate _).utf8
  rw [CompositionV1.shown, hcandidates]
  exact hcandidate

theorem written_selection (h : validUTF8 selection.text = true) :
    ∀ m ∈ selection.members, m.Written := by
  rw [SelectionV1.members, forall_mem_cons, forall_mem_singleton]
  exact ⟨Member.written_ofInt _ rfl, Member.written_ofString _ _ rfl h⟩

theorem written_commit {commit : CommitV1} (h : commit.validate = .ok ()) :
    ∀ m ∈ commit.members, m.Written := by
  rw [CommitV1.validate, bind_ok_iff, validateText_ok_iff, reject_ok_iff, not_not] at h
  rw [CommitV1.members, forall_mem_cons, forall_mem_singleton]
  exact ⟨Member.written_ofString _ _ rfl h.1.utf8,
    Member.written_ofString _ _ rfl (validUTF8_of_mem (by decide) h.2)⟩

theorem written_finalText {final : FinalTextV1} (h : final.validate = .ok ()) :
    ∀ m ∈ final.members, m.Written := by
  rw [FinalTextV1.validate, bind_ok_iff, bind_ok_iff, validateText_ok_iff, reject_ok_iff, not_not,
    reject_ok_iff, not_not] at h
  rw [FinalTextV1.members, forall_mem_cons, forall_mem_cons, forall_mem_singleton]
  exact ⟨Member.written_ofString _ _ rfl h.1.utf8,
    Member.written_ofString _ _ rfl (validUTF8_of_mem (by decide) h.2.1),
    Member.written_ofString _ _ rfl (validUTF8_of_mem (by decide) h.2.2)⟩

theorem written_option (members : α → List Member) {value : Option α} (hkey : PlainKey key)
    (h : ∀ a ∈ value, ∀ m ∈ members a, m.Written) :
    ∀ m ∈ optionMember key members value, m.Written := by
  intro m hm
  cases value with
  | none => exact absurd hm not_mem_nil
  | some a =>
    rw [mem_singleton.mp hm]
    exact Member.written_ofObject key (members a) hkey (h a rfl)

theorem written_counter {n : ℕ} (hkey : PlainKey key) :
    ∀ m ∈ counterMember key n, m.Written := by
  intro m hm
  rw [counterMember] at hm
  split_ifs at hm
  · exact absurd hm not_mem_nil
  · rw [mem_singleton.mp hm]
    exact Member.written_ofNat key hkey

theorem written_event (h : event.Valid) : ∀ m ∈ event.members, m.Written := by
  have hversion : validUTF8 event.version = true := by
    rw [h.version]
    decide
  have htype : validUTF8 event.type.text = true :=
    validUTF8_of_mem (by decide) (mem_map_of_mem (f := EventType.text) (type_known event h.shape))
  have hselection : ∀ s ∈ event.selection, ∀ m ∈ SelectionV1.members s, m.Written := by
    intro s hs
    obtain ⟨composition, hcomposition, hlow, hhigh, hmatches⟩ :=
      selection_rank event s (h.selection s hs)
    apply written_selection
    rw [SelectionV1.matchesRank, decide_eq_true_eq] at hmatches
    rw [hmatches]
    have hindex : (s.rank-1).toNat < composition.shown.length := by omega
    rw [getD_eq_getElem _ _ hindex]
    exact ((h.composition composition hcomposition).texts _ (getElem_mem hindex)).utf8
  rw [EventV1.members, EventV1.required]
  simp only [forall_mem_append, forall_mem_cons, not_mem_nil, false_imp_iff,
    implies_true, and_true]
  refine ⟨⟨?_, ?_, ?_, ?_, ?_, ?_, ?_⟩, ?_, ?_, ?_, ?_, ?_, ?_⟩
  · exact Member.written_ofString _ _ rfl hversion
  · exact Member.written_ofString _ _ rfl (validUTF8_validID h.sessionID)
  · exact Member.written_ofString _ _ rfl (validUTF8_validID h.episodeID)
  · exact Member.written_ofNat _ rfl
  · exact Member.written_ofNat _ rfl
  · exact Member.written_ofString _ _ rfl (validUTF8_utc h.utc)
  · exact Member.written_ofString _ _ rfl htype
  · exact written_option _ rfl (fun c hc => written_composition (h.composition c hc))
  · exact written_option _ rfl hselection
  · exact written_option _ rfl (fun c hc => written_commit (h.commit c hc))
  · exact written_counter rfl
  · exact written_counter rfl
  · exact written_option _ rfl (fun f hf => written_finalText (h.finalText f hf))

theorem denotes_event (h : event.Valid) : Denotes event.marshal (memberValues event.members) :=
  denotes_members event.members (written_event event h)

/-- `DecodeEventV1` inverts `json.Marshal` on the events that `Validate` accepts. -/
theorem decodeEventV1_marshal (h : event.Valid) : decodeEventV1 event.marshal = .ok event := by
  have hread : unmarshal {} eventFields event.marshal = some event := by
    rw [unmarshal, decodeOne_denotes _ (denotes_event event h)]
    exact store_event event h
  rw [decodeEventV1, if_neg (denotes_event event h).nonempty, if_neg (not_lt.mpr h.size), hread]
  dsimp only
  rw [(EventV1.validate_ok_iff event).mpr h]
  rfl

theorem decodeEventV1_none {line : Bytes} (h : decodeOne line = none) :
    ∀ event, decodeEventV1 line ≠ .ok event := by
  intro event hok
  rw [decodeEventV1, unmarshal, h] at hok
  split_ifs at hok

/-- A line cut short is no event. -/
theorem decodeEventV1_take (h : event.Valid) {k : ℕ} (hk : k < event.marshal.length)
    (other : EventV1) :
    decodeEventV1 (event.marshal.take k) ≠ .ok other :=
  decodeEventV1_none (decodeOne_take (denotes_event event h) hk) other

/-- Nor is a line with more after the event. -/
theorem decodeEventV1_twice (second : EventV1) (h : event.Valid) (other : EventV1) :
    decodeEventV1 (event.marshal ++ second.marshal) ≠ .ok other :=
  decodeEventV1_none (decodeOne_twice (denotes_event event h) rfl) other

end Replay
end YunPin
