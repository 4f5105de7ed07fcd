import YunPin.ImportFilter
import YunPin.PrivateSnapshot

/-! The importer writes tab-separated values with the quoting of a CSV writer; the loader splits at
tabs and skips comments. What is loaded again, and what is not. -/
namespace YunPin
open ByteText List

namespace Importer

structure Entry where
  phrase : List ℕ
  pinyin : List ℕ
  source : List ℕ
  useCount : ℕ

/-- A field of the dialect `excel-tab`: quoted when it holds a tab, a quotation mark or a line
break, with quotation marks doubled. -/
def csvField (s : List ℕ) : List ℕ :=
  if s.any (fun r => r = 0x09 ∨ r = 0x22 ∨ r = 0x0A ∨ r = 0x0D) then
    0x22 :: s.flatMap (fun r => if r = 0x22 then [0x22, 0x22] else [r]) ++ [0x22]
  else s

def csvRow (fields : List (List ℕ)) : List ℕ := [0x09].intercalate (fields.map csvField) ++ [0x0A]

def decimal (n : ℕ) : List ℕ := (Nat.toDigits 10 n).map Char.toNat

def headerFields : List (List ℕ) :=
  [runes (lit "phrase"), runes (lit "pinyin"), runes (lit "source"), runes (lit "use_count")]

def Entry.fields (e : Entry) : List (List ℕ) := [e.phrase, e.pinyin, e.source, decimal e.useCount]

def writeAtomicTsv (entries : List Entry) : Option Bytes :=
  let text := csvRow headerFields ++ entries.flatMap (fun e => csvRow e.fields)
  if ∀ r ∈ text, IsScalar r then some (encodeRunes text) else none

def isControl (r : ℕ) : Bool := r < 0x20 ∨ (0x7F ≤ r ∧ r ≤ 0x9F)

/-- What the importer produces and the limits of the loader. -/
structure Entry.Importable (k : CharacterClasses) (t : CharacterData) (e : Entry) : Prop where
  phrase_normal : ∃ value, e.phrase = normalizePhrase t value
  phrase_valid : validatePhrase k t e.phrase = (true, none)
  phrase_scalar : ∀ r ∈ e.phrase, IsScalar r
  phrase_length : (encodeRunes e.phrase).length ≤ 512
  pinyin_normal : ∃ value, e.pinyin = normalizePinyin t value
  pinyin_ne : e.pinyin ≠ []
  pinyin_length : (encodeRunes e.pinyin).length ≤ 256
  pinyin_tokens : ∀ w ∈ e.pinyin.splitOn 0x20, encodeRunes w ∈ Engine.builtInSyllables
  source_clean : ∀ r ∈ e.source, isControl r = false
  source_scalar : ∀ r ∈ e.source, IsScalar r
  source_length : (encodeRunes e.source).length ≤ 128
  count_range : 1 ≤ e.useCount ∧ e.useCount ≤ 2^31-1

/-- An entry whose line the loader takes for what it is: the phrase needs no quotes and starts no
comment, and quotes do not make the source too long. -/
def Entry.LoadsUnchanged (e : Entry) : Prop :=
  0x22 ∉ e.phrase ∧ e.phrase.head? ≠ some 0x23 ∧ (encodeRunes (csvField e.source)).length ≤ 128

def Entry.content (e : Entry) : Bytes × List Bytes × ℕ :=
  (encodeRunes e.phrase, (e.pinyin.splitOn 0x20).map encodeRunes, e.useCount)

def Entry.id (e : Entry) : Bytes :=
  Snapshot.stableId (encodeRunes e.phrase) (encodeRunes e.pinyin)

theorem encodeRunes_intercalate (sep : ℕ) (hsep : sep < 0x80) (fields : List (List ℕ)) :
    encodeRunes ([sep].intercalate fields) =
      [UInt8.ofNat sep].intercalate (fields.map encodeRunes) := by
  induction fields with
  | nil => rfl
  | cons f fields ih =>
    rcases fields with _ | ⟨g, fields⟩
    · rw [intercalate_singleton, map_singleton, intercalate_singleton]
    · have hsep' : encodeRunes [sep] = [UInt8.ofNat sep] := by
        rw [encodeRunes_cons, encodeRune_ascii sep hsep]
        rfl
      rw [intercalate_cons_cons, encodeRunes_append, encodeRunes_append, ih, hsep']
      exact intercalate_cons_cons.symm

theorem encodeRune_ne_nil {r : ℕ} : encodeRune r ≠ [] := by
  unfold encodeRune
  split_ifs <;> exact cons_ne_nil _ _

theorem mem_of_mem_encodeRunes {l : List ℕ} {b : UInt8} (hb : b.toNat < 0x80)
    (h : b ∈ encodeRunes l) : b.toNat ∈ l := by
  obtain ⟨r, hr, hbr⟩ := mem_flatMap.mp h
  rcases Nat.lt_or_ge r 0x80 with hlow | hhigh
  · rw [encodeRune_ascii r hlow, mem_singleton] at hbr
    rw [hbr, toNat_byte r (by omega)]
    exact hr
  · exact absurd hb (Nat.not_lt.mpr (le_of_mem_encodeRune hhigh b hbr))

def Clean (f : List ℕ) : Prop := ∀ r ∈ f, r ≠ 0x09 ∧ r ≠ 0x0A ∧ r ≠ 0x0D

variable {k : CharacterClasses} {t : CharacterData} (f : List ℕ) (fields : List (List ℕ))

theorem csvField_of_clean (hf : Clean f) (hq : 0x22 ∉ f) : csvField f = f := by
  refine if_neg ?_
  rw [any_eq_true]
  rintro ⟨r, hr, h⟩
  have hc := hf r hr
  have hne : r ≠ 0x22 := fun he => hq (he ▸ hr)
  rw [decide_eq_true_eq] at h
  omega

theorem mem_csvField {r : ℕ} (h : r ∈ csvField f) : r ∈ f ∨ r = 0x22 := by
  unfold csvField at h
  split at h
  · simp only [cons_append, mem_cons, mem_append, mem_flatMap,
      not_mem_nil, or_false] at h
    rcases h with h | ⟨x, hx, h⟩ | h
    · exact .inr h
    · split at h
      · exact .inr (by simpa using h)
      · exact .inl (mem_singleton.mp h ▸ hx)
    · exact .inr h
  · exact .inl h

def rowLine (fields : List (List ℕ)) : Bytes :=
  [0x09].intercalate (fields.map (fun f => encodeRunes (csvField f)))

theorem encodeRunes_csvRow : encodeRunes (csvRow fields) = rowLine fields ++ [0x0A] := by
  rw [csvRow, encodeRunes_append, encodeRunes_intercalate 0x09 (by decide), map_map]
  rfl

theorem not_mem_encodeRunes_csvField (hf : Clean f) {b : UInt8}
    (hb : b = 0x09 ∨ b = 0x0A ∨ b = 0x0D) : b ∉ encodeRunes (csvField f) := by
  intro h
  have hlow : b.toNat < 0x80 := by
    rcases hb with rfl | rfl | rfl <;> decide
  rcases mem_csvField f (mem_of_mem_encodeRunes hlow h) with hr | hr
  · have hc := hf _ hr
    rcases hb with rfl | rfl | rfl
    · exact hc.1 rfl
    · exact hc.2.1 rfl
    · exact hc.2.2 rfl
  · rcases hb with rfl | rfl | rfl <;> exact absurd hr (by decide)

theorem not_mem_rowLine (hf : ∀ f ∈ fields, Clean f) {b : UInt8} (hb : b = 0x0A ∨ b = 0x0D) :
    b ∉ rowLine fields := by
  intro h
  rcases Engine.mem_of_mem_intercalate h with h | ⟨w, hw, h⟩
  · rw [mem_singleton] at h
    rcases hb with rfl | rfl <;> exact absurd h (by decide)
  · obtain ⟨f, hfield, rfl⟩ := mem_map.mp hw
    exact not_mem_encodeRunes_csvField f (hf f hfield) (.inr hb) h

theorem dropReturn_rowLine (hf : ∀ f ∈ fields, Clean f) :
    Snapshot.dropReturn (rowLine fields) = rowLine fields :=
  if_neg fun h => not_mem_rowLine fields hf (.inr rfl) (mem_of_getLast? h)

theorem splitTabs_rowLine (hne : fields ≠ []) (hf : ∀ f ∈ fields, Clean f) :
    Snapshot.splitTabs (rowLine fields) = fields.map (fun f => encodeRunes (csvField f)) := by
  refine splitOn_intercalate 0x09 ?_ (by simpa using hne)
  intro w hw
  obtain ⟨f, hfield, rfl⟩ := mem_map.mp hw
  exact not_mem_encodeRunes_csvField f (hf f hfield) (.inl rfl)

theorem encodeRunes_csvField_eq_iff (hf : Clean f) :
    encodeRunes (csvField f) = encodeRunes f ↔ 0x22 ∉ f := by
  refine ⟨fun h hq => ?_, fun hq => by rw [csvField_of_clean f hf hq]⟩
  have hany : f.any (fun r => r = 0x09 ∨ r = 0x22 ∨ r = 0x0A ∨ r = 0x0D) = true :=
    any_eq_true.mpr ⟨0x22, hq, by decide⟩
  have hlen : (encodeRunes f).length ≤
      (encodeRunes (f.flatMap (fun r => if r = 0x22 then [0x22, 0x22] else [r]))).length := by
    clear h hq hany hf
    induction f with
    | nil => exact le_rfl
    | cons r f ih =>
      rw [flatMap_cons, encodeRunes_append, encodeRunes_cons, length_append,
        length_append]
      refine Nat.add_le_add ?_ ih
      split
      · next he =>
        rw [he]
        decide
      · rw [encodeRunes_cons, length_append]
        exact Nat.le_add_right _ _
  have hlength := congrArg List.length h
  rw [csvField, if_pos hany, cons_append, encodeRunes_cons, encodeRunes_append,
    length_append, length_append, encodeRune_ascii 0x22 (by decide)] at hlength
  simp only [length_cons, length_nil] at hlength
  omega

theorem head_rowLine (hf : Clean f) (hne : f ≠ []) (hq : 0x22 ∉ f) :
    (rowLine (f :: fields)).head? = some 0x23 ↔ f.head? = some 0x23 := by
  obtain ⟨r, f, rfl⟩ := exists_cons_of_ne_nil hne
  obtain ⟨rest, hrest⟩ : ∃ rest, rowLine ((r :: f) :: fields) = encodeRune r ++ rest := by
    rw [rowLine, map_cons, csvField_of_clean _ hf hq, encodeRunes_cons]
    rcases fields with _ | ⟨g, fields⟩
    · rw [map_nil, intercalate_singleton]
      exact ⟨_, rfl⟩
    · rw [map_cons, intercalate_cons_cons, append_assoc, append_assoc]
      exact ⟨_, rfl⟩
  obtain ⟨b, tail, hrune⟩ := exists_cons_of_ne_nil (encodeRune_ne_nil)
  rw [hrest, hrune, cons_append, head?_cons, head?_cons, Option.some_inj,
    Option.some_inj]
  rcases Nat.lt_or_ge r 0x80 with hlow | hhigh
  · rw [encodeRune_ascii r hlow, List.cons.injEq] at hrune
    rw [← hrune.1, ← UInt8.toNat_inj, toNat_byte r (by omega)]
    rfl
  · have hb := le_of_mem_encodeRune hhigh b (hrune ▸ mem_cons_self)
    constructor
    · rintro rfl
      exact absurd hb (by decide)
    · intro hr
      omega

theorem mem_decimal {n r : ℕ} (h : r ∈ decimal n) : 48 ≤ r ∧ r ≤ 57 := by
  obtain ⟨c, hc, rfl⟩ := mem_map.mp h
  exact JsonText.digit_facts n hc

section Entry
variable {e : Entry} (h : e.Importable k t)
include h

theorem phrase_clean : Clean e.phrase := by
  intro r hr
  have hctl := ((validatePhrase_ok_iff k t e.phrase).mp h.phrase_valid).2.2.2.2 r hr
  exact ⟨hctl.2.2, hctl.2.1, hctl.1⟩

theorem source_clean_fields : Clean e.source := by
  intro r hr
  have hctl := h.source_clean r hr
  rw [isControl, decide_eq_false_iff_not] at hctl
  omega

theorem pinyin_ascii {r : ℕ} (hr : r ∈ e.pinyin) : r = 0x20 ∨ (0x61 ≤ r ∧ r ≤ 0x7A) := by
  have hjoin : [0x20].intercalate (e.pinyin.splitOn 0x20) = e.pinyin := intercalate_splitOn 0x20
  rw [← hjoin] at hr
  rcases Engine.mem_of_mem_intercalate hr with hr | ⟨w, hw, hr⟩
  · exact .inl (mem_singleton.mp hr)
  · have hlower := (Engine.builtInSyllables_lower (h.pinyin_tokens w hw)).2
    have hbyte : ∀ b ∈ encodeRune r, 0x61 ≤ b.toNat ∧ b.toNat ≤ 0x7A := by
      intro b hb
      have hl := hlower b (mem_flatMap.mpr ⟨r, hr, hb⟩)
      rw [Engine.isLowerByte, decide_eq_true_eq, UInt8.le_iff_toNat_le, UInt8.le_iff_toNat_le] at hl
      exact hl
    rcases Nat.lt_or_ge r 0x80 with hlow | hhigh
    · have hb := hbyte (UInt8.ofNat r) (by rw [encodeRune_ascii r hlow]; exact mem_cons_self)
      rw [toNat_byte r (by omega)] at hb
      exact .inr hb
    · obtain ⟨b, tail, hrune⟩ := exists_cons_of_ne_nil (encodeRune_ne_nil)
      have hmem : b ∈ encodeRune r := hrune ▸ mem_cons_self
      have hb := hbyte b hmem
      have hb' := le_of_mem_encodeRune hhigh b hmem
      omega

theorem fields_clean : ∀ f ∈ e.fields, Clean f := by
  simp only [Entry.fields, mem_cons, not_mem_nil, or_false, forall_eq_or_imp, forall_eq]
  refine ⟨phrase_clean h, ?_, source_clean_fields h, ?_⟩
  · intro r hr
    have hascii := pinyin_ascii h hr
    omega
  · intro r hr
    have hdigit := mem_decimal hr
    omega

theorem splitTabs_entry : Snapshot.splitTabs (rowLine e.fields) =
    [encodeRunes (csvField e.phrase), [0x20].intercalate ((e.pinyin.splitOn 0x20).map encodeRunes),
      encodeRunes (csvField e.source),
      (Nat.toDigits 10 e.useCount).map (fun c => UInt8.ofNat c.toNat)] := by
  have hpinyin : csvField e.pinyin = e.pinyin := by
    refine csvField_of_clean _ (fields_clean h _ (by simp [Entry.fields])) (fun hq => ?_)
    have hascii := pinyin_ascii h hq
    omega
  have hcount : csvField (decimal e.useCount) = decimal e.useCount := by
    refine csvField_of_clean _ (fields_clean h _ (by simp [Entry.fields])) (fun hq => ?_)
    have hdigit := mem_decimal hq
    omega
  have hdigits : encodeRunes (decimal e.useCount) =
      (Nat.toDigits 10 e.useCount).map (fun c => UInt8.ofNat c.toNat) := by
    rw [encodeRunes_ascii _ (fun r hr => ?_), decimal, map_map]
    · rfl
    · have hdigit := mem_decimal hr
      omega
  have htokens := encodeRunes_intercalate 0x20 (by decide) (e.pinyin.splitOn 0x20)
  rw [intercalate_splitOn] at htokens
  rw [splitTabs_rowLine e.fields (by simp [Entry.fields]) (fields_clean h)]
  simp only [Entry.fields, map_cons, map_nil, hpinyin, hcount, hdigits, htokens]
  rfl

theorem readRow_entry :
    (Snapshot.readRow 4 (Snapshot.splitTabs (rowLine e.fields))).map (fun x => (x.id, x.content)) =
      if encodeRunes (csvField e.phrase) = [] ∨ (encodeRunes (csvField e.phrase)).length > 512 ∨
          (encodeRunes (csvField e.source)).length > 128 then none
      else some (Snapshot.stableId (encodeRunes (csvField e.phrase)) (encodeRunes e.pinyin),
        encodeRunes (csvField e.phrase), (e.pinyin.splitOn 0x20).map encodeRunes, e.useCount) := by
  have htokens := encodeRunes_intercalate 0x20 (by decide) (e.pinyin.splitOn 0x20)
  rw [intercalate_splitOn] at htokens
  have hne : (e.pinyin.splitOn 0x20).map encodeRunes ≠ [] := by
    intro hnil
    have hjoin : [0x20].intercalate (e.pinyin.splitOn 0x20) = e.pinyin :=
      intercalate_splitOn 0x20
    rw [map_eq_nil_iff.mp hnil] at hjoin
    exact h.pinyin_ne hjoin.symm
  have hlen := h.pinyin_length
  rw [htokens] at hlen
  have hrange := h.count_range
  rw [splitTabs_entry h, htokens]
  refine Snapshot.readRow_four hne ?_ hlen (Snapshot.parseCount_digits _ (by omega) (by omega))
  intro w hw
  obtain ⟨v, hv, rfl⟩ := mem_map.mp hw
  exact h.pinyin_tokens v hv

theorem phrase_ne_nil : e.phrase ≠ [] :=
  ((validatePhrase_ok_iff k t e.phrase).mp h.phrase_valid).1

theorem head_entry (hq : 0x22 ∉ e.phrase) :
    (rowLine e.fields).head? = some 0x23 ↔ e.phrase.head? = some 0x23 :=
  head_rowLine e.phrase _ (phrase_clean h) (phrase_ne_nil h) hq

theorem loadLine_accept (hload : e.LoadsUnchanged) {st : Snapshot.LoadState}
    (hroom : st.result.entries.length < Snapshot.kMaxPrivateSnapshotEntries) (hid : e.id ∉ st.ids) :
    ∃ entry : Snapshot.PhraseEntry, entry.id = e.id ∧
      entry.content = e.content ∧ Snapshot.loadLine 4 st (rowLine e.fields) = st.accept entry := by
  obtain ⟨hq, hhead, hsource⟩ := hload
  have hplain : csvField e.phrase = e.phrase := csvField_of_clean _ (phrase_clean h) hq
  have hne : encodeRunes e.phrase ≠ [] := by
    obtain ⟨r, rest, hr⟩ := exists_cons_of_ne_nil (phrase_ne_nil h)
    rw [hr, encodeRunes_cons]
    exact append_ne_nil_of_left_ne_nil (encodeRune_ne_nil) _
  have hrow := readRow_entry h
  have hlen := h.phrase_length
  rw [hplain, if_neg (by
    rintro (hnil | hlong | hlong)
    · exact hne hnil
    · omega
    · omega)] at hrow
  obtain ⟨entry, hentry, he⟩ := Option.map_eq_some_iff.mp hrow
  obtain ⟨hident, hcontent⟩ := Prod.mk.inj he
  refine ⟨entry, hident, hcontent, ?_⟩
  have hline : rowLine e.fields ≠ [] := by
    intro hnil
    have hsplit := splitTabs_entry h
    rw [hnil] at hsplit
    have hlength : 1 = 4 := congrArg List.length hsplit
    omega
  rw [Snapshot.loadLine, dropReturn_rowLine e.fields (fields_clean h)]
  simp only [hline, false_or, head_entry h hq, hhead, if_false, hentry]
  rw [if_neg (Nat.not_le.mpr hroom), if_neg (by rw [hident]; exact hid)]

theorem loadsUnchanged_of_accept {entry : Snapshot.PhraseEntry}
    (hhead : (rowLine e.fields).head? ≠ some 0x23)
    (hrow : Snapshot.readRow 4 (Snapshot.splitTabs (rowLine e.fields)) = some entry)
    (hcontent : entry.content = e.content) : e.LoadsUnchanged := by
  have hread := readRow_entry h
  rw [hrow, Option.map_some] at hread
  split at hread
  · cases hread
  · next hok =>
    have hpair := Option.some.inj hread
    have htext := (Prod.mk.inj ((Prod.mk.inj hpair).2.symm.trans hcontent)).1
    have hq := (encodeRunes_csvField_eq_iff _ (phrase_clean h)).mp htext
    refine ⟨hq, fun hp => hhead ((head_entry h hq).mpr hp), ?_⟩
    omega

end Entry

theorem loadLines_iff {entries : List Entry} (h : ∀ e ∈ entries, e.Importable k t)
    (hid : entries.Pairwise (fun a b => a.id ≠ b.id)) (st : Snapshot.LoadState)
    (hfresh : ∀ e ∈ entries, e.id ∉ st.ids)
    (hroom : st.result.entries.length+entries.length ≤ Snapshot.kMaxPrivateSnapshotEntries) :
    (((entries.map (fun e => rowLine e.fields)).foldl (Snapshot.loadLine 4) st).result.entries.map
          Snapshot.PhraseEntry.content =
        st.result.entries.map Snapshot.PhraseEntry.content ++ entries.map Entry.content ∧
      ((entries.map (fun e => rowLine e.fields)).foldl (Snapshot.loadLine 4) st).result.rejectedRows =
        st.result.rejectedRows) ↔ ∀ e ∈ entries, e.LoadsUnchanged := by
  induction entries generalizing st with
  | nil => simp
  | cons e entries ih =>
    have he := h e mem_cons_self
    rw [pairwise_cons] at hid
    rw [length_cons] at hroom
    rw [map_cons, foldl_cons, map_cons]
    by_cases hload : e.LoadsUnchanged
    · obtain ⟨entry, hident, hcontent, hline⟩ :=
        loadLine_accept he hload (by omega) (hfresh e mem_cons_self)
      have hrest := ih (forall_mem_cons.mp h).2 hid.2 (st.accept entry) ?_ ?_
      · rw [hline, forall_mem_cons, and_iff_right hload, ← hrest]
        simp [Snapshot.LoadState.accept, hcontent]
      · intro x hx hmem
        rcases mem_cons.mp hmem with heq | hmem
        · exact hid.1 x hx (hident.symm.trans heq.symm)
        · exact hfresh x (mem_cons_of_mem e hx) hmem
      · simp only [Snapshot.LoadState.accept, length_append, length_singleton]
        omega
    · refine iff_of_false ?_ (fun hall => hload (hall e mem_cons_self))
      rintro ⟨hentries, -⟩
      obtain ⟨more, hmore, hlen⟩ := Snapshot.foldl_loadLine_entries 4
        (entries.map (fun e => rowLine e.fields)) (Snapshot.loadLine 4 st (rowLine e.fields))
      rcases Snapshot.loadLine_cases 4 st (rowLine e.fields) with hsame | ⟨hhead, entry, hrow, hline⟩
      · -- A line that adds nothing leaves the list too short.
        have hlength := congrArg List.length hentries
        rw [hmore, hsame] at hlength
        simp only [length_map, length_append, length_cons] at hlength hlen
        omega
      · rw [hmore, hline, map_append, Snapshot.LoadState.accept, map_append,
          append_assoc] at hentries
        have hcons := append_cancel_left hentries
        rw [dropReturn_rowLine e.fields (fields_clean he)] at hhead hrow
        exact hload (loadsUnchanged_of_accept he hhead hrow (List.cons.inj hcons).1)

theorem encodeRunes_rows (rows : List (List (List ℕ))) :
    encodeRunes (rows.flatMap csvRow) = (rows.map rowLine).flatMap (fun row => row ++ [0x0A]) := by
  induction rows with
  | nil => rfl
  | cons fields rows ih =>
    rw [flatMap_cons, encodeRunes_append, encodeRunes_csvRow, ih, map_cons,
      flatMap_cons]

theorem parsePrivateSnapshot_rows {rows : List (List (List ℕ))}
    (h : ∀ fields ∈ rows, ∀ f ∈ fields, Clean f) :
    Snapshot.parsePrivateSnapshot (encodeRunes ((headerFields :: rows).flatMap csvRow)) =
      ((rows.map rowLine).foldl (Snapshot.loadLine 4)
        { result := { entries := [], acceptedRows := 0, rejectedRows := 0, headerValid := true },
          ids := [] }).result := by
  have hheader : Snapshot.splitTabs (Snapshot.dropReturn (rowLine headerFields)) =
      [lit "phrase", lit "pinyin", lit "source", lit "use_count"] := by decide
  have hexpected : Snapshot.isExpectedHeader
      [lit "phrase", lit "pinyin", lit "source", lit "use_count"] = true := by decide
  have hlines := Snapshot.getLines_rows ((headerFields :: rows).map rowLine) (by
    intro row hrow
    rcases mem_cons.mp hrow with rfl | hrow
    · decide
    · obtain ⟨fields, hfields, rfl⟩ := mem_map.mp hrow
      exact not_mem_rowLine fields (h fields hfields) (.inl rfl))
  rw [← encodeRunes_rows, map_cons] at hlines
  simp only [Snapshot.parsePrivateSnapshot, hlines, hheader, hexpected, if_true]
  rfl

theorem csvRow_scalar (h : ∀ f ∈ fields, ∀ r ∈ f, IsScalar r) :
    ∀ r ∈ csvRow fields, IsScalar r := by
  intro r hr
  rcases mem_append.mp hr with hr | hr
  · rcases Engine.mem_of_mem_intercalate hr with hr | ⟨w, hw, hr⟩
    · rw [mem_singleton.mp hr]
      decide
    · obtain ⟨f, hf, rfl⟩ := mem_map.mp hw
      rcases mem_csvField f hr with hr | rfl
      · exact h f hf r hr
      · decide
  · rw [mem_singleton.mp hr]
    decide

theorem fields_scalar {e : Entry} (h : e.Importable k t) : ∀ f ∈ e.fields, ∀ r ∈ f, IsScalar r := by
  simp only [Entry.fields, mem_cons, not_mem_nil, or_false, forall_eq_or_imp, forall_eq]
  refine ⟨h.phrase_scalar, fun r hr => ?_, h.source_scalar, fun r hr => ?_⟩
  · have hascii := pinyin_ascii h hr
    exact .inl (by omega)
  · have hdigit := mem_decimal hr
    exact .inl (by omega)

theorem writeAtomicTsv_importable {entries : List Entry} (h : ∀ e ∈ entries, e.Importable k t) :
    writeAtomicTsv entries =
      some (encodeRunes ((headerFields :: entries.map Entry.fields).flatMap csvRow)) := by
  have htext : (headerFields :: entries.map Entry.fields).flatMap csvRow =
      csvRow headerFields ++ entries.flatMap (fun e => csvRow e.fields) := by
    rw [flatMap_cons, flatMap_map]
  have hheader : ∀ r ∈ csvRow headerFields, IsScalar r := by decide
  rw [htext]
  refine if_pos fun r hr => ?_
  rcases mem_append.mp hr with hr | hr
  · exact hheader r hr
  · obtain ⟨e, he, hr⟩ := mem_flatMap.mp hr
    exact csvRow_scalar e.fields (fields_scalar (h e he)) r hr

/-- Distinct entries without a hash collision come back unchanged and in order exactly when none
of them needs the quotes or starts a comment. -/
theorem importer_output_loads (k : CharacterClasses) (t : CharacterData) (entries : List Entry)
    (hlen : entries.length ≤ 100000)
    (hdistinct : entries.Pairwise (fun a b => (a.phrase, a.pinyin) ≠ (b.phrase, b.pinyin)))
    (hcollision : ∀ a ∈ entries, ∀ b ∈ entries, a.id = b.id →
      (a.phrase, a.pinyin) = (b.phrase, b.pinyin))
    (h : ∀ e ∈ entries, e.Importable k t) :
    ∃ file, writeAtomicTsv entries = some file ∧
      ((Snapshot.parsePrivateSnapshot file).entries.map Snapshot.PhraseEntry.content =
          entries.map Entry.content ∧ (Snapshot.parsePrivateSnapshot file).rejectedRows = 0 ↔
        ∀ e ∈ entries, e.LoadsUnchanged) := by
  have hid : entries.Pairwise (fun a b => a.id ≠ b.id) := by
    refine hdistinct.imp_of_mem fun {a b} ha hb hne => ?_
    exact fun he => hne (hcollision a ha b hb he)
  have hclean : ∀ fields ∈ entries.map Entry.fields, ∀ f ∈ fields, Clean f := by
    intro fields hfields
    obtain ⟨e, he, rfl⟩ := mem_map.mp hfields
    exact fields_clean (h e he)
  refine ⟨_, writeAtomicTsv_importable h, ?_⟩
  rw [parsePrivateSnapshot_rows hclean, map_map]
  refine Iff.trans (Iff.of_eq ?_) (loadLines_iff h hid
    { result := { entries := [], acceptedRows := 0, rejectedRows := 0, headerValid := true },
      ids := [] } (fun _ _ => not_mem_nil) ?_)
  · rfl
  · show 0+entries.length ≤ 100000
    omega

def sampleClasses : CharacterClasses where
  isDecimal := isDigit
  isAlnum r := isDigit r || isUpper r || isLetter r || isCjk r

def sampleImport (phrase : List ℕ) : Entry where
  phrase := phrase
  pinyin := runes (lit "zhong guo")
  source := runes (lit "sogou")
  useCount := 3

theorem sampleImport_importable (phrase : List ℕ)
    (hnormal : normalizePhrase sampleCharacters phrase = phrase) (hlen : phrase.length ≤ 96)
    (hplain : ∀ r ∈ phrase, Plain r) (hcjk : ∃ r ∈ phrase, isCjk r = true)
    (hbytes : (encodeRunes phrase).length ≤ 512) :
    (sampleImport phrase).Importable sampleClasses sampleCharacters where
  phrase_normal := ⟨phrase, hnormal.symm⟩
  phrase_valid := validatePhrase_plain sampleClasses (fun r hr => by
      simp only [Plain, isPlain, isCjk, Bool.or_eq_true, decide_eq_true_eq] at hr
      exact decide_eq_false (by omega)) rfl hlen hplain hcjk
  phrase_scalar r hr := by
    have hp := hplain r hr
    simp only [Plain, isPlain, isCjk, Bool.or_eq_true, decide_eq_true_eq] at hp
    exact .inl (by omega)
  phrase_length := hbytes
  pinyin_normal := by
    refine ⟨runes (lit "zhong guo"), ?_⟩
    show runes (lit "zhong guo") = normalizePinyin sampleCharacters (runes (lit "zhong guo"))
    decide
  pinyin_ne := by
    show runes (lit "zhong guo") ≠ []
    decide
  pinyin_length := by
    show (encodeRunes (runes (lit "zhong guo"))).length ≤ 256
    decide
  pinyin_tokens := by
    have hzhong : lit "zhong" ∈ Engine.builtInSyllables :=
      mem_flatMap.mpr ⟨"zheng zhi zhong zhou zhu zhua zhuai zhuan zhuang zhui zhun zhuo zi zong",
        by decide, by decide⟩
    have hguo : lit "guo" ∈ Engine.builtInSyllables :=
      mem_flatMap.mpr ⟨"gun guo", by decide, by decide⟩
    show ∀ w ∈ (runes (lit "zhong guo")).splitOn 0x20, encodeRunes w ∈ Engine.builtInSyllables
    have hsplit : (runes (lit "zhong guo")).splitOn 0x20 =
        [runes (lit "zhong"), runes (lit "guo")] := by decide
    rw [hsplit]
    simp only [mem_cons, not_mem_nil, or_false, forall_eq_or_imp, forall_eq]
    exact ⟨hzhong, hguo⟩
  source_clean := by
    show ∀ r ∈ runes (lit "sogou"), isControl r = false
    decide
  source_scalar := by
    show ∀ r ∈ runes (lit "sogou"), IsScalar r
    decide
  source_length := by
    show (encodeRunes (runes (lit "sogou"))).length ≤ 128
    decide
  count_range := by
    show 1 ≤ 3 ∧ 3 ≤ 2^31-1
    decide

theorem importer_output_loads_sample : ∃ file,
    writeAtomicTsv [sampleImport [0x4E2D, 0x56FD], sampleImport [0x56FD, 0x4E2D]] = some file ∧
      (Snapshot.parsePrivateSnapshot file).entries.map Snapshot.PhraseEntry.content =
        [(lit "中国", [lit "zhong", lit "guo"], 3), (lit "国中", [lit "zhong", lit "guo"], 3)] ∧
      (Snapshot.parsePrivateSnapshot file).rejectedRows = 0 := by
  have himport : ∀ e ∈ [sampleImport [0x4E2D, 0x56FD], sampleImport [0x56FD, 0x4E2D]],
      e.Importable sampleClasses sampleCharacters := by
    simp only [mem_cons, not_mem_nil, or_false, forall_eq_or_imp, forall_eq]
    constructor
    · exact sampleImport_importable _ (by decide) (by decide) (by decide) (by decide) (by decide)
    · exact sampleImport_importable _ (by decide) (by decide) (by decide) (by decide) (by decide)
  have hdistinct : [sampleImport [0x4E2D, 0x56FD], sampleImport [0x56FD, 0x4E2D]].Pairwise
      (fun a b => (a.phrase, a.pinyin) ≠ (b.phrase, b.pinyin)) := by decide
  have hcollision : ∀ a ∈ [sampleImport [0x4E2D, 0x56FD], sampleImport [0x56FD, 0x4E2D]],
      ∀ b ∈ [sampleImport [0x4E2D, 0x56FD], sampleImport [0x56FD, 0x4E2D]], a.id = b.id →
        (a.phrase, a.pinyin) = (b.phrase, b.pinyin) := by decide
  have hload : ∀ e ∈ [sampleImport [0x4E2D, 0x56FD], sampleImport [0x56FD, 0x4E2D]],
      e.LoadsUnchanged := by
    unfold Entry.LoadsUnchanged
    decide
  obtain ⟨file, hfile, hiff⟩ := importer_output_loads sampleClasses sampleCharacters _ (by decide)
    hdistinct hcollision himport
  obtain ⟨hentries, hrejected⟩ := hiff.mpr hload
  exact ⟨file, hfile, hentries.trans (by decide), hrejected⟩

/-- A quotation mark comes back as written to the file, and a number sign starts a comment. -/
theorem quoted_and_comment_phrases :
    (sampleImport [0x4E2D, 0x22, 0x56FD]).Importable sampleClasses sampleCharacters ∧
    (sampleImport [0x23, 0x4E2D, 0x56FD]).Importable sampleClasses sampleCharacters ∧
    (writeAtomicTsv [sampleImport [0x4E2D, 0x22, 0x56FD]]).map (fun file =>
        ((Snapshot.parsePrivateSnapshot file).entries.map Snapshot.PhraseEntry.content,
          (Snapshot.parsePrivateSnapshot file).rejectedRows)) =
      some ([(lit "\"中\"\"国\"", [lit "zhong", lit "guo"], 3)], 0) ∧
    (writeAtomicTsv [sampleImport [0x23, 0x4E2D, 0x56FD]]).map (fun file =>
        ((Snapshot.parsePrivateSnapshot file).entries.map Snapshot.PhraseEntry.content,
          (Snapshot.parsePrivateSnapshot file).rejectedRows)) = some ([], 0) := by
  refine ⟨?_, ?_, by decide +kernel, by decide +kernel⟩
  · exact sampleImport_importable _ (by decide) (by decide) (by decide) (by decide) (by decide)
  · exact sampleImport_importable _ (by decide) (by decide) (by decide) (by decide) (by decide)

end Importer
end YunPin
