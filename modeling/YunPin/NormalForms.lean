import YunPin.CanonicalText
import YunPin.SampleExternals

/-! The two canonical forms behind an object identity. A phrase is normalised before its white
space is removed, so its canonical form need not be normalised. A reading is spelt in words that
the loop leaves as they are, and has no byte in common with the separator of the hashed text. -/
namespace YunPin
open ByteText List

/-- No character of `between` blocks `b`: all of them are marks of a lower class. -/
def CharacterData.Unblocked (t : CharacterData) (between : List ℕ) (b : ℕ) : Prop :=
  ∀ r ∈ between, 0 < t.combining r ∧ t.combining r < t.combining b

structure CharacterData.Normalises (t : CharacterData) : Prop where
  idempotent : ∀ s : List ℕ, (∀ r ∈ s, IsScalar r) → t.nfkc (t.nfkc s) = t.nfkc s
  /-- A text is in NFKC when its characters are, and any two of which the second is not blocked
  from the first. -/
  pairs : ∀ s : List ℕ, (∀ r ∈ s, IsScalar r) → (t.nfkc s = s ↔
    (∀ r ∈ s, t.nfkc [r] = [r]) ∧
      ∀ a m b, a :: m ++ [b] <:+: s → t.Unblocked m b → t.nfkc [a, b] = [a, b])
  /-- NFKC makes no white space of normalised characters that are none. -/
  visible : ∀ s v : List ℕ, (∀ r ∈ s, IsScalar r) →
    (∀ r ∈ v, r ∈ t.nfkc s ∧ isSpaceRune r = false) → ∀ r ∈ t.nfkc v, isSpaceRune r = false

def visibleRunes (s : List ℕ) : List ℕ := s.filter (fun r => !isSpaceRune r)

/-- To remove the white space of the text brings no two characters together that compose or
change places. -/
def CharacterData.StaysNormal (t : CharacterData) (s : List ℕ) : Prop :=
  ∀ a m b, a :: m ++ [b] <:+: s → isSpaceRune a = false → isSpaceRune b = false →
    (∃ r ∈ m, isSpaceRune r = true) → t.Unblocked (visibleRunes m) b → t.nfkc [a, b] = [a, b]

variable {s : List ℕ}

theorem infix_visibleRunes {a b : ℕ} {m : List ℕ} (h : a :: m ++ [b] <:+: visibleRunes s) :
    ∃ m', a :: m' ++ [b] <:+: s ∧ visibleRunes m' = m := by
  obtain ⟨x, y, h⟩ := h
  rw [append_assoc, cons_append, cons_append, append_assoc] at h
  obtain ⟨x', rest, rfl, -, hrest⟩ := filter_eq_append_iff.mp h.symm
  obtain ⟨before, rest, rfl, -, -, hrest⟩ := filter_eq_cons_iff.mp hrest
  obtain ⟨m', rest, rfl, hm, hrest⟩ := filter_eq_append_iff.mp hrest
  obtain ⟨spaces, y', rfl, hspaces, -, -⟩ := filter_eq_cons_iff.mp hrest
  refine ⟨m' ++ spaces, ⟨x' ++ before, y', by simp⟩, ?_⟩
  rw [visibleRunes, filter_append, hm, filter_eq_nil_iff.mpr hspaces, append_nil]

theorem nfkc_visibleRunes_iff {t : CharacterData} (hn : t.Normalises) (hs : ∀ r ∈ s, IsScalar r)
    (h : t.nfkc s = s) : t.nfkc (visibleRunes s) = visibleRunes s ↔ t.StaysNormal s := by
  have hsub : ∀ r ∈ visibleRunes s, r ∈ s := fun r hr => (mem_filter.mp hr).1
  obtain ⟨hone, htwo⟩ := (hn.pairs s hs).mp h
  rw [hn.pairs _ (fun r hr => hs r (hsub r hr))]
  constructor
  · rintro ⟨-, hpairs⟩ a m b hpart ha hb - hfree
    refine hpairs a (visibleRunes m) b ?_ hfree
    have hvisible := hpart.filter (fun r => !isSpaceRune r)
    rwa [filter_append, filter_cons_of_pos (by rw [ha]; rfl),
      filter_cons_of_pos (by rw [hb]; rfl)] at hvisible
  · intro hstays
    refine ⟨fun r hr => hone r (hsub r hr), fun a m b hpart hfree => ?_⟩
    have hends : isSpaceRune a = false ∧ isSpaceRune b = false := by
      have hmem (r : ℕ) (hr : r ∈ a :: m ++ [b]) : isSpaceRune r = false := by
        simpa using (mem_filter.mp (hpart.subset hr)).2
      exact ⟨hmem a (by simp), hmem b (by simp)⟩
    obtain ⟨m', hpart', rfl⟩ := infix_visibleRunes hpart
    -- With white space between the two the condition applies, without it they were neighbours.
    by_cases hspace : ∃ r ∈ m', isSpaceRune r = true
    · exact hstays a m' b hpart' hends.1 hends.2 hspace hfree
    · push Not at hspace
      have hsame : visibleRunes m' = m' :=
        filter_eq_self.mpr (fun r hr => by simpa using hspace r hr)
      rw [hsame] at hfree
      exact htwo a m' b hpart' hfree

/-- The canonical phrase of a text is canonical exactly when the removal of white space from its
normalised form brings nothing together that composes or changes places. -/
theorem canonicalPhrase_normal_form (t : CharacterData) (laws : t.Laws) (hn : t.Normalises)
    (s : Bytes) (hs : validUTF8 s = true) :
    canonicalPhrase t.unicode (canonicalPhrase t.unicode s) = canonicalPhrase t.unicode s ↔
      t.StaysNormal (t.nfkc (runes s)) := by
  have hr := runes_scalar s
  have hnormal := laws.nfkc_scalar _ hr
  have hcanonical := canonicalPhrase_eq laws hr
  rw [encodeRunes_runes, toValidUTF8_of_valid s hs] at hcanonical
  rw [hcanonical, ← nfkc_visibleRunes_iff hn hnormal (hn.idempotent _ hr)]
  change canonicalPhrase t.unicode (encodeRunes (visibleRunes _)) =
    encodeRunes (visibleRunes _) ↔ _
  have hmem : ∀ r ∈ visibleRunes (t.nfkc (runes s)),
      r ∈ t.nfkc (runes s) ∧ isSpaceRune r = false := by
    intro r hrv
    simpa [visibleRunes] using hrv
  have hscalar : ∀ r ∈ visibleRunes (t.nfkc (runes s)), IsScalar r :=
    fun r hrv => hnormal r (hmem r hrv).1
  have hvisible : (t.nfkc (visibleRunes (t.nfkc (runes s)))).filter (fun r => !isSpaceRune r) =
      t.nfkc (visibleRunes (t.nfkc (runes s))) := by
    rw [filter_eq_self]
    intro r hrv
    rw [hn.visible (runes s) _ hr hmem r hrv, Bool.not_false]
  rw [canonicalPhrase_eq laws hscalar, hvisible]
  exact ⟨encodeRunes_injective _ (laws.nfkc_scalar _ hscalar) hscalar, fun h => by rw [h]⟩

def composeAcute (s : List ℕ) : List ℕ :=
  s.foldr (fun r rest => if r = 0x65 ∧ rest.head? = some 0x301 then 0xE9 :: rest.tail else r :: rest) []

def accents : CharacterData :=
  { sampleCharacters with
    nfkc := composeAcute
    combining := fun r => if r = 0x301 ∨ r = 0x307 then 230 else 0 }

theorem composeAcute_cons (r : ℕ) (s : List ℕ) : composeAcute (r :: s) =
    if r = 0x65 ∧ (composeAcute s).head? = some 0x301 then 0xE9 :: (composeAcute s).tail
    else r :: composeAcute s := rfl

theorem mem_composeAcute : ∀ r ∈ composeAcute s, r ∈ s ∨ r = 0xE9 := by
  induction s with
  | nil => exact fun r hr => .inl hr
  | cons x s ih =>
    intro r hr
    rw [composeAcute_cons] at hr
    split_ifs at hr
    · rcases mem_cons.mp hr with rfl | hr
      · exact .inr rfl
      · exact (ih r (mem_of_mem_tail hr)).imp_left (mem_cons_of_mem x)
    · rcases mem_cons.mp hr with rfl | hr
      · exact .inl mem_cons_self
      · exact (ih r hr).imp_left (mem_cons_of_mem x)

theorem composeAcute_space (s s' : List ℕ) {r : ℕ} (hr : isSpaceRune r = true) :
    composeAcute (s ++ r :: s') = composeAcute s ++ [r] ++ composeAcute s' := by
  have hne : r ≠ 0x65 ∧ r ≠ 0x301 := by
    constructor <;> rintro rfl <;> exact absurd hr (by decide)
  induction s with
  | nil => rw [nil_append, composeAcute_cons, if_neg (by simp [hne.1])]; rfl
  | cons x s ih =>
    rw [cons_append, composeAcute_cons, ih, composeAcute_cons]
    cases hs : composeAcute s with
    | nil => simp [hne.2]
    | cons y rest =>
      by_cases hx : x = 0x65 ∧ y = 0x301
      · simp [hx]
      · simp [hx]

theorem accents_laws : accents.Laws where
  nfkc_scalar s hs r hr := by
    rcases mem_composeAcute r hr with hr | rfl
    · exact hs r hr
    · exact .inl (by decide)
  lower_scalar := sampleCharacters_laws.lower_scalar
  decompose_scalar := sampleCharacters_laws.decompose_scalar
  nfkc_nil := rfl
  nfkc_space s r s' hr := by
    change composeAcute _ = composeAcute s ++ composeAcute [r] ++ composeAcute s'
    rw [composeAcute_space s s' hr, composeAcute_cons, if_neg (by simp [composeAcute])]
    rfl
  nfkc_space_char r hr x hx := by
    change x ∈ composeAcute [r] at hx
    rw [composeAcute_cons, if_neg (by simp [composeAcute])] at hx
    rw [mem_singleton.mp hx]
    exact hr
  lower_space := sampleCharacters_laws.lower_space
  decompose_space := sampleCharacters_laws.decompose_space
  letter_starter r hr := by
    have := isLetter_ascii hr
    exact if_neg (by omega)
  letter_not_mark := sampleCharacters_laws.letter_not_mark
  lower_dotted := rfl
  decompose_dot := sampleCharacters_laws.decompose_dot
  lower_sigma := rfl
  decompose_sigma := ⟨rfl, rfl⟩
  sigma_starter := ⟨rfl, rfl⟩

theorem composeAcute_composeAcute (s : List ℕ) :
    composeAcute (composeAcute s) = composeAcute s := by
  induction s with
  | nil => rfl
  | cons x s ih =>
    rw [composeAcute_cons x s]
    split_ifs with hx
    · -- the accent is the first character of a composed text
      obtain ⟨rest, hrest⟩ : ∃ rest, composeAcute s = 0x301 :: rest := by
        cases hs : composeAcute s <;> simp_all
      rw [hrest, composeAcute_cons, if_neg (by simp)] at ih
      rw [composeAcute_cons, if_neg (by simp), hrest, tail_cons, (List.cons.inj ih).2]
    · rw [composeAcute_cons, ih, if_neg hx]

theorem composeAcute_eq_iff (s : List ℕ) : composeAcute s = s ↔ ¬[0x65, 0x301] <:+: s := by
  induction s with
  | nil => decide
  | cons x s ih =>
    rw [composeAcute_cons, infix_cons_iff, cons_prefix_cons, not_or, ← ih]
    have hhead (hs : composeAcute s = s) : [0x301] <+: s ↔ (composeAcute s).head? = some 0x301 := by
      rw [hs]
      cases s <;> simp [eq_comm]
    split_ifs with hx
    · refine iff_of_false (fun h => ?_) (fun ⟨hfirst, hs⟩ => hfirst ⟨hx.1.symm, (hhead hs).mpr hx.2⟩)
      exact absurd ((List.cons.inj h).1.trans hx.1) (by decide)
    · rw [cons_inj_right]
      refine ⟨fun hs => ⟨fun hfirst => hx ⟨hfirst.1.symm, (hhead hs).mp hfirst.2⟩, hs⟩, And.right⟩

theorem accents_normalises : accents.Normalises where
  idempotent s _ := composeAcute_composeAcute s
  pairs s _ := by
    change composeAcute s = s ↔ (∀ r ∈ s, composeAcute [r] = [r]) ∧
      ∀ a m b, a :: m ++ [b] <:+: s → accents.Unblocked m b → composeAcute [a, b] = [a, b]
    simp only [composeAcute_eq_iff]
    constructor
    · intro h
      refine ⟨fun r _ hr => absurd hr.length_le (by simp), fun a m b hpart hfree hpair => h ?_⟩
      -- The two marks of the table have one class, so that nothing stands between.
      have hm : m = [] := by
        apply eq_nil_iff_forall_not_mem.mpr
        intro r hr
        have hclass := hfree r hr
        simp only [accents] at hclass
        split_ifs at hclass <;> omega
      rw [hm] at hpart
      exact hpair.trans hpart
    · exact fun h hpair => h.2 0x65 [] 0x301 hpair (by simp [CharacterData.Unblocked]) (infix_refl _)
  visible s v _ hv r hr := by
    rcases mem_composeAcute r hr with hr | rfl
    · exact (hv r hr).2
    · decide

/-- Nothing happens between the two letters of "e f" when the blank goes. -/
theorem canonicalPhrase_normal_form_sample : validUTF8 (lit "e f") = true ∧
    canonicalPhrase accents.unicode (lit "e f") = lit "ef" ∧
    accents.StaysNormal (accents.nfkc (runes (lit "e f"))) := by
  have hvalid : validUTF8 (lit "e f") = true := by decide
  exact ⟨hvalid, by decide, (canonicalPhrase_normal_form accents accents_laws accents_normalises _
    hvalid).mp (by decide)⟩

/-- A blank between e and the accent keeps them apart until it is removed. -/
theorem accent_after_blank : ∃ t : CharacterData, t.Laws ∧ t.Normalises ∧
    validUTF8 [0x65, 0x20, 0xCC, 0x81] = true ∧
    canonicalPhrase t.unicode [0x65, 0x20, 0xCC, 0x81] = [0x65, 0xCC, 0x81] ∧
    canonicalPhrase t.unicode [0x65, 0xCC, 0x81] = [0xC3, 0xA9] :=
  ⟨accents, accents_laws, accents_normalises, by decide, by decide, by decide⟩

def isLower (b : UInt8) : Prop := 0x61 ≤ b ∧ b ≤ 0x7A

instance (b : UInt8) : Decidable (isLower b) := inferInstanceAs (Decidable (_ ∧ _))

/-- Words of lower-case letters with one blank between them. -/
inductive PinyinWords : Bytes → Prop
  | letter (b : UInt8) (hb : isLower b) : PinyinWords [b]
  | more (p : Bytes) (b : UInt8) (hp : PinyinWords p) (hb : isLower b) : PinyinWords (p ++ [b])
  | word (p : Bytes) (b : UInt8) (hp : PinyinWords p) (hb : isLower b) :
    PinyinWords (p ++ [0x20, b])

structure Unicode.PlainLaws (u : Unicode) : Prop where
  nfkc : ∀ s : Bytes, (∀ b ∈ s, b < 0x80) → u.nfkc s = s
  nfd : ∀ s : Bytes, (∀ b ∈ s, b < 0x80) → u.nfd s = s
  toLower : ∀ s : Bytes, (∀ b ∈ s, b = 0x20 ∨ isLower b) → u.toLower s = s
  isMn : ∀ r, r < 0x80 → u.isMn r = false

variable (u : Unicode) {p : Bytes}

theorem PinyinWords.ne_nil (h : PinyinWords p) : p ≠ [] := by
  cases h <;> simp

theorem PinyinWords.bytes (h : PinyinWords p) : ∀ b ∈ p, b = 0x20 ∨ isLower b := by
  induction h with
  | letter b hb => simp [hb]
  | more p b _ hb ih =>
    intro c hc
    rcases mem_append.mp hc with hc | hc
    · exact ih c hc
    · exact .inr (mem_singleton.mp hc ▸ hb)
  | word p b _ hb ih =>
    intro c hc
    rcases mem_append.mp hc with hc | hc
    · exact ih c hc
    · rcases mem_cons.mp hc with rfl | hc
      · exact .inl rfl
      · exact .inr (mem_singleton.mp hc ▸ hb)

theorem PinyinWords.words (h : PinyinWords p) : ∃ words : List Bytes, words ≠ [] ∧
    (∀ w ∈ words, w ≠ [] ∧ ∀ b ∈ w, isLower b) ∧ p = [0x20].intercalate words := by
  -- the last word grows, or one more follows
  suffices hlast : ∃ (ws : List Bytes) (w : Bytes), (∀ w' ∈ ws, w' ≠ [] ∧ ∀ b ∈ w', isLower b) ∧
      (w ≠ [] ∧ ∀ b ∈ w, isLower b) ∧ p = ws.flatMap (· ++ [0x20]) ++ w by
    obtain ⟨ws, w, hws, hw, rfl⟩ := hlast
    refine ⟨ws ++ [w], by simp, forall_mem_append.mpr ⟨hws, by simpa using hw⟩, ?_⟩
    clear hws h
    induction ws with
    | nil => simp [List.intercalate]
    | cons v ws ih =>
      rw [flatMap_cons, append_assoc, ih]
      cases ws <;> simp [List.intercalate]
  induction h with
  | letter b hb => exact ⟨[], [b], by simp, by simp [hb], rfl⟩
  | more p b _ hb ih =>
    obtain ⟨ws, w, hws, hw, rfl⟩ := ih
    refine ⟨ws, w ++ [b], hws, ⟨by simp, ?_⟩, by rw [append_assoc]⟩
    exact forall_mem_append.mpr ⟨hw.2, by simp [hb]⟩
  | word p b _ hb ih =>
    obtain ⟨ws, w, hws, hw, rfl⟩ := ih
    refine ⟨ws ++ [w], [b], ?_, by simp [hb], by simp⟩
    exact forall_mem_append.mpr ⟨hws, by simpa using hw⟩

theorem isLower_ofNat {r : ℕ} (h : 0x61 ≤ r ∧ r ≤ 0x7A) : isLower (UInt8.ofNat r) := by
  rw [isLower, UInt8.le_iff_toNat_le, UInt8.le_iff_toNat_le, toNat_byte r (by omega)]
  exact h

theorem pinyinStep_words {acc : Bytes × Bool} (r : ℕ) (h : acc.1 = [] ∨ PinyinWords acc.1) :
    (pinyinStep u acc r).1 = [] ∨ PinyinWords (pinyinStep u acc r).1 := by
  unfold pinyinStep
  split_ifs with hmn htone hletter hpending
  · exact h
  · exact h
  · have hwords := h.resolve_left (ne_nil_of_length_pos hpending.2)
    dsimp only
    rw [append_assoc]
    exact .inr (.word acc.1 _ hwords (isLower_ofNat hletter))
  · rcases h with hnil | hwords
    · rw [hnil]
      exact .inr (.letter _ (isLower_ofNat hletter))
    · exact .inr (.more acc.1 _ hwords (isLower_ofNat hletter))
  · exact h

theorem canonicalPinyin_words (s : Bytes) :
    canonicalPinyin u s = [] ∨ PinyinWords (canonicalPinyin u s) := by
  unfold canonicalPinyin
  dsimp only
  generalize runes _ = l
  suffices h : ∀ acc : Bytes × Bool, (acc.1 = [] ∨ PinyinWords acc.1) →
      (l.foldl (pinyinStep u) acc).1 = [] ∨ PinyinWords (l.foldl (pinyinStep u) acc).1 from
    h ([], false) (.inl rfl)
  induction l with
  | nil => exact fun _ h => h
  | cons r l ih => exact fun acc h => ih _ (pinyinStep_words u r h)

theorem isLower_lt {b : UInt8} (h : b = 0x20 ∨ isLower b) : b < 0x80 := by
  revert b
  decide +kernel

theorem PinyinWords.ascii (h : PinyinWords p) : ∀ b ∈ p, b < 0x80 :=
  fun b hb => isLower_lt (h.bytes b hb)

theorem PinyinWords.ends (h : PinyinWords p) :
    (∃ b rest, p = b :: rest ∧ isLower b) ∧ ∃ b rest, p = rest ++ [b] ∧ isLower b := by
  induction h with
  | letter b hb => exact ⟨⟨b, [], rfl, hb⟩, b, [], rfl, hb⟩
  | more p b _ hb ih =>
    obtain ⟨⟨first, rest, rfl, hfirst⟩, _⟩ := ih
    exact ⟨⟨first, rest ++ [b], rfl, hfirst⟩, b, _, rfl, hb⟩
  | word p b _ hb ih =>
    obtain ⟨⟨first, rest, rfl, hfirst⟩, _⟩ := ih
    exact ⟨⟨first, rest ++ [0x20, b], rfl, hfirst⟩, b, first :: rest ++ [0x20], by simp, hb⟩

theorem PinyinWords.trimSpace (h : PinyinWords p) : trimSpace p = p := by
  have hspace (b : UInt8) (hb : isLower b) : isSpaceRune b.toNat = false := by
    simp only [isLower, UInt8.le_iff_toNat_le] at hb
    have hb' : 97 ≤ b.toNat ∧ b.toNat ≤ 122 := hb
    simp only [isSpaceRune, decide_eq_false_iff_not]
    omega
  have hencode : encodeRunes (p.map UInt8.toNat) = p := by
    rw [← runes_ascii p h.ascii, encodeRunes_runes,
      toValidUTF8_of_valid p (validUTF8_of_ascii p h.ascii)]
  obtain ⟨a, m, b, hp, ha, hb, htrim⟩ := trimSpace_encodeRunes (p.map UInt8.toNat) (by
    rw [← runes_ascii p h.ascii]
    exact runes_scalar p)
  obtain ⟨⟨first, _, hfirst, hlower⟩, last, _, hlast, hlower'⟩ := h.ends
  -- nothing is cut off at either end
  have ha' : a = [] := by
    cases a with
    | nil => rfl
    | cons r a =>
      rw [hfirst] at hp
      obtain rfl := (List.cons.inj hp).1
      exact absurd (ha _ mem_cons_self) (by simp [hspace first hlower])
  have hb' : b = [] := by
    rcases eq_nil_or_concat b with hnil | ⟨b, r, rfl⟩
    · exact hnil
    · rw [hlast, map_append, concat_eq_append, ← append_assoc] at hp
      obtain rfl := singleton_inj.mp (append_inj_right' hp rfl)
      exact absurd (hb last.toNat (by simp)) (by simp [hspace last hlower'])
  rw [hencode] at htrim
  rw [ha', hb', nil_append, append_nil] at hp
  rw [htrim, ← hp, hencode]

theorem replaceAll_of_notMem {old new s : Bytes} {b : UInt8} (hb : b ∈ old) (h : b ∉ s) :
    replaceAll old new s = s := by
  induction s with
  | nil => rfl
  | cons c s ih =>
    have hno : ¬old.isPrefixOf (c :: s) = true := by
      rw [ isPrefixOf_iff_prefix]
      exact fun hpre => h (hpre.subset hb)
    rw [replaceAll, replaceFrom, if_neg hno]
    exact congrArg (c :: ·) (ih (fun hs => h (mem_cons_of_mem c hs)))

theorem PinyinWords.foldl (laws : u.PlainLaws) (h : PinyinWords p) :
    (p.map UInt8.toNat).foldl (pinyinStep u) ([], false) = (p, false) := by
  have hletter (acc : Bytes × Bool) (b : UInt8) (hb : isLower b) : pinyinStep u acc b.toNat =
      ((if acc.2 ∧ acc.1.length > 0 then acc.1 ++ [0x20] else acc.1) ++ [b], false) := by
    simp only [isLower, UInt8.le_iff_toNat_le] at hb
    have hb' : 97 ≤ b.toNat ∧ b.toNat ≤ 122 := hb
    rw [pinyinStep, if_neg (by simp [laws.isMn b.toNat (by omega)]), if_neg (by omega),
      if_pos (by omega), UInt8.ofNat_toNat]
  induction h with
  | letter b hb => simp [hletter _ b hb]
  | more p b hp hb ih => simp [ih, hletter _ b hb]
  | word p b hp hb ih =>
    have hpos : p.length > 0 := length_pos_iff.mpr hp.ne_nil
    have hblank : pinyinStep u (p, false) 0x20 = (p, true) := by
      simp [pinyinStep, laws.isMn 0x20 (by decide), hpos]
    rw [map_append, foldl_append, ih]
    change pinyinStep u (pinyinStep u (p, false) 0x20) b.toNat = _
    rw [hblank, hletter _ b hb, if_pos ⟨rfl, hpos⟩, append_assoc]
    rfl

theorem PinyinWords.canonicalPinyin (laws : u.PlainLaws) (h : PinyinWords p) :
    canonicalPinyin u p = p := by
  have hreplace (old : Bytes) (hold : ∃ b ∈ old, ¬(b = 0x20 ∨ isLower b)) :
      replaceAll old (lit "v") p = p := by
    obtain ⟨b, hb, hno⟩ := hold
    exact replaceAll_of_notMem hb (fun hp => hno (h.bytes b hp))
  unfold YunPin.canonicalPinyin
  dsimp only
  rw [h.trimSpace, laws.nfkc p h.ascii, laws.toLower p h.bytes, hreplace (lit "u:") ?_]
  · have hmarks : [lit "ü", lit "ǖ", lit "ǘ", lit "ǚ", lit "ǜ"].foldl
        (fun v old => replaceAll old (lit "v") v) p = p := by
      simp only [foldl_cons, foldl_nil]
      have hmark (old : Bytes) (hold : 0xC3 ∈ old ∨ 0xC7 ∈ old) :
          replaceAll old (lit "v") p = p := by
        rcases hold with hold | hold
        · exact hreplace old ⟨0xC3, hold, by decide⟩
        · exact hreplace old ⟨0xC7, hold, by decide⟩
      rw [hmark (lit "ü") (by decide), hmark (lit "ǖ") (by decide), hmark (lit "ǘ") (by decide),
        hmark (lit "ǚ") (by decide), hmark (lit "ǜ") (by decide)]
    rw [hmarks, laws.nfd p h.ascii, runes_ascii p h.ascii, h.foldl u laws]
  · exact ⟨0x3A, by decide, by decide⟩

theorem append_zero_inj {a a' p' : Bytes} (hp : (0 : UInt8) ∉ p) (hp' : (0 : UInt8) ∉ p')
    (h : a ++ [0] ++ p = a' ++ [0] ++ p') : a = a' ∧ p = p' := by
  rw [append_assoc, append_assoc, append_eq_append_iff] at h
  rcases h with ⟨c, rfl, hc⟩ | ⟨c, rfl, hc⟩
  · cases c with
    | nil => simpa using hc
    | cons b c =>
      rw [singleton_append, cons_append] at hc
      exact absurd ((List.cons.inj hc).2 ▸ by simp) hp
  · cases c with
    | nil => simpa [eq_comm] using hc
    | cons b c =>
      rw [singleton_append, cons_append] at hc
      exact absurd ((List.cons.inj hc).2 ▸ by simp) hp'

def hashedText (phrase pinyin : Bytes) : Bytes :=
  canonicalPhrase u phrase ++ [0] ++ canonicalPinyin u pinyin

structure PinyinIdentity : Prop where
  words : ∀ s, ∃ words : List Bytes, (∀ w ∈ words, w ≠ [] ∧ ∀ b ∈ w, isLower b) ∧
    canonicalPinyin u s = [0x20].intercalate words
  idempotent : ∀ s, canonicalPinyin u (canonicalPinyin u s) = canonicalPinyin u s
  hashed : ∀ c idKey phrase pinyin id, opaqueObjectID c u idKey phrase pinyin = .ok id →
    id = toObjectID (c.hmac idKey (hashedText u phrase pinyin))
  separates : ∀ phrase pinyin phrase' pinyin',
    hashedText u phrase pinyin = hashedText u phrase' pinyin' ↔
      canonicalPhrase u phrase = canonicalPhrase u phrase' ∧
        canonicalPinyin u pinyin = canonicalPinyin u pinyin'

theorem pinyin_identity (u : Unicode) (laws : u.PlainLaws) : PinyinIdentity u := by
  refine ⟨?_, ?_, ?_, ?_⟩
  · intro s
    rcases canonicalPinyin_words u s with hnil | hwords
    · exact ⟨[], by simp, hnil⟩
    · obtain ⟨words, _, hwords, he⟩ := hwords.words
      exact ⟨words, hwords, he⟩
  · intro s
    rcases canonicalPinyin_words u s with hnil | hwords
    · rw [hnil, canonicalPinyin, show trimSpace [] = [] from rfl, laws.nfkc [] (by simp),
        laws.toLower [] (by simp)]
      change ((runes (u.nfd [])).foldl (pinyinStep u) ([], false)).1 = []
      rw [laws.nfd [] (by simp)]
      rfl
    · exact hwords.canonicalPinyin u laws
  · intro c idKey phrase pinyin id h
    unfold opaqueObjectID at h
    split_ifs at h
    exact (Except.ok.inj h).symm
  · intro phrase pinyin phrase' pinyin'
    have hzero (s : Bytes) : (0 : UInt8) ∉ canonicalPinyin u s := by
      rcases canonicalPinyin_words u s with hnil | hwords
      · simp [hnil]
      · intro h
        exact absurd (hwords.bytes 0 h) (by decide)
    constructor
    · exact append_zero_inj (hzero pinyin) (hzero pinyin')
    · rintro ⟨hphrase, hpinyin⟩
      rw [hashedText, hphrase, hpinyin, hashedText]

theorem sampleUnicode_plain : sampleUnicode.PlainLaws :=
  ⟨fun _ _ => rfl, fun _ _ => rfl, fun _ _ => rfl, fun _ _ => rfl⟩

theorem pinyin_identity_sample : canonicalPinyin sampleUnicode (lit "xi'an1 ") = lit "xi an" ∧
    canonicalPinyin sampleUnicode (lit "xi an") = lit "xi an" := by
  have hfirst : canonicalPinyin sampleUnicode (lit "xi'an1 ") = lit "xi an" := by decide
  have htwice := (pinyin_identity sampleUnicode sampleUnicode_plain).idempotent (lit "xi'an1 ")
  rw [hfirst] at htwice
  exact ⟨hfirst, htwice⟩

end YunPin
