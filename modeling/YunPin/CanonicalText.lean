import YunPin.RuneText
import YunPin.SeparatedWords
import YunPin.StorePhrase

/-! The identity of a phrase in three programs. The Go protocol and the two Python tools
normalise phrase and reading on their own; white space and combining marks are not the same
set in the two languages. -/
namespace YunPin
open ByteText SeparatedWords List

/-- The tables of the Unicode character database that the programs use. -/
structure CharacterData where
  nfkc : List ℕ → List ℕ
  /-- The simple lower-case mapping. -/
  lower : ℕ → ℕ
  /-- Whether a sigma between these two texts ends a word. -/
  finalSigma : List ℕ → List ℕ → Bool
  /-- The full canonical decomposition. -/
  decompose : ℕ → List ℕ
  /-- The canonical combining class. -/
  combining : ℕ → ℕ
  /-- General category Mn. -/
  isMn : ℕ → Bool
  /-- A general category that starts with C. -/
  isOther : ℕ → Bool

def insertMark (combining : ℕ → ℕ) (r : ℕ) : List ℕ → List ℕ
  | [] => [r]
  | x :: rest =>
    if combining r ≠ 0 ∧ combining x ≠ 0 ∧ combining x < combining r then
      x :: insertMark combining r rest
    else r :: x :: rest

def canonicalOrder (combining : ℕ → ℕ) (s : List ℕ) : List ℕ := s.foldr (insertMark combining) []

def CharacterData.nfd (t : CharacterData) (s : List ℕ) : List ℕ :=
  canonicalOrder t.combining (s.flatMap t.decompose)

def CharacterData.unicode (t : CharacterData) : Unicode where
  nfkc s := encodeRunes (t.nfkc (runes s))
  nfd s := encodeRunes (t.nfd (runes s))
  toLower := mapRunes t.lower
  isMn := t.isMn

/-- `str.isspace`, which is also what `\s` matches and `split` and `strip` use. -/
def isSpacePython (r : ℕ) : Bool := isSpaceRune r ∨ (0x1C ≤ r ∧ r ≤ 0x1F)

def CharacterData.lowerFrom (t : CharacterData) (before : List ℕ) : List ℕ → List ℕ
  | [] => []
  | r :: rest =>
    (if r = 0x130 then [0x69, 0x307]
      else if r = 0x3A3 then [if t.finalSigma before rest then 0x3C2 else 0x3C3]
      else [t.lower r]) ++ t.lowerFrom (before ++ [r]) rest

def toneU (r : ℕ) : ℕ := if r ∈ [0xFC, 0x1D6, 0x1D8, 0x1DA, 0x1DC] then 0x76 else r

def isLetter (r : ℕ) : Bool := 0x61 ≤ r ∧ r ≤ 0x7A

def isTone (r : ℕ) : Bool := 0x31 ≤ r ∧ r ≤ 0x35

def replaceColon (value : List ℕ) : List ℕ := replaceRunes [0x75, 0x3A] [0x76] value

def CharacterData.pythonPinyin (t : CharacterData) (value : List ℕ) : List ℕ :=
  let value := strip isSpacePython (t.lowerFrom [] (t.nfkc value))
  let value := replaceColon value
  let value := value.map toneU
  let value := (t.nfd value).filter (fun r => t.combining r = 0)
  let value := value.filter (fun r => !isTone r)
  let value := value.map (fun r => if r = 0x27 then 0x20 else r)
  let value := value.map (fun r => if isLetter r || isSpacePython r then r else 0x20)
  strip isSpacePython (collapse isSpacePython 0x20 false value)

namespace Importer

def normalizePhrase (t : CharacterData) (value : List ℕ) : List ℕ :=
  (strip isSpacePython (t.nfkc value)).filter (fun r => !isSpacePython r)

def normalizePinyin (t : CharacterData) (value : List ℕ) : List ℕ := t.pythonPinyin value

end Importer

namespace PublicPack

def isCjkCharacter (r : ℕ) : Bool :=
  r = 0x3007 ∨ (0x3400 ≤ r ∧ r ≤ 0x4DBF) ∨ (0x4E00 ≤ r ∧ r ≤ 0x9FFF) ∨ (0xF900 ≤ r ∧ r ≤ 0xFAFF) ∨
    (0x20000 ≤ r ∧ r ≤ 0x2FA1F) ∨ (0x30000 ≤ r ∧ r ≤ 0x323AF)

def normalizePhrase (t : CharacterData) (value : List ℕ) : List ℕ :=
  let value := (strip isSpacePython (t.nfkc value)).filter (fun r => !isSpacePython r)
  if value = [] ∨ value.length > 96 then []
  else if ¬value.any isCjkCharacter then []
  else if value.any t.isOther then []
  else if value.any (fun r => r = 0x09 ∨ r = 0x0D ∨ r = 0x0A) then []
  else value

def normalizePinyin (t : CharacterData) (value : List ℕ) : List ℕ := t.pythonPinyin value

end PublicPack

structure CharacterData.Laws (t : CharacterData) : Prop where
  nfkc_scalar : ∀ s : List ℕ, (∀ r ∈ s, IsScalar r) → ∀ r ∈ t.nfkc s, IsScalar r
  lower_scalar : ∀ r, IsScalar r → IsScalar (t.lower r)
  decompose_scalar : ∀ r, IsScalar r → ∀ x ∈ t.decompose r, IsScalar x
  nfkc_nil : t.nfkc [] = []
  /-- White space neither combines nor is combined with. -/
  nfkc_space : ∀ s r s', isSpaceRune r = true →
    t.nfkc (s ++ r :: s') = t.nfkc s ++ t.nfkc [r] ++ t.nfkc s'
  nfkc_space_char : ∀ r, isSpaceRune r = true → ∀ x ∈ t.nfkc [r], isSpaceRune x = true
  lower_space : ∀ r, isSpacePython r = true → t.lower r = r
  decompose_space : ∀ r, isSpacePython r = true → ∀ x ∈ t.decompose r, isSpacePython x = true
  letter_starter : ∀ r, isLetter r = true → t.combining r = 0
  letter_not_mark : ∀ r, isLetter r = true → t.isMn r = false
  lower_dotted : t.lower 0x130 = 0x69
  decompose_dot : t.decompose 0x307 = [0x307] ∧ t.combining 0x307 ≠ 0
  lower_sigma : t.lower 0x3A3 = 0x3C3
  decompose_sigma : t.decompose 0x3C3 = [0x3C3] ∧ t.decompose 0x3C2 = [0x3C2]
  sigma_starter : t.combining 0x3C3 = 0 ∧ t.combining 0x3C2 = 0

theorem filter_not_eq_nil {p : ℕ → Bool} {l : List ℕ} (h : ∀ r ∈ l, p r = true) :
    l.filter (fun r => !p r) = [] := by
  rw [filter_eq_nil_iff]
  intro r hr
  simp [h r hr]

section Laws
variable {t : CharacterData} (laws : t.Laws)
include laws

theorem nfkc_trim (a m b : List ℕ) (ha : ∀ r ∈ a, isSpaceRune r = true)
    (hb : ∀ r ∈ b, isSpaceRune r = true) :
    ∃ a' b', t.nfkc (a ++ m ++ b) = a' ++ t.nfkc m ++ b' ∧ (∀ r ∈ a', isSpaceRune r = true) ∧
      ∀ r ∈ b', isSpaceRune r = true := by
  have hright : ∃ b', t.nfkc (m ++ b) = t.nfkc m ++ b' ∧ ∀ r ∈ b', isSpaceRune r = true := by
    induction b using List.reverseRecOn with
    | nil => exact ⟨[], by simp, by simp⟩
    | append_singleton b r ih =>
      obtain ⟨b', he, hb'⟩ := ih (fun x hx => hb x (by simp [hx]))
      have hr := hb r (by simp)
      refine ⟨b' ++ t.nfkc [r], ?_, ?_⟩
      · rw [← append_assoc, laws.nfkc_space _ r [] hr, laws.nfkc_nil, append_nil, he,
          append_assoc]
      · intro x hx
        rcases mem_append.mp hx with hx | hx
        · exact hb' x hx
        · exact laws.nfkc_space_char r hr x hx
  obtain ⟨b', he, hb'⟩ := hright
  rw [append_assoc]
  induction a with
  | nil => exact ⟨[], b', by rw [nil_append, he, nil_append], by simp, hb'⟩
  | cons r a ih =>
    obtain ⟨a', b'', he', ha', hb''⟩ := ih (forall_mem_cons.mp ha).2
    have hr := ha r mem_cons_self
    refine ⟨t.nfkc [r] ++ a', b'', ?_, ?_, hb''⟩
    · have := laws.nfkc_space [] r (a ++ (m ++ b)) hr
      rw [nil_append, laws.nfkc_nil, nil_append, he'] at this
      rw [cons_append, this, append_assoc, append_assoc, append_assoc]
    · intro x hx
      rcases mem_append.mp hx with hx | hx
      · exact laws.nfkc_space_char r hr x hx
      · exact ha' x hx

theorem canonicalPhrase_eq {s : List ℕ} (hs : ∀ r ∈ s, IsScalar r) :
    canonicalPhrase t.unicode (encodeRunes s) =
      encodeRunes ((t.nfkc s).filter (fun r => !isSpaceRune r)) := by
  obtain ⟨a, m, b, rfl, ha, hb, htrim⟩ := trimSpace_encodeRunes s hs
  obtain ⟨a', b', he, ha', hb'⟩ := nfkc_trim laws a m b ha hb
  have hm : ∀ r ∈ m, IsScalar r := fun r hr => hs r (by simp [hr])
  rw [canonicalPhrase, htrim]
  show joinFields (encodeRunes (t.nfkc (runes (encodeRunes m)))) = _
  rw [runes_encodeRunes m hm, joinFields_encodeRunes _ (laws.nfkc_scalar m hm), he,
    filter_append, filter_append, filter_not_eq_nil ha', filter_not_eq_nil hb', nil_append,
    append_nil]

end Laws

theorem filter_strip (l : List ℕ) :
    (strip isSpacePython l).filter (fun r => !isSpacePython r) =
      l.filter (fun r => !isSpacePython r) := by
  obtain ⟨a, b, he, ha, hb⟩ := strip_split isSpacePython l
  conv_rhs => rw [he]
  rw [filter_append, filter_append, filter_not_eq_nil ha, filter_not_eq_nil hb, nil_append,
    append_nil]

theorem filter_spaces_eq_iff (l : List ℕ) :
    l.filter (fun r => !isSpaceRune r) = l.filter (fun r => !isSpacePython r) ↔
      ∀ r ∈ l, ¬(0x1C ≤ r ∧ r ≤ 0x1F) := by
  have hspace (r : ℕ) (h : 0x1C ≤ r ∧ r ≤ 0x1F) : isSpaceRune r = false := by
    simp only [isSpaceRune, decide_eq_false_iff_not]
    omega
  constructor
  · intro h r hr hc
    have hmem : r ∈ l.filter (fun r => !isSpaceRune r) :=
      mem_filter.mpr ⟨hr, by simp [hspace r hc]⟩
    rw [h] at hmem
    have := (mem_filter.mp hmem).2
    simp [isSpacePython, hc] at this
  · intro h
    apply filter_congr
    intro r hr
    have := h r hr
    simp [isSpacePython, this]

/-! Readings. Both languages drop marks and tones and keep letters; whatever else there is
separates. -/

def CharacterData.skipped (t : CharacterData) (r : ℕ) : Bool := t.isMn r || isTone r

def CharacterData.deleted (t : CharacterData) (r : ℕ) : Bool := t.combining r ≠ 0 || isTone r

def CharacterData.spelling (t : CharacterData) (value : List ℕ) : List ℕ :=
  ((replaceColon value).map toneU).flatMap t.decompose

theorem isLetter_ascii {r : ℕ} (h : isLetter r = true) : r < 0x80 := by
  simp only [isLetter, decide_eq_true_eq] at h
  omega

theorem isLetter_space (r : ℕ) (h : isSpacePython r = true) : isLetter r = false := by
  simp only [isSpacePython, isSpaceRune, isLetter, decide_eq_true_eq, decide_eq_false_iff_not] at *
  omega

theorem isLetter_tone (r : ℕ) (h : isTone r = true) : isLetter r = false := by
  simp only [isTone, isLetter, decide_eq_true_eq, decide_eq_false_iff_not] at *
  omega

theorem foldl_pinyinStep {t : CharacterData} (laws : t.Laws) (l : List ℕ) (acc : Bytes)
    (pending : Bool) (hp : pending = true → acc ≠ []) :
    (l.foldl (pinyinStep t.unicode) (acc, pending)).1 =
      acc ++ (spell 0x20 (decide (acc ≠ [])) pending (pieces isLetter t.skipped l)).map
        UInt8.ofNat := by
  induction l generalizing acc pending with
  | nil => simp [pieces, spell]
  | cons r l ih =>
    rw [foldl_cons]
    cases hr : isLetter r with
    | true =>
      have hrange : 0x61 ≤ r ∧ r ≤ 0x7A := by simpa [isLetter] using hr
      have hstep : pinyinStep t.unicode (acc, pending) r =
          ((if pending then acc ++ [0x20] else acc) ++ [UInt8.ofNat r], false) := by
        have hmn : t.unicode.isMn r = false := laws.letter_not_mark r hr
        have hlen : (pending = true ∧ acc.length > 0) ↔ pending = true := by
          constructor
          · exact fun h => h.1
          · exact fun h => ⟨h, length_pos_iff.mpr (hp h)⟩
        simp only [pinyinStep, hmn, Bool.false_eq_true, if_false, hlen]
        rw [if_neg (by omega), if_pos hrange]
      rw [hstep, ih _ false (by simp), pieces_cons_letter isLetter t.skipped l hr, spell]
      cases pending <;> simp
    | false =>
      have hrange : ¬(0x61 ≤ r ∧ r ≤ 0x7A) := by simpa [isLetter] using hr
      cases hskip : t.skipped r with
      | true =>
        have hstep : pinyinStep t.unicode (acc, pending) r = (acc, pending) := by
          simp only [CharacterData.skipped, Bool.or_eq_true, isTone, decide_eq_true_eq] at hskip
          have hmn : t.unicode.isMn r = t.isMn r := rfl
          rw [pinyinStep, hmn]
          split_ifs with h1 h2
          · rfl
          · rfl
          · exact absurd hskip (by simp [h1, h2])
        rw [hstep, ih acc pending hp, pieces_cons_drop isLetter t.skipped r l hr hskip]
      | false =>
        have hstep : pinyinStep t.unicode (acc, pending) r = (acc, decide (acc ≠ [])) := by
          simp only [CharacterData.skipped, Bool.or_eq_false_iff, isTone,
            decide_eq_false_iff_not] at hskip
          have hmn : t.unicode.isMn r = false := hskip.1
          have hpos : decide (acc.length > 0) = decide (acc ≠ []) := by
            rw [decide_eq_decide]
            exact length_pos_iff
          simp only [pinyinStep, hmn, Bool.false_eq_true, if_false, hskip.2, hrange, hpos]
        rw [hstep, ih acc _ (by simp), pieces_cons_gap isLetter t.skipped l hr hskip, spell]

section Laws
variable {t : CharacterData} (laws : t.Laws)
include laws

theorem pieces_insertMark (drop : ℕ → Bool) (r : ℕ) (l : List ℕ) :
    pieces isLetter drop (insertMark t.combining r l) = pieces isLetter drop (r :: l) := by
  induction l with
  | nil => rfl
  | cons x rest ih =>
    rw [insertMark]
    split_ifs with h
    · have hmark (y : ℕ) (hy : t.combining y ≠ 0) : isLetter y = false := by
        by_contra hl
        exact hy (laws.letter_starter y (by simpa using hl))
      rw [pieces_swap isLetter drop rest (hmark r h.1) (hmark x h.2.1)]
      have hcons (l m : List ℕ) (he : pieces isLetter drop l = pieces isLetter drop m) :
          pieces isLetter drop (x :: l) = pieces isLetter drop (x :: m) := by
        rw [← singleton_append, pieces_append, he, ← pieces_append, singleton_append]
      exact hcons _ _ ih
    · rfl

theorem pieces_canonicalOrder (drop : ℕ → Bool) (l : List ℕ) :
    pieces isLetter drop (canonicalOrder t.combining l) = pieces isLetter drop l := by
  induction l with
  | nil => rfl
  | cons r l ih =>
    rw [canonicalOrder, foldr_cons, pieces_insertMark laws drop r]
    rw [← singleton_append, pieces_append]
    have ih' : pieces isLetter drop (l.foldr (insertMark t.combining) []) =
      pieces isLetter drop l := ih
    rw [ih', ← pieces_append, singleton_append]

omit laws in
theorem replaceColon_colon (l : List ℕ) :
    replaceColon (0x75 :: 0x3A :: l) = 0x76 :: replaceColon l := by
  rw [replaceColon, replaceRunes, replaceRunesFrom, replaceRunesFrom_drop]
  simp [List.isPrefixOf, replaceColon]

omit laws in
theorem replaceColon_cons (a : ℕ) (l : List ℕ) (h : a = 0x75 → l.head? ≠ some 0x3A) :
    replaceColon (a :: l) = a :: replaceColon l := by
  rw [replaceColon, replaceRunes, replaceRunesFrom, if_neg]
  · rfl
  cases l <;> grind [List.isPrefixOf]

omit laws in
theorem colon_induction {P : List ℕ → Prop} (nil : P [])
    (colon : ∀ l, P l → P (0x75 :: 0x3A :: l))
    (cons : ∀ a l, (a = 0x75 → l.head? ≠ some 0x3A) → P l → P (a :: l)) : ∀ l, P l
  | [] => nil
  | [a] => cons a [] (by simp) nil
  | a :: b :: l => by
    have hb := colon_induction nil colon cons (b :: l)
    by_cases h : a = 0x75 ∧ b = 0x3A
    · rw [h.1, h.2]
      exact colon l (colon_induction nil colon cons l)
    · exact cons a (b :: l) (by simpa using fun ha hb => h ⟨ha, hb⟩) hb

omit laws in
theorem isSpacePython_ne {r : ℕ} (h : isSpacePython r = true) : r ≠ 0x75 ∧ r ≠ 0x3A := by
  constructor <;> rintro rfl <;> exact absurd h (by decide)

omit laws in
theorem replaceColon_ends (a m b : List ℕ) (ha : ∀ r ∈ a, isSpacePython r = true)
    (hb : ∀ r ∈ b, isSpacePython r = true) :
    replaceColon (a ++ m ++ b) = a ++ replaceColon m ++ b := by
  have hleft (a l : List ℕ) (ha : ∀ r ∈ a, isSpacePython r = true) :
      replaceColon (a ++ l) = a ++ replaceColon l := by
    induction a with
    | nil => rfl
    | cons r a ih =>
      obtain ⟨hr, ha⟩ := forall_mem_cons.mp ha
      rw [cons_append, replaceColon_cons r _ (absurd · (isSpacePython_ne hr).1), ih ha]
      rfl
  have hright : replaceColon (m ++ b) = replaceColon m ++ b := by
    induction m using colon_induction with
    | nil => simpa [replaceColon, replaceRunes, replaceRunesFrom] using hleft b [] hb
    | colon m ih =>
      rw [cons_append, cons_append, replaceColon_colon, ih, replaceColon_colon, cons_append]
    | cons r m h ih =>
      rw [cons_append, replaceColon_cons r _ h, replaceColon_cons, ih, cons_append]
      cases m with
      | nil => exact fun _ hx => (isSpacePython_ne (hb _ (mem_of_mem_head? hx))).2 rfl
      | cons y m => exact h
  rw [append_assoc, hleft a _ ha, hright, append_assoc]

theorem spell_spelling_ends (drop : ℕ → Bool) (a m b : List ℕ)
    (ha : ∀ r ∈ a, isSpacePython r = true) (hb : ∀ r ∈ b, isSpacePython r = true) :
    spell 0x20 false false (pieces isLetter drop (t.spelling (a ++ m ++ b))) =
      spell 0x20 false false (pieces isLetter drop (t.spelling m)) := by
  have hgap (l : List ℕ) (hl : ∀ r ∈ l, isSpacePython r = true) :
      ∀ x ∈ (l.map toneU).flatMap t.decompose, isLetter x = false := by
    intro x hx
    obtain ⟨y, hy, hxy⟩ := mem_flatMap.mp hx
    obtain ⟨r, hr, rfl⟩ := mem_map.mp hy
    have htone : toneU r = r := by
      rw [toneU, if_neg]
      intro hmem
      have := hl r hr
      simp only [mem_cons, not_mem_nil, or_false] at hmem
      rcases hmem with rfl | rfl | rfl | rfl | rfl <;> exact absurd this (by decide)
    rw [htone] at hxy
    exact isLetter_space x (laws.decompose_space r (hl r hr) x hxy)
  rw [CharacterData.spelling, replaceColon_ends a m b ha hb, map_append, map_append,
    flatMap_append, flatMap_append]
  exact spell_ends 0x20 isLetter drop (hgap a ha) (hgap b hb)

theorem lowerFrom_plain {before : List ℕ} (r : ℕ) {l : List ℕ} (hi : t.lower r ≠ 0x69)
    (hs : t.lower r ≠ 0x3C3) :
    t.lowerFrom before (r :: l) = t.lower r :: t.lowerFrom (before ++ [r]) l := by
  rw [CharacterData.lowerFrom, if_neg, if_neg]
  · rfl
  · rintro rfl
    exact hs laws.lower_sigma
  · rintro rfl
    exact hi laws.lower_dotted

omit laws in
theorem head_lowerFrom {before l : List ℕ} (h : (t.lowerFrom before l).head? = some 0x3A) :
    (l.map t.lower).head? = some 0x3A := by
  cases l with
  | nil => cases h
  | cons r l =>
    rw [CharacterData.lowerFrom] at h
    split_ifs at h <;> simp at h
    simpa using h

/-- The special cases of the Python mapping leave no trace: the dot is deleted, and both
forms of sigma separate. -/
theorem pieces_lowerFrom (l before : List ℕ) :
    pieces isLetter t.deleted (t.spelling (t.lowerFrom before l)) =
      pieces isLetter t.deleted (t.spelling (l.map t.lower)) := by
  have hstep (a : ℕ) (m : List ℕ) (ha : a = 0x75 → m.head? ≠ some 0x3A) :
      pieces isLetter t.deleted (t.spelling (a :: m)) =
        pieces isLetter t.deleted (t.decompose (toneU a)) ++
          pieces isLetter t.deleted (t.spelling m) := by
    rw [CharacterData.spelling, replaceColon_cons a m ha, map_cons, flatMap_cons,
      pieces_append]
    rfl
  have hdot : pieces isLetter t.deleted (t.decompose (toneU 0x307)) = [] := by
    rw [show toneU 0x307 = 0x307 by decide, laws.decompose_dot.1]
    exact pieces_cons_drop isLetter t.deleted _ _ (by decide)
      (by simp [CharacterData.deleted, laws.decompose_dot.2])
  have hgap (a : ℕ) (hd : t.decompose (toneU a) = [a]) (hl : isLetter a = false)
      (hc : t.combining a = 0) (ht : isTone a = false) :
      pieces isLetter t.deleted (t.decompose (toneU a)) = [none] := by
    rw [hd]
    exact pieces_cons_gap isLetter t.deleted _ hl (by simp [CharacterData.deleted, hc, ht])
  have hsigma : pieces isLetter t.deleted (t.decompose (toneU 0x3C3)) = [none] :=
    hgap _ laws.decompose_sigma.1 (by decide) laws.sigma_starter.1 (by decide)
  have hfinal : pieces isLetter t.deleted (t.decompose (toneU 0x3C2)) = [none] :=
    hgap _ laws.decompose_sigma.2 (by decide) laws.sigma_starter.2 (by decide)
  induction hm : l.map t.lower using colon_induction generalizing l before with
  | nil =>
    rw [map_eq_nil_iff.mp hm]
    rfl
  | colon m ih =>
    obtain ⟨r, _, rfl, hr, hm⟩ := map_eq_cons_iff.mp hm
    obtain ⟨b, l, rfl, hb, hm⟩ := map_eq_cons_iff.mp hm
    rw [lowerFrom_plain laws r (by omega) (by omega), hr,
      lowerFrom_plain laws b (by omega) (by omega), hb]
    simp only [CharacterData.spelling, replaceColon_colon, map_cons, flatMap_cons,
      pieces_append]
    exact congrArg (_ ++ ·) (ih _ _ hm)
  | cons a m h ih =>
    obtain ⟨r, l, rfl, rfl, rfl⟩ := map_eq_cons_iff.mp hm
    rw [hstep _ _ h, CharacterData.lowerFrom]
    split_ifs with hdotted hs hlast
    · rw [hdotted, laws.lower_dotted, cons_append, cons_append, nil_append,
        hstep _ _ (by simp), hstep _ _ (by simp), hdot, nil_append, ih _ _ rfl]
    · rw [hs, laws.lower_sigma, cons_append, nil_append, hstep _ _ (by simp),
        hsigma, hfinal, ih _ _ rfl]
    · rw [hs, laws.lower_sigma, cons_append, nil_append, hstep _ _ (by simp),
        ih _ _ rfl]
    · rw [cons_append, nil_append,
        hstep _ _ (fun hu hx => h hu (head_lowerFrom hx)), ih _ _ rfl]

end Laws

theorem python_pieces {t : CharacterData} (laws : t.Laws) (l : List ℕ) :
    (((((l.filter (fun r => t.combining r = 0)).filter (fun r => !isTone r)).map
        (fun r => if r = 0x27 then 0x20 else r)).map
        (fun r => if isLetter r || isSpacePython r then r else 0x20)).map
        (fun r => if isSpacePython r then none else some r)) =
      pieces isLetter t.deleted l := by
  induction l with
  | nil => rfl
  | cons r l ih =>
    cases hr : isLetter r with
    | true =>
      have htone : isTone r = false := by
        by_contra h
        rw [isLetter_tone r (by simpa using h)] at hr
        cases hr
      have hspace : isSpacePython r = false := by
        by_contra h
        rw [isLetter_space r (by simpa using h)] at hr
        cases hr
      have hquote : r ≠ 0x27 := by
        rintro rfl
        cases hr
      rw [pieces_cons_letter isLetter t.deleted l hr, ← ih]
      simp [laws.letter_starter r hr, htone, hquote, hr, hspace]
    | false =>
      cases hd : t.deleted r with
      | true =>
        rw [pieces_cons_drop isLetter t.deleted r l hr hd, ← ih]
        by_cases hc : t.combining r = 0
        · have htone : isTone r = true := by simpa [CharacterData.deleted, hc] using hd
          simp [hc, htone]
        · simp [hc]
      | false =>
        rw [pieces_cons_gap isLetter t.deleted l hr hd, ← ih]
        simp only [CharacterData.deleted, ne_eq, decide_not, Bool.or_eq_false_iff,
          Bool.not_eq_false', decide_eq_true_eq] at hd
        have hblank : isSpacePython 0x20 = true := by decide
        by_cases hquote : r = 0x27
        · subst hquote
          simp [hd.1, hd.2, hblank]
        · cases hspace : isSpacePython r <;> simp [hd.1, hd.2, hquote, hr, hspace, hblank]

section Laws
variable {t : CharacterData} (laws : t.Laws)
include laws

theorem pythonPinyin_eq (s : List ℕ) : t.pythonPinyin s =
    spell 0x20 false false (pieces isLetter t.deleted (t.spelling ((t.nfkc s).map t.lower))) := by
  obtain ⟨a, b, he, ha, hb⟩ := strip_split isSpacePython (t.lowerFrom [] (t.nfkc s))
  have hends := spell_spelling_ends laws t.deleted a
    (strip isSpacePython (t.lowerFrom [] (t.nfkc s))) b ha hb
  rw [← he, pieces_lowerFrom laws] at hends
  rw [CharacterData.pythonPinyin, hends]
  show strip isSpacePython (collapse isSpacePython 0x20 false _) = _
  rw [strip_collapse isSpacePython 0x20 (by decide), python_pieces laws, CharacterData.nfd,
    pieces_canonicalOrder laws]
  rfl

theorem scalar_map_lower {m : List ℕ} (hm : ∀ r ∈ m, IsScalar r) :
    ∀ r ∈ m.map t.lower, IsScalar r := by
  intro r hr
  obtain ⟨x, hx, rfl⟩ := mem_map.mp hr
  exact laws.lower_scalar x (hm x hx)

omit laws in
theorem scalar_replaceRunes {old new : List ℕ} (hnew : ∀ r ∈ new, IsScalar r) (k : ℕ) {m : List ℕ}
    (hm : ∀ r ∈ m, IsScalar r) : ∀ r ∈ replaceRunesFrom old new k m, IsScalar r := by
  induction m generalizing k with
  | nil => cases k <;> simp [replaceRunesFrom]
  | cons x m ih =>
    have ih' (k : ℕ) := ih k (forall_mem_cons.mp hm).2
    cases k with
    | succ k => exact ih' k
    | zero =>
      rw [replaceRunesFrom]
      split_ifs
      · intro r hr
        rcases mem_append.mp hr with hr | hr
        · exact hnew r hr
        · exact ih' _ r hr
      · intro r hr
        rcases mem_cons.mp hr with rfl | hr
        · exact hm r mem_cons_self
        · exact ih' _ r hr

omit laws in
theorem replace_tones (m : List ℕ) (hm : ∀ r ∈ m, IsScalar r) :
    [lit "ü", lit "ǖ", lit "ǘ", lit "ǚ", lit "ǜ"].foldl (fun v old => replaceAll old (lit "v") v)
      (encodeRunes m) = encodeRunes (m.map toneU) := by
  have hv : lit "v" = encodeRunes [0x76] := by decide
  have hlits : [lit "ü", lit "ǖ", lit "ǘ", lit "ǚ", lit "ǜ"] =
      [0xFC, 0x1D6, 0x1D8, 0x1DA, 0x1DC].map (fun r => encodeRunes [r]) := by decide
  have hone (o : ℕ) (ho : o ∈ [0xFC, 0x1D6, 0x1D8, 0x1DA, 0x1DC]) (m : List ℕ)
      (hm : ∀ r ∈ m, IsScalar r) :
      replaceAll (encodeRunes [o]) (lit "v") (encodeRunes m) =
        encodeRunes (m.map (fun r => if r = o then 0x76 else r)) ∧
      ∀ r ∈ m.map (fun r => if r = o then 0x76 else r), IsScalar r := by
    have hscalar : IsScalar o := by
      simp only [mem_cons, not_mem_nil, or_false] at ho
      exact .inl (by omega)
    constructor
    · rw [hv, replaceAll_encodeRunes [o] [0x76] m (by simp) (by simpa using hscalar) hm,
        replaceRunes_single]
    · intro r hr
      obtain ⟨x, hx, rfl⟩ := mem_map.mp hr
      split_ifs
      · exact .inl (by decide)
      · exact hm x hx
  -- The list of spellings shrinks; what has been replaced stays a v.
  have hall (os : List ℕ) (hos : ∀ o ∈ os, o ∈ [0xFC, 0x1D6, 0x1D8, 0x1DA, 0x1DC]) (m : List ℕ)
      (hm : ∀ r ∈ m, IsScalar r) :
      (os.map (fun r => encodeRunes [r])).foldl (fun v old => replaceAll old (lit "v") v)
        (encodeRunes m) = encodeRunes (m.map (fun r => if r ∈ os then 0x76 else r)) := by
    induction os generalizing m with
    | nil => simp
    | cons o os ih =>
      obtain ⟨hreplace, hscalar⟩ := hone o (hos o mem_cons_self) m hm
      rw [map_cons, foldl_cons, hreplace,
        ih (forall_mem_cons.mp hos).2 _ hscalar, map_map]
      congr 1
      apply map_congr_left
      intro r _
      have hvv : 0x76 ∉ os := by
        intro h
        exact absurd (hos 0x76 (mem_cons_of_mem _ h)) (by decide)
      by_cases h : r = o <;> simp [h]
  rw [hlits, hall _ (fun o ho => ho) m hm]
  rfl

theorem canonicalPinyin_eq {s : List ℕ} (hs : ∀ r ∈ s, IsScalar r) :
    canonicalPinyin t.unicode (encodeRunes s) = encodeRunes (spell 0x20 false false
      (pieces isLetter t.skipped (t.spelling ((t.nfkc s).map t.lower)))) := by
  obtain ⟨a, m, b, rfl, ha, hb, htrim⟩ := trimSpace_encodeRunes s hs
  obtain ⟨a', b', he, ha', hb'⟩ := nfkc_trim laws a m b ha hb
  have hpython (r : ℕ) (h : isSpaceRune r = true) : isSpacePython r = true := by
    simp [isSpacePython, h]
  have hm : ∀ r ∈ m, IsScalar r := fun r hr => hs r (by simp [hr])
  have hnfkc := laws.nfkc_scalar m hm
  have hlower := scalar_map_lower laws hnfkc
  have hcolon : ∀ r ∈ replaceColon ((t.nfkc m).map t.lower), IsScalar r :=
    scalar_replaceRunes (by decide) 0 hlower
  have htone : ∀ r ∈ (replaceColon ((t.nfkc m).map t.lower)).map toneU,
      IsScalar r := by
    intro r hr
    obtain ⟨x, hx, rfl⟩ := mem_map.mp hr
    rw [toneU]
    split_ifs
    · exact .inl (by decide)
    · exact hcolon x hx
  -- The bytes are those of the code points at each step.
  have h1 : t.unicode.toLower (t.unicode.nfkc (trimSpace (encodeRunes (a ++ m ++ b)))) =
      encodeRunes ((t.nfkc m).map t.lower) := by
    rw [htrim]
    show mapRunes t.lower (encodeRunes (t.nfkc (runes (encodeRunes m)))) = _
    rw [runes_encodeRunes m hm, mapRunes, runes_encodeRunes _ hnfkc]
  have h2 : replaceAll (lit "u:") (lit "v") (encodeRunes ((t.nfkc m).map t.lower)) =
      encodeRunes (replaceColon ((t.nfkc m).map t.lower)) := by
    have hu : lit "u:" = encodeRunes [0x75, 0x3A] := by decide
    have hv : lit "v" = encodeRunes [0x76] := by decide
    rw [hu, hv, replaceAll_encodeRunes _ _ _ (by simp) (by decide) hlower, replaceColon]
  have hdecomposed : ∀ r ∈ t.spelling ((t.nfkc m).map t.lower), IsScalar r := by
    intro r hr
    obtain ⟨x, hx, hxr⟩ := mem_flatMap.mp hr
    exact laws.decompose_scalar x (htone x hx) r hxr
  have hordered (l : List ℕ) (hl : ∀ r ∈ l, IsScalar r) :
      ∀ r ∈ canonicalOrder t.combining l, IsScalar r := by
    have hinsert (r : ℕ) (hr : IsScalar r) (m : List ℕ) (hm : ∀ x ∈ m, IsScalar x) :
        ∀ x ∈ insertMark t.combining r m, IsScalar x := by
      induction m with
      | nil => simpa [insertMark] using hr
      | cons y m ih =>
        rw [insertMark]
        split_ifs
        · obtain ⟨hy, hm⟩ := forall_mem_cons.mp hm
          exact forall_mem_cons.mpr ⟨hy, ih hm⟩
        · exact forall_mem_cons.mpr ⟨hr, hm⟩
    induction l with
    | nil => simp [canonicalOrder]
    | cons r l ih => exact hinsert r (hl r mem_cons_self) _ (ih (forall_mem_cons.mp hl).2)
  have hends := spell_spelling_ends laws t.skipped a' ((t.nfkc m).map t.lower) b'
    (fun r hr => hpython r (ha' r hr)) (fun r hr => hpython r (hb' r hr))
  have hmap : (t.nfkc (a ++ m ++ b)).map t.lower = a' ++ (t.nfkc m).map t.lower ++ b' := by
    have hfix (l : List ℕ) (hl : ∀ r ∈ l, isSpaceRune r = true) : l.map t.lower = l :=
      map_fixed (fun r hr => laws.lower_space r (hpython r (hl r hr)))
    rw [he, map_append, map_append, hfix a' ha', hfix b' hb']
  rw [hmap, hends]
  have h3 : runes (t.unicode.nfd (encodeRunes
      ((replaceColon ((t.nfkc m).map t.lower)).map toneU))) =
      canonicalOrder t.combining (t.spelling ((t.nfkc m).map t.lower)) := by
    show runes (encodeRunes (t.nfd (runes (encodeRunes _)))) = _
    rw [runes_encodeRunes _ htone]
    exact runes_encodeRunes _ (hordered _ hdecomposed)
  unfold canonicalPinyin
  simp only
  rw [h1, h2, replace_tones _ hcolon, h3, foldl_pinyinStep laws _ [] false (by simp),
    pieces_canonicalOrder laws, nil_append]
  have hascii : ∀ r ∈ spell 0x20 false false
      (pieces isLetter t.skipped (t.spelling ((t.nfkc m).map t.lower))), r < 0x80 :=
    spell_forall 0x20 isLetter t.skipped (fun r => r < 0x80) (by decide)
      (fun r _ hr => isLetter_ascii hr) false false
  rw [encodeRunes_ascii _ hascii]
  rfl

end Laws

/-- Where the identities of the three programs agree: the readings when both languages see
gaps between the same letters, the phrases when there is none of the four controls that only
Python takes for white space. -/
theorem one_identity (t : CharacterData) (laws : t.Laws) (s : List ℕ) (hs : ∀ r ∈ s, IsScalar r) :
    PublicPack.normalizePinyin t s = Importer.normalizePinyin t s ∧
    (canonicalPinyin t.unicode (encodeRunes s) = encodeRunes (Importer.normalizePinyin t s) ↔
      SameGaps isLetter t.skipped t.deleted (t.spelling ((t.nfkc s).map t.lower))) ∧
    (canonicalPhrase t.unicode (encodeRunes s) = encodeRunes (Importer.normalizePhrase t s) ↔
      ∀ r ∈ t.nfkc s, ¬(0x1C ≤ r ∧ r ≤ 0x1F)) ∧
    (PublicPack.normalizePhrase t s ≠ [] →
      (canonicalPhrase t.unicode (encodeRunes s) = encodeRunes (PublicPack.normalizePhrase t s) ↔
        ∀ r ∈ t.nfkc s, ¬(0x1C ≤ r ∧ r ≤ 0x1F))) := by
  have hnfkc := laws.nfkc_scalar s hs
  have hphrase : canonicalPhrase t.unicode (encodeRunes s) =
      encodeRunes (Importer.normalizePhrase t s) ↔ ∀ r ∈ t.nfkc s, ¬(0x1C ≤ r ∧ r ≤ 0x1F) := by
    rw [canonicalPhrase_eq laws hs, Importer.normalizePhrase, filter_strip, ← filter_spaces_eq_iff]
    constructor
    · intro h
      exact encodeRunes_injective _ (fun r hr => hnfkc r (mem_filter.mp hr).1)
        (fun r hr => hnfkc r (mem_filter.mp hr).1) h
    · intro h
      rw [h]
  refine ⟨rfl, ?_, hphrase, ?_⟩
  · have hascii (drop : ℕ → Bool) (p : List ℕ) :
        ∀ r ∈ spell 0x20 false false (pieces isLetter drop p), IsScalar r :=
      spell_forall 0x20 isLetter drop IsScalar (Or.inl (by decide))
        (fun r _ hr => Or.inl (by have := isLetter_ascii hr; omega)) false false
    rw [canonicalPinyin_eq laws hs, Importer.normalizePinyin, pythonPinyin_eq laws s,
      ← spell_eq_iff 0x20 isLetter t.skipped t.deleted (by decide)]
    constructor
    · exact encodeRunes_injective _ (hascii _ _) (hascii _ _)
    · intro h
      rw [h]
  · intro hne
    have hsame : PublicPack.normalizePhrase t s = Importer.normalizePhrase t s := by
      unfold PublicPack.normalizePhrase at hne ⊢
      simp only at hne ⊢
      split_ifs at hne ⊢ <;> first | rfl | exact absurd rfl hne
    rw [hsame]
    exact hphrase

/-- Tables with the entries that matter here. U+034F is a mark of category Mn with class 0. -/
def sampleCharacters : CharacterData where
  nfkc := id
  lower r := if 65 ≤ r ∧ r ≤ 90 then r+32 else if r = 0x130 then 0x69
    else if r = 0x3A3 then 0x3C3 else r
  finalSigma _ after := after.isEmpty
  decompose r := [r]
  combining r := if r = 0x307 then 230 else 0
  isMn r := r = 0x307 ∨ r = 0x34F
  isOther r := r < 0x20

theorem sampleCharacters_laws : sampleCharacters.Laws where
  nfkc_scalar _ hs := hs
  lower_scalar r hr := by
    show IsScalar (if 65 ≤ r ∧ r ≤ 90 then r+32 else if r = 0x130 then 0x69
      else if r = 0x3A3 then 0x3C3 else r)
    split_ifs
    · exact .inl (by omega)
    · exact .inl (by decide)
    · exact .inl (by decide)
    · exact hr
  decompose_scalar r hr x hx := by
    rw [mem_singleton.mp hx]
    exact hr
  nfkc_nil := rfl
  nfkc_space s r s' _ := by
    show s ++ r :: s' = s ++ [r] ++ s'
    simp
  nfkc_space_char r hr x hx := by
    rw [mem_singleton.mp hx]
    exact hr
  lower_space r hr := by
    simp only [isSpacePython, isSpaceRune, decide_eq_true_eq] at hr
    show (if 65 ≤ r ∧ r ≤ 90 then r+32 else if r = 0x130 then 0x69
      else if r = 0x3A3 then 0x3C3 else r) = r
    split_ifs <;> omega
  decompose_space r hr x hx := by
    rw [mem_singleton.mp hx]
    exact hr
  letter_starter r hr := by
    have := isLetter_ascii hr
    exact if_neg (by omega)
  letter_not_mark r hr := by
    have := isLetter_ascii hr
    show decide (r = 0x307 ∨ r = 0x34F) = false
    rw [decide_eq_false_iff_not]
    omega
  lower_dotted := rfl
  decompose_dot := ⟨rfl, by decide⟩
  lower_sigma := rfl
  decompose_sigma := ⟨rfl, rfl⟩
  sigma_starter := ⟨rfl, rfl⟩

/-- A phrase with a blank, and a reading with capitals, a tone, a mark and an apostrophe. -/
theorem one_identity_sample :
    canonicalPhrase sampleCharacters.unicode (encodeRunes [0x4E2D, 0x20, 0x56FD]) =
      encodeRunes (Importer.normalizePhrase sampleCharacters [0x4E2D, 0x20, 0x56FD]) ∧
    canonicalPinyin sampleCharacters.unicode
        (encodeRunes [0x58, 0x49, 0x31, 0x27, 0x61, 0x307, 0x6E]) =
      encodeRunes (Importer.normalizePinyin sampleCharacters
        [0x58, 0x49, 0x31, 0x27, 0x61, 0x307, 0x6E]) ∧
    Importer.normalizePinyin sampleCharacters [0x58, 0x49, 0x31, 0x27, 0x61, 0x307, 0x6E] =
      [0x78, 0x69, 0x20, 0x61, 0x6E] :=
  ⟨(one_identity sampleCharacters sampleCharacters_laws [0x4E2D, 0x20, 0x56FD]
      (by decide)).2.2.1.mpr (by decide),
    (one_identity sampleCharacters sampleCharacters_laws [0x58, 0x49, 0x31, 0x27, 0x61, 0x307, 0x6E]
      (by decide)).2.1.mpr (sameGaps_of_eq _ _ _ (by decide)), by decide⟩

/-- A file separator between two characters, and a joiner between two syllables. -/
theorem identities_differ :
    canonicalPhrase sampleCharacters.unicode (encodeRunes [0x4E2D, 0x1C, 0x56FD]) =
      encodeRunes [0x4E2D, 0x1C, 0x56FD] ∧
    Importer.normalizePhrase sampleCharacters [0x4E2D, 0x1C, 0x56FD] = [0x4E2D, 0x56FD] ∧
    PublicPack.normalizePhrase sampleCharacters [0x4E2D, 0x1C, 0x56FD] = [0x4E2D, 0x56FD] ∧
    canonicalPinyin sampleCharacters.unicode (encodeRunes [0x78, 0x69, 0x34F, 0x61, 0x6E]) =
      lit "xian" ∧
    encodeRunes (Importer.normalizePinyin sampleCharacters [0x78, 0x69, 0x34F, 0x61, 0x6E]) =
      lit "xi an" := by
  decide

end YunPin
