import YunPin.Utf8

/-! Functions on strings as functions on code points. Replacement, trimming and the removal
of white space work on bytes, but on a well-formed string they act on whole runes. -/
namespace ByteText
open List

/-- `unicode.IsSpace`. -/
def isSpaceRune (r : ℕ) : Bool :=
  (0x09 ≤ r ∧ r ≤ 0x0D) ∨ r = 0x20 ∨ r = 0x85 ∨ r = 0xA0 ∨ r = 0x1680 ∨ (0x2000 ≤ r ∧ r ≤ 0x200A) ∨
    r = 0x2028 ∨ r = 0x2029 ∨ r = 0x202F ∨ r = 0x205F ∨ r = 0x3000

/-- A continuation byte, which starts no rune. -/
def Inner (b : UInt8) : Prop := 0x80 ≤ b.toNat ∧ b.toNat ≤ 0xBF

variable (r : ℕ) (l : List ℕ)

/-- A rune is a byte that starts it and continuation bytes after it. -/
theorem encodeRune_split (h : IsScalar r) :
    ∃ b tail, encodeRune r = b :: tail ∧ ¬Inner b ∧ ∀ c ∈ tail, Inner c := by
  obtain ⟨b, tail, he, hreads⟩ := reads_encodeRune h
  refine ⟨b, tail, he, ?_, ?_⟩
  · have hneed := hreads.need
    rw [runeNeed_nat] at hneed
    intro hinner
    unfold Inner at hinner
    split_ifs at hneed <;> omega
  · cases tail with
    | nil => simp
    | cons c cs => exact ((tailOk_nat b c cs).mp hreads.ok).2.2.2.2

theorem runes_append (h : ∀ r ∈ l, IsScalar r) (rest : Bytes) :
    runes (encodeRunes l ++ rest) = l ++ runes rest := by
  induction l with
  | nil => rfl
  | cons r l ih =>
    obtain ⟨b, tail, he, hreads⟩ := reads_encodeRune (h r mem_cons_self)
    rw [encodeRunes, flatMap_cons, he, append_assoc, hreads.runes, cons_append]
    exact congrArg (r :: ·) (ih (forall_mem_cons.mp h).2)

theorem encodeRunes_append (m : List ℕ) : encodeRunes (l ++ m) = encodeRunes l ++ encodeRunes m :=
  flatMap_append

theorem encodeRunes_cons : encodeRunes (r :: l) = encodeRune r ++ encodeRunes l := flatMap_cons

theorem encodeRunes_split (h : IsScalar r) : ∃ b tail, encodeRune r = b :: tail ∧
    encodeRunes (r :: l) = b :: (tail ++ encodeRunes l) ∧ ¬Inner b ∧ ∀ c ∈ tail, Inner c := by
  obtain ⟨b, tail, he, hb, htail⟩ := encodeRune_split r h
  refine ⟨b, tail, he, ?_, hb, htail⟩
  rw [encodeRunes_cons, he, cons_append]

theorem encodeRunes_injective {m : List ℕ} (hl : ∀ r ∈ l, IsScalar r) (hm : ∀ r ∈ m, IsScalar r)
    (h : encodeRunes l = encodeRunes m) : l = m := by
  rw [← runes_encodeRunes l hl, h, runes_encodeRunes m hm]

theorem isPrefixOf_encodeRunes {o l : List ℕ} (ho : ∀ r ∈ o, IsScalar r)
    (hl : ∀ r ∈ l, IsScalar r) : (encodeRunes o).isPrefixOf (encodeRunes l) = o.isPrefixOf l := by
  rw [Bool.eq_iff_iff, isPrefixOf_iff_prefix, isPrefixOf_iff_prefix]
  constructor
  · rintro ⟨rest, hrest⟩
    refine ⟨runes rest, ?_⟩
    rw [← runes_append o ho, hrest, runes_encodeRunes l hl]
  · rintro ⟨rest, rfl⟩
    exact ⟨encodeRunes rest, (encodeRunes_append o rest).symm⟩

/-- `strings.ReplaceAll` on code points; the counter is what is left to skip of a match. -/
def replaceRunesFrom (old new : List ℕ) : ℕ → List ℕ → List ℕ
  | _, [] => []
  | k+1, _ :: rest => replaceRunesFrom old new k rest
  | 0, r :: rest =>
    if old.isPrefixOf (r :: rest) then new ++ replaceRunesFrom old new (old.length-1) rest
    else r :: replaceRunesFrom old new 0 rest

def replaceRunes (old new s : List ℕ) : List ℕ := replaceRunesFrom old new 0 s

/-- A scan that skips `k` elements first is the scan of what is left after them. -/
theorem scan_drop {α β : Type} (f : ℕ → List α → β) (hnil : ∀ k, f k [] = f 0 [])
    (hskip : ∀ k a rest, f (k+1) (a :: rest) = f k rest) (k : ℕ) (s : List α) :
    f k s = f 0 (s.drop k) := by
  induction s generalizing k with
  | nil => rw [hnil, drop_nil]
  | cons a rest ih =>
    cases k with
    | zero => rfl
    | succ k => rw [hskip, ih k, drop_succ_cons]

theorem replaceRunesFrom_drop (old new : List ℕ) (k : ℕ) (s : List ℕ) :
    replaceRunesFrom old new k s = replaceRunes old new (s.drop k) :=
  scan_drop (replaceRunesFrom old new) (fun k => by cases k <;> rfl) (fun _ _ _ => rfl) k s

theorem replaceFrom_drop (old new : Bytes) (k : ℕ) (s : Bytes) :
    replaceFrom old new k s = replaceAll old new (s.drop k) :=
  scan_drop (replaceFrom old new) (fun k => by cases k <;> rfl) (fun _ _ _ => rfl) k s

theorem replaceAll_inner {b : UInt8} (old new tail s : Bytes) (hb : ¬Inner b)
    (htail : ∀ c ∈ tail, Inner c) :
    replaceAll (b :: old) new (tail ++ s) = tail ++ replaceAll (b :: old) new s := by
  induction tail with
  | nil => rfl
  | cons c tail ih =>
    have hne : (b :: old).isPrefixOf (c :: (tail ++ s)) = false := by
      have hbc : b ≠ c := fun h => hb (h ▸ htail c mem_cons_self)
      simp [List.isPrefixOf, hbc]
    rw [cons_append, replaceAll, replaceFrom, hne]
    simp only [Bool.false_eq_true, if_false]
    rw [replaceFrom_drop, drop_zero, ih (forall_mem_cons.mp htail).2,
      cons_append]

/-- No match starts inside a rune, so the replacement of bytes is one of runes. -/
theorem replaceAll_encodeRunes (old new s : List ℕ) (hne : old ≠ [])
    (hold : ∀ r ∈ old, IsScalar r) (hs : ∀ r ∈ s, IsScalar r) :
    replaceAll (encodeRunes old) (encodeRunes new) (encodeRunes s) =
      encodeRunes (replaceRunes old new s) := by
  obtain ⟨o, os, rfl⟩ := exists_cons_of_ne_nil hne
  obtain ⟨ob, otail, ho, hencode, hob, -⟩ := encodeRunes_split o os (hold o mem_cons_self)
  induction hlen : s.length using Nat.strong_induction_on generalizing s with
  | _ n ih =>
    cases s with
    | nil => rfl
    | cons r rest =>
      obtain ⟨b, tail, hr, hbytes, -, htail⟩ := encodeRunes_split r rest (hs r mem_cons_self)
      have hprefix := isPrefixOf_encodeRunes hold hs
      rw [hbytes] at hprefix ⊢
      rw [replaceAll, replaceFrom, replaceRunes, replaceRunesFrom, hprefix]
      split_ifs with hp
      · obtain ⟨after, hafter⟩ := isPrefixOf_iff_prefix.mp hp
        have hrest : rest.drop ((o :: os).length-1) = after := by
          have := congrArg (List.drop (o :: os).length) hafter
          rw [drop_left] at this
          rw [this]
          rfl
        have hskip : (tail ++ encodeRunes rest).drop ((encodeRunes (o :: os)).length-1) =
            encodeRunes after := by
          have hall : encodeRunes (o :: os) ++ encodeRunes after = b :: (tail ++ encodeRunes rest) := by
            rw [← encodeRunes_append, hafter, hbytes]
          have := congrArg (List.drop (encodeRunes (o :: os)).length) hall
          rw [drop_left] at this
          rw [this, hencode]
          rfl
        have hsub : ∀ x ∈ after, IsScalar x := fun x hx =>
          hs x (hafter ▸ mem_append_right _ hx)
        have hshort : after.length < n := by
          have := congrArg List.length hafter
          rw [length_append, hlen] at this
          simp only [length_cons] at this
          omega
        rw [replaceFrom_drop, replaceRunesFrom_drop, hrest, hskip, encodeRunes_append,
          ih after.length hshort after hsub rfl]
      · rw [replaceFrom_drop, drop_zero, replaceRunesFrom_drop, drop_zero, hencode,
          replaceAll_inner _ _ tail _ hob htail, ← hencode,
          ih rest.length (by rw [← hlen]; simp) rest (forall_mem_cons.mp hs).2 rfl,
          encodeRunes_cons, hr, cons_append]

theorem replaceRunes_single (o n : ℕ) (s : List ℕ) :
    replaceRunes [o] [n] s = s.map (fun r => if r = o then n else r) := by
  induction s with
  | nil => rfl
  | cons r rest ih =>
    rw [replaceRunes, replaceRunesFrom, replaceRunesFrom_drop, replaceRunesFrom_drop, map_cons]
    by_cases h : r = o
    · simp [List.isPrefixOf, h, ih]
    · simp [List.isPrefixOf, h, Ne.symm h, ih]

theorem isSpaceRune_scalar (h : isSpaceRune r = true) : IsScalar r := by
  simp only [isSpaceRune, decide_eq_true_eq] at h
  exact .inl (by omega)

theorem spaceSize_encodeRune (h : isSpaceRune r = true) (rest : Bytes) :
    spaceSize (encodeRune r ++ rest) = some (encodeRune r).length := by
  simp only [isSpaceRune, decide_eq_true_eq] at h
  rcases h with ⟨hlo, hhi⟩ | rfl | rfl | rfl | rfl | ⟨hlo, hhi⟩ | rfl | rfl | rfl | rfl | rfl
  case inl | inr.inr.inr.inr.inr.inl => interval_cases r <;> rfl
  all_goals rfl

theorem spaceSize_some {s : Bytes} {n : ℕ} (h : spaceSize s = some n) :
    ∃ r rest, isSpaceRune r = true ∧ s = encodeRune r ++ rest := by
  unfold spaceSize at h
  split at h
  · rename_i c rest
    split_ifs at h with hc
    rcases hc with rfl | rfl
    · exact ⟨0x85, rest, rfl, rfl⟩
    · exact ⟨0xA0, rest, rfl, rfl⟩
  · rename_i rest
    exact ⟨0x1680, rest, rfl, rfl⟩
  · rename_i c rest
    split_ifs at h with hc
    rcases hc with ⟨hlo, hhi⟩ | rfl | rfl | rfl
    · have hlo' : 0x80 ≤ c.toNat := UInt8.le_iff_toNat_le.mp hlo
      have hhi' : c.toNat ≤ 0x8A := UInt8.le_iff_toNat_le.mp hhi
      refine ⟨0x2000+(c.toNat-0x80), rest, ?_, ?_⟩
      · simp only [isSpaceRune, decide_eq_true_eq]
        omega
      · rw [← UInt8.ofNat_toNat (x := c)]
        generalize c.toNat = m at hlo' hhi'
        interval_cases m <;> rfl
    · exact ⟨0x2028, rest, rfl, rfl⟩
    · exact ⟨0x2029, rest, rfl, rfl⟩
    · exact ⟨0x202F, rest, rfl, rfl⟩
  · rename_i rest
    exact ⟨0x205F, rest, rfl, rfl⟩
  · rename_i rest
    exact ⟨0x3000, rest, rfl, rfl⟩
  · rename_i b rest _ _ _ _ _
    split_ifs at h with hb
    have hlt : b.toNat = 0x20 ∨ (0x09 ≤ b.toNat ∧ b.toNat ≤ 0x0D) := by
      rcases hb with rfl | ⟨hlo, hhi⟩
      · exact .inl rfl
      · exact .inr ⟨UInt8.le_iff_toNat_le.mp hlo, UInt8.le_iff_toNat_le.mp hhi⟩
    refine ⟨b.toNat, rest, ?_, ?_⟩
    · simp only [isSpaceRune, decide_eq_true_eq]
      omega
    · rw [encodeRune_ascii _ (by omega), UInt8.ofNat_toNat]
      rfl
  · cases h

theorem spaceSize_inner {c : UInt8} (s : Bytes) (h : Inner c) : spaceSize (c :: s) = none := by
  by_contra hne
  obtain ⟨n, hn⟩ := Option.ne_none_iff_exists'.mp hne
  obtain ⟨r, rest, hr, he⟩ := spaceSize_some hn
  obtain ⟨b, tail, hb, hinner, -⟩ := encodeRune_split r (isSpaceRune_scalar r hr)
  rw [hb, cons_append, List.cons.injEq] at he
  exact hinner (he.1 ▸ h)

theorem spaceSize_encodeRunes (h : IsScalar r) : spaceSize (encodeRunes (r :: l)) =
      if isSpaceRune r then some (encodeRune r).length else none := by
  split_ifs with hr
  · rw [encodeRunes_cons, spaceSize_encodeRune r hr]
  · by_contra hne
    obtain ⟨n, hn⟩ := Option.ne_none_iff_exists'.mp hne
    obtain ⟨r', rest, hr', he⟩ := spaceSize_some hn
    have hone (x : ℕ) (hx : IsScalar x) (t : Bytes) : runes (encodeRune x ++ t) = x :: runes t := by
      have := runes_append [x] (by simpa using hx) t
      simpa [encodeRunes] using this
    have hruns := congrArg runes he
    rw [encodeRunes_cons, hone r h, hone r' (isSpaceRune_scalar r' hr'), List.cons.injEq] at hruns
    rw [hruns.1] at hr
    exact hr hr'

theorem dropSpaces_drop (k : ℕ) (s : Bytes) : dropSpaces k s = dropSpaces 0 (s.drop k) :=
  scan_drop dropSpaces (fun k => by cases k <;> rfl) (fun _ _ _ => rfl) k s

theorem removeSpacesFrom_drop (k : ℕ) (s : Bytes) :
    removeSpacesFrom k s = removeSpacesFrom 0 (s.drop k) :=
  scan_drop removeSpacesFrom (fun k => by cases k <;> rfl) (fun _ _ _ => rfl) k s

theorem dropSpaces_encodeRunes (h : ∀ r ∈ l, IsScalar r) :
    dropSpaces 0 (encodeRunes l) = encodeRunes (l.dropWhile isSpaceRune) := by
  induction l with
  | nil => rfl
  | cons r l ih =>
    have hr := h r mem_cons_self
    have hsize := spaceSize_encodeRunes r l hr
    obtain ⟨b, tail, hb, hbytes, -⟩ := encodeRunes_split r l hr
    rw [hbytes] at hsize ⊢
    rw [dropSpaces, hsize]
    by_cases hs : isSpaceRune r = true
    · rw [if_pos hs, dropWhile_cons_of_pos hs]
      show dropSpaces ((encodeRune r).length-1) _ = _
      rw [dropSpaces_drop, hb, length_cons, Nat.add_sub_cancel, drop_left]
      exact ih (forall_mem_cons.mp h).2
    · rw [if_neg hs, dropWhile_cons_of_neg hs, hbytes]

theorem removeSpaces_inner (tail s : Bytes) (htail : ∀ c ∈ tail, Inner c) :
    removeSpacesFrom 0 (tail ++ s) = tail ++ removeSpacesFrom 0 s := by
  induction tail with
  | nil => rfl
  | cons c tail ih =>
    rw [cons_append, removeSpacesFrom, spaceSize_inner _ (htail c mem_cons_self)]
    exact congrArg (c :: ·) (ih (forall_mem_cons.mp htail).2)

/-- `strings.Join(strings.Fields(s), "")` removes the white space runes. -/
theorem joinFields_encodeRunes (h : ∀ r ∈ l, IsScalar r) :
    joinFields (encodeRunes l) = encodeRunes (l.filter (fun r => !isSpaceRune r)) := by
  induction l with
  | nil => rfl
  | cons r l ih =>
    have hr := h r mem_cons_self
    have ih' := ih (forall_mem_cons.mp h).2
    have hsize := spaceSize_encodeRunes r l hr
    obtain ⟨b, tail, hb, hbytes, -, htail⟩ := encodeRunes_split r l hr
    rw [hbytes] at hsize ⊢
    rw [joinFields, removeSpacesFrom, hsize]
    by_cases hs : isSpaceRune r = true
    · rw [if_pos hs, filter_cons_of_neg (by simp [hs])]
      show removeSpacesFrom ((encodeRune r).length-1) _ = _
      rw [removeSpacesFrom_drop, hb, length_cons, Nat.add_sub_cancel, drop_left]
      exact ih'
    · rw [if_neg hs, filter_cons_of_pos (by simp [hs]), encodeRunes_cons, hb]
      show b :: removeSpacesFrom 0 _ = _
      rw [removeSpaces_inner tail _ htail]
      exact congrArg (fun x => b :: (tail ++ x)) ih'

theorem isBlank_inner {c : UInt8} (s : Bytes) (h : Inner c) : isBlank (c :: s) = false := by
  rw [isBlank, dropSpaces, spaceSize_inner s h]
  rfl

theorem trimRight_inner {tail s : Bytes} (htail : ∀ c ∈ tail, Inner c) :
    trimRight (tail ++ s) = tail ++ trimRight s := by
  induction tail with
  | nil => rfl
  | cons c tail ih =>
    rw [cons_append, trimRight, isBlank_inner _ (htail c mem_cons_self)]
    exact congrArg (c :: ·) (ih (forall_mem_cons.mp htail).2)

theorem trimRight_encodeRunes (h : ∀ r ∈ l, IsScalar r) :
    ∃ m b, l = m ++ b ∧ (∀ r ∈ b, isSpaceRune r = true) ∧
      trimRight (encodeRunes l) = encodeRunes m := by
  induction l with
  | nil => exact ⟨[], [], rfl, by simp, rfl⟩
  | cons r l ih =>
    obtain ⟨m, b, hl, hb, htrim⟩ := ih (forall_mem_cons.mp h).2
    obtain ⟨c, tail, hc, hbytes, -, htail⟩ := encodeRunes_split r l (h r mem_cons_self)
    cases hblank : isBlank (encodeRunes (r :: l)) with
    | true =>
      refine ⟨[], r :: l, rfl, ?_, ?_⟩
      · -- Nothing is left once white space is dropped, so there was nothing else.
        rw [isBlank, dropSpaces_encodeRunes _ h, List.isEmpty_iff] at hblank
        have hnil : (r :: l).dropWhile isSpaceRune = [] := by
          have := congrArg runes hblank
          rwa [runes_encodeRunes _ (fun x hx => h x (dropWhile_subset _ hx))] at this
        exact dropWhile_eq_nil_iff.mp hnil
      · rw [hbytes] at hblank ⊢
        rw [trimRight, hblank]
        rfl
    | false =>
      refine ⟨r :: m, b, by rw [hl, cons_append], hb, ?_⟩
      rw [hbytes] at hblank ⊢
      rw [trimRight, hblank, encodeRunes_cons, hc, ← htrim]
      exact congrArg (c :: ·) (trimRight_inner htail)

/-- `strings.TrimSpace` removes white space runes before and after. -/
theorem trimSpace_encodeRunes (h : ∀ r ∈ l, IsScalar r) :
    ∃ a m b, l = a ++ m ++ b ∧ (∀ r ∈ a, isSpaceRune r = true) ∧
      (∀ r ∈ b, isSpaceRune r = true) ∧ trimSpace (encodeRunes l) = encodeRunes m := by
  obtain ⟨m, b, hm, hb, htrim⟩ := trimRight_encodeRunes (l.dropWhile isSpaceRune)
    (fun x hx => h x (dropWhile_subset _ hx))
  refine ⟨l.takeWhile isSpaceRune, m, b, ?_, fun x hx => mem_takeWhile_imp hx, hb, ?_⟩
  · rw [append_assoc, ← hm, takeWhile_append_dropWhile]
  · rw [trimSpace, dropSpaces_encodeRunes l h, htrim]

end ByteText
