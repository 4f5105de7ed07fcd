import YunPin.JsonText

/-! A reader of JSON text does not change its mind: what it has read stays read when more text
follows. So a text of an object that is cut off holds no value, nor do two of them in a row. -/
namespace JsonText
open ByteText List Option

variable {tail : Bytes}

theorem skipSpace_append {p : Bytes} {c : UInt8} (h : skipSpace p = c :: tail) (s : Bytes) :
    skipSpace (p ++ s) = c :: (tail ++ s) := by
  rw [skipSpace] at h ⊢
  rw [dropWhile_append, h]
  rfl

theorem readKey_append (p key rest s : Bytes) (h : readKey p = some (key, rest)) :
    readKey (p ++ s) = some (key, rest ++ s) := by
  rw [readKey] at h ⊢
  split at h
  · cases h
  rename_i c tail hp
  simp only [skipSpace_append hp s]
  split_ifs at h ⊢
  split at h
  · cases h
  rename_i key' after hread
  rw [readString_append key' after s hread]
  split at h
  · cases h
  rename_i d rest' hr
  simp only [skipSpace_append hr s]
  split_ifs at h ⊢
  cases h
  rfl

/-- A number has no end of its own: more digits after it would belong to it. -/
def IsNumeral : Value → Prop
  | .number _ => True
  | _ => False

variable {v : Value}

theorem readWord_append {word : Bytes} {p s : Bytes} {r : Value × Bytes}
    (h : readWord word v p = some r) : readWord word v (p ++ s) = some (r.1, r.2 ++ s) := by
  rw [readWord] at h ⊢
  split_ifs at h with hword
  cases h
  obtain ⟨t, rfl⟩ := isPrefixOf_iff_prefix.mp hword
  rw [if_pos ( isPrefixOf_iff_prefix.mpr ⟨t ++ s, (append_assoc ..).symm⟩),
    append_assoc, drop_left, drop_left]

theorem readScalar_append {p s : Bytes} {rest : Bytes} (h : readScalar p = some (v, rest))
    (hend : rest ≠ [] ∨ ¬IsNumeral v) : readScalar (p ++ s) = some (v, rest ++ s) := by
  cases p with
  | nil => cases h
  | cons c tail =>
    rw [readScalar] at h
    rw [cons_append, readScalar]
    split_ifs at h ⊢ with hquote htrue hfalse hnull
    · obtain ⟨r, hr, heq⟩ := map_eq_some_iff.mp h
      cases heq
      rw [readString_append r.1 r.2 s hr]
      rfl
    · exact readWord_append h
    · exact readWord_append h
    · exact readWord_append h
    · rw [readNumber] at h
      split_ifs at h with hnumber
      cases h
      have hrest := hend.resolve_right (fun hnot => hnot trivial)
      have htake : ((c :: tail) ++ s).takeWhile isNumberByte = (c :: tail).takeWhile isNumberByte ∧
          ((c :: tail) ++ s).dropWhile isNumberByte = (c :: tail).dropWhile isNumberByte ++ s := by
        have hlen := congrArg List.length
          (takeWhile_append_dropWhile (p := isNumberByte) (l := c :: tail))
        rw [length_append] at hlen
        have hpos := length_pos_of_ne_nil hrest
        rw [takeWhile_append, if_neg (by omega), dropWhile_append,
          if_neg (by rw [List.isEmpty_iff]; exact hrest)]
        exact ⟨rfl, rfl⟩
      rw [← cons_append, readNumber, htake.1, htake.2, if_pos hnumber]

/-- What was read is read again, with any more fuel, when text is added; a number must not
have been the last thing read. -/
theorem read_append (n : ℕ) :
    (∀ m p v rest s, n ≤ m → readValue n p = some (v, rest) → (rest ≠ [] ∨ ¬IsNumeral v) →
      readValue m (p ++ s) = some (v, rest ++ s)) ∧
    (∀ m p vs rest s, n ≤ m → readElements n p = some (vs, rest) →
      readElements m (p ++ s) = some (vs, rest ++ s)) ∧
    (∀ m p ms rest s, n ≤ m → readMembers n p = some (ms, rest) →
      readMembers m (p ++ s) = some (ms, rest ++ s)) := by
  induction n with
  | zero => simp [readValue, readElements, readMembers]
  | succ n ih =>
    obtain ⟨ihvalue, ihelements, ihmembers⟩ := ih
    -- a delimiter follows an element, so the element cannot grow
    have hdelimited (m : ℕ) (p : Bytes) (v : Value) (rest : Bytes) (c : UInt8) (after s : Bytes)
        (hm : n ≤ m) (hv : readValue n p = some (v, rest)) (hr : skipSpace rest = c :: after) :
        readValue m (p ++ s) = some (v, rest ++ s) := by
      apply ihvalue m p v rest s hm hv (.inl _)
      rintro rfl
      cases hr
    refine ⟨fun m p v rest s hm h hend => ?_, fun m p vs rest s hm h => ?_,
      fun m p ms rest s hm h => ?_⟩ <;>
      obtain ⟨m, rfl⟩ := Nat.exists_eq_succ_of_ne_zero (show m ≠ 0 by omega)
    · rw [readValue] at h ⊢
      split at h
      · cases h
      rename_i c tail hp
      rw [skipSpace_append hp s]
      dsimp only
      split_ifs at h ⊢
      · split at h
        · cases h
        rename_i d after hin
        simp only [skipSpace_append hin s]
        split_ifs at h ⊢
        · cases h
          rfl
        · obtain ⟨r, hr, heq⟩ := map_eq_some_iff.mp h
          cases heq
          rw [← cons_append, ihelements m (d :: after) r.1 r.2 s (by omega) hr]
          rfl
      · split at h
        · cases h
        rename_i d after hin
        simp only [skipSpace_append hin s]
        split_ifs at h ⊢
        · cases h
          rfl
        · obtain ⟨r, hr, heq⟩ := map_eq_some_iff.mp h
          cases heq
          rw [← cons_append, ihmembers m (d :: after) r.1 r.2 s (by omega) hr]
          rfl
      · exact readScalar_append h hend
    · rw [readElements] at h ⊢
      split at h
      · cases h
      rename_i v after hv
      split at h
      · cases h
      rename_i c tail hr
      rw [hdelimited m p v after c tail s (by omega) hv hr]
      simp only [skipSpace_append hr s]
      split_ifs at h ⊢
      · obtain ⟨q, hq, heq⟩ := map_eq_some_iff.mp h
        cases heq
        rw [ihelements m tail q.1 q.2 s (by omega) hq]
        rfl
      · cases h
        rfl
    · rw [readMembers] at h ⊢
      split at h
      · cases h
      rename_i key text hkey
      rw [readKey_append p key text s hkey]
      split at h
      · cases h
      rename_i v after hv
      split at h
      · cases h
      rename_i c tail hr
      simp only [hdelimited m text v after c tail s (by omega) hv hr, skipSpace_append hr s]
      split_ifs at h ⊢
      · obtain ⟨q, hq, heq⟩ := map_eq_some_iff.mp h
        cases heq
        rw [ihmembers m tail q.1 q.2 s (by omega) hq]
        rfl
      · cases h
        rfl

theorem readValue_object {n : ℕ} {rest : Bytes} (h : readValue n (0x7B :: tail) = some (v, rest)) :
    ¬IsNumeral v := by
  cases n with
  | zero => simp [readValue] at h
  | succ n =>
    rw [readValue, skipSpace_cons _ _ (by decide)] at h
    simp only [if_neg (show (0x7B : UInt8) ≠ 0x5B by decide), if_true] at h
    split at h
    · cases h
    split_ifs at h
    · cases h
      exact not_false
    · obtain ⟨r, -, heq⟩ := map_eq_some_iff.mp h
      cases heq
      exact not_false

/-- A proper initial part of the text of an object holds no value. -/
theorem decodeOne_take (h : Denotes (0x7B :: tail) v) {k : ℕ} (hk : k < (0x7B :: tail).length) :
    decodeOne ((0x7B :: tail).take k) = none := by
  cases k with
  | zero => rfl
  | succ j =>
    by_contra hsome
    obtain ⟨w, hw⟩ := ne_none_iff_exists'.mp hsome
    rw [take_succ_cons, decodeOne] at hw
    cases hread : readValue (0x7B :: tail.take j).length (0x7B :: tail.take j) with
    | none =>
      rw [hread] at hw
      cases hw
    | some r =>
      have hnumeral := readValue_object hread
      have hlen : (0x7B :: tail.take j).length ≤ (0x7B :: tail).length := by
        rw [length_cons, length_cons, length_take]
        omega
      -- with the rest of the text the reader would still stop where it stopped
      have hmore := (read_append _).1 (0x7B :: tail).length _ r.1 r.2 (tail.drop j) hlen hread
        (.inr hnumeral)
      rw [cons_append, take_append_drop] at hmore
      have hwhole := h.reads (0x7B :: tail).length [] le_rfl (fun c hc => by cases hc)
      rw [append_nil] at hwhole
      have hnil : r.2 ++ tail.drop j = [] :=
        congrArg Prod.snd (some_inj.mp (hmore.symm.trans hwhole))
      have hdrop := (append_eq_nil_iff.mp hnil).2
      rw [drop_eq_nil_iff] at hdrop
      rw [length_cons] at hk
      omega

theorem decodeOne_twice {text other : Bytes} (h : Denotes text v)
    (hother : other.head? = some 0x7B) : decodeOne (text ++ other) = none := by
  cases other with
  | nil => cases hother
  | cons c other =>
    cases hother
    have hread := h.reads (text ++ 0x7B :: other).length (0x7B :: other) (by
      rw [length_append]
      omega) (fun c hc => by cases hc; decide)
    rw [decodeOne, hread]
    dsimp only
    rw [skipSpace_cons _ _ (by decide)]
    exact if_neg (cons_ne_nil _ _)

end JsonText
