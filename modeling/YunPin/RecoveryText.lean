import YunPin.RecoveryKey

/-! The case of a recovery key. Besides the ASCII letters, two characters have an ASCII letter
as lower case: U+0130, which goes to a letter outside the character set, and the Kelvin sign
U+212A. -/
namespace YunPin
open ByteText List

/-- What the case tables of the `unicode` package say of the characters that matter. -/
structure CaseMap.Laws (cases : CaseMap) : Prop where
  lower_ascii : ∀ r < 0x80, cases.lower r = if 65 ≤ r ∧ r ≤ 90 then r+32 else r
  upper_ascii : ∀ r < 0x80, cases.upper r = if 97 ≤ r ∧ r ≤ 122 then r-32 else r
  lower_to_ascii : ∀ r, 0x80 ≤ r → cases.lower r < 0x80 → r = 0x130 ∨ r = 0x212A
  lower_dotted : cases.lower 0x130 = 0x69
  lower_kelvin : cases.lower 0x212A = 0x6B
  upper_kelvin : cases.upper 0x212A = 0x212A
  upper_scalar : ∀ r, IsScalar r → IsScalar (cases.upper r)

def asciiUpper (s : Bytes) : Bytes := s.map (fun c => if 97 ≤ c ∧ c ≤ 122 then c-32 else c)

def foldKelvin (r : ℕ) : ℕ := if r = 0x212A then 75 else r

def lowerByte (r : ℕ) : UInt8 := UInt8.ofNat (if 65 ≤ r ∧ r ≤ 90 then r+32 else r)

theorem recoveryBytes_facts : ∀ b ∈ recoveryHRP ++ [49] ++ bech32Charset,
    b.toNat < 0x80 ∧ ¬(65 ≤ b.toNat ∧ b.toNat ≤ 90) ∧ b.toNat ≠ 0x69 ∧
      (if 97 ≤ b ∧ b ≤ 122 then b-32 else b).toNat =
        (if 97 ≤ b.toNat ∧ b.toNat ≤ 122 then b.toNat-32 else b.toNat) ∧
      lowerByte (if 97 ≤ b ∧ b ≤ 122 then b-32 else b).toNat = b := by decide +kernel

section Case
variable {cases : CaseMap} (laws : cases.Laws)
include laws

theorem foldKelvin_of_lower {r : ℕ} {b : UInt8} (hb : b ∈ recoveryHRP ++ [49] ++ bech32Charset)
    (hupper : cases.upper r = r) (hlow : cases.lower r < 0x80)
    (hlower : UInt8.ofNat (cases.lower r) = b) :
    foldKelvin r = (if 97 ≤ b ∧ b ≤ 122 then b-32 else b).toNat := by
  obtain ⟨-, hcase, hdotted, hup, -⟩ := recoveryBytes_facts b hb
  have hlower' : cases.lower r = b.toNat := by rw [← hlower, toNat_byte _ (by omega)]
  rw [hup, foldKelvin]
  by_cases hr : r < 0x80
  · rw [laws.upper_ascii r hr] at hupper
    rw [laws.lower_ascii r hr] at hlower'
    split_ifs at hupper hlower' ⊢ <;> omega
  · rcases laws.lower_to_ascii r (by omega) hlow with rfl | rfl
    · rw [laws.lower_dotted] at hlower'
      exact absurd hlower'.symm hdotted
    · rw [laws.lower_kelvin] at hlower'
      simp [← hlower']

theorem case_of_foldKelvin (r : ℕ) (hascii : foldKelvin r < 0x80)
    (hletter : ¬(97 ≤ foldKelvin r ∧ foldKelvin r ≤ 122)) :
    IsScalar r ∧ cases.upper r = r ∧ cases.lower r < 0x80 ∧
      UInt8.ofNat (cases.lower r) = lowerByte (foldKelvin r) := by
  by_cases hr : r = 0x212A
  · subst hr
    exact ⟨.inl (by decide), laws.upper_kelvin, by rw [laws.lower_kelvin]; decide,
      by rw [laws.lower_kelvin]; rfl⟩
  · rw [foldKelvin, if_neg hr] at hascii hletter ⊢
    refine ⟨.inl (by omega), ?_, ?_, ?_⟩
    · rw [laws.upper_ascii r hascii, if_neg hletter]
    · rw [laws.lower_ascii r hascii]
      split_ifs <;> omega
    · rw [laws.lower_ascii r hascii]
      rfl

theorem upper_case_iff (s text : Bytes)
    (htext : ∀ b ∈ text, b ∈ recoveryHRP ++ [49] ++ bech32Charset) :
    s = mapRunes cases.upper s ∧ mapRunes cases.lower s = text ↔
      ∃ rs, s = encodeRunes rs ∧ rs.map foldKelvin = (asciiUpper text).map UInt8.toNat := by
  constructor
  · rintro ⟨hupper, rfl⟩
    have hscalar : ∀ r ∈ (runes s).map cases.upper, IsScalar r := by
      intro r hr
      obtain ⟨x, hx, rfl⟩ := mem_map.mp hr
      exact laws.upper_scalar x (runes_scalar s x hx)
    have hfix : (runes s).map cases.upper = runes s := by
      conv_rhs => rw [hupper]
      exact (runes_encodeRunes _ hscalar).symm
    have hpoint : ∀ r ∈ runes s, cases.upper r = r := by
      intro r hr
      exact (map_eq_map_iff.mp (hfix.trans (map_id (runes s)).symm)) r hr
    have hascii : ∀ b ∈ mapRunes cases.lower s, b < 0x80 := fun b hb =>
      UInt8.lt_iff_toNat_lt.mpr (recoveryBytes_facts b (htext b hb)).1
    obtain ⟨hlow, hmap⟩ := ascii_of_mapRunes cases.lower hascii
    refine ⟨runes s, ?_, ?_⟩
    · conv_lhs => rw [hupper, mapRunes, hfix]
    · rw [hmap, asciiUpper, map_map, map_map]
      apply map_congr_left
      intro r hr
      have hb : UInt8.ofNat (cases.lower r) ∈ mapRunes cases.lower s := by
        rw [hmap]
        exact mem_map_of_mem hr
      exact foldKelvin_of_lower laws (htext _ hb) (hpoint r hr) (hlow r hr) rfl
  · rintro ⟨rs, rfl, hfold⟩
    have hpoint : ∀ r ∈ rs, IsScalar r ∧ cases.upper r = r ∧ cases.lower r < 0x80 ∧
        UInt8.ofNat (cases.lower r) = lowerByte (foldKelvin r) := by
      intro r hr
      have hmem : foldKelvin r ∈ (asciiUpper text).map UInt8.toNat :=
        hfold ▸ mem_map_of_mem hr
      obtain ⟨c, hc, he⟩ := mem_map.mp hmem
      obtain ⟨b, hb, rfl⟩ := mem_map.mp hc
      obtain ⟨hlt, hcase, -, hup, -⟩ := recoveryBytes_facts b (htext b hb)
      rw [hup] at he
      apply case_of_foldKelvin laws r <;> rw [← he] <;> split_ifs <;> omega
    have hrunes : runes (encodeRunes rs) = rs := runes_encodeRunes rs (fun r hr => (hpoint r hr).1)
    constructor
    · rw [mapRunes, hrunes]
      exact congrArg _ (map_fixed (fun r hr => (hpoint r hr).2.1)).symm
    · calc mapRunes cases.lower (encodeRunes rs)
          = rs.map (fun r => UInt8.ofNat (cases.lower r)) := by
            rw [mapRunes, hrunes, encodeRunes_ascii, map_map]
            · rfl
            · intro r hr
              obtain ⟨x, hx, rfl⟩ := mem_map.mp hr
              exact (hpoint x hx).2.2.1
        _ = (rs.map foldKelvin).map lowerByte := by
            rw [map_map]
            apply map_congr_left
            intro r hr
            exact (hpoint r hr).2.2.2
        _ = text := by
            rw [hfold, asciiUpper, map_map, map_map]
            exact map_fixed (fun b hb => (recoveryBytes_facts b (htext b hb)).2.2.2.2)

theorem mapRunes_lower_text {text : Bytes}
    (htext : ∀ b ∈ text, b ∈ recoveryHRP ++ [49] ++ bech32Charset) :
    mapRunes cases.lower text = text := by
  have hascii : ∀ b ∈ text, b < 0x80 := fun b hb =>
    UInt8.lt_iff_toNat_lt.mpr (recoveryBytes_facts b (htext b hb)).1
  have hfix : (text.map UInt8.toNat).map cases.lower = text.map UInt8.toNat := by
    rw [map_map]
    apply map_congr_left
    intro b hb
    obtain ⟨hlt, hcase, -⟩ := recoveryBytes_facts b (htext b hb)
    show cases.lower b.toNat = b.toNat
    rw [laws.lower_ascii _ hlt, if_neg hcase]
  rw [mapRunes, runes_ascii text hascii, hfix, encodeRunes_ascii, map_map]
  · simp [Function.comp_def]
  · intro r hr
    obtain ⟨b, hb, rfl⟩ := mem_map.mp hr
    exact (recoveryBytes_facts b (htext b hb)).1

/-- The texts that are read as a key: the encoder's, and its upper-case form, in which a
Kelvin sign may stand for a K. -/
theorem decodeRecoveryKey_ok_iff (s key : Bytes) : decodeRecoveryKey cases s = .ok key ↔
    ∃ text, encodeRecoveryKey key = .ok text ∧
      (s = text ∨ ∃ rs, s = encodeRunes rs ∧
        rs.map foldKelvin = (asciiUpper text).map UInt8.toNat) := by
  have hbytes (text : Bytes) (h : encodeRecoveryKey key = .ok text) :
      ∀ b ∈ text, b ∈ recoveryHRP ++ [49] ++ bech32Charset := by
    obtain ⟨values, rfl, hall, -⟩ := encodeRecoveryKey_shape key text h
    exact mem_recoveryText hall
  rw [decodeRecoveryKey]
  constructor
  · intro h
    split_ifs at h with hmixed
    have hencode := (decodeRecoveryText_ok_iff _ key).mp h
    refine ⟨_, hencode, ?_⟩
    by_cases hlower : s = mapRunes cases.lower s
    · exact .inl hlower
    · have hupper : s = mapRunes cases.upper s := by
        by_contra hne
        exact hmixed ⟨hlower, hne⟩
      exact .inr ((upper_case_iff laws s _ (hbytes _ hencode)).mp ⟨hupper, rfl⟩)
  · rintro ⟨text, hencode, hs⟩
    have hcase : (s = mapRunes cases.lower s ∨ s = mapRunes cases.upper s) ∧
        mapRunes cases.lower s = text := by
      rcases hs with rfl | hs
      · have hlower := mapRunes_lower_text laws (hbytes s hencode)
        exact ⟨.inl hlower.symm, hlower⟩
      · obtain ⟨hupper, hlower⟩ := (upper_case_iff laws s text (hbytes text hencode)).mpr hs
        exact ⟨.inr hupper, hlower⟩
    rw [if_neg (by rintro ⟨h1, h2⟩; exact hcase.1.elim h1 h2), hcase.2]
    exact (decodeRecoveryText_ok_iff text key).mpr hencode

end Case

/-- The upper-case form of a text, with a Kelvin sign for one K or more. -/
def KelvinForm (s text : Bytes) : Prop :=
  ∃ rs, s = encodeRunes rs ∧ 0x212A ∈ rs ∧ rs.map foldKelvin = (asciiUpper text).map UInt8.toNat

theorem encodeRecoveryKey_ascii {key text : Bytes} (h : encodeRecoveryKey key = .ok text) :
    ∀ b, b ∈ text ∨ b ∈ asciiUpper text → b < 0x80 := by
  obtain ⟨values, rfl, hall, -⟩ := encodeRecoveryKey_shape key text h
  rintro b (hb | hb)
  · exact UInt8.lt_iff_toNat_lt.mpr (recoveryBytes_facts b (mem_recoveryText hall b hb)).1
  · obtain ⟨c, hc, rfl⟩ := mem_map.mp hb
    obtain ⟨hlt, -, -, hup, -⟩ := recoveryBytes_facts c (mem_recoveryText hall c hc)
    apply UInt8.lt_iff_toNat_lt.mpr
    rw [hup]
    show _ < 0x80
    split_ifs <;> omega

theorem encodeRunes_fold_iff (s text : Bytes) (hascii : ∀ b ∈ asciiUpper text, b < 0x80) :
    (∃ rs, s = encodeRunes rs ∧ rs.map foldKelvin = (asciiUpper text).map UInt8.toNat) ↔
      s = asciiUpper text ∨ KelvinForm s text := by
  have hlow : ∀ r ∈ (asciiUpper text).map UInt8.toNat, r < 0x80 := by
    intro r hr
    obtain ⟨b, hb, rfl⟩ := mem_map.mp hr
    exact UInt8.lt_iff_toNat_lt.mp (hascii b hb)
  have hencode : encodeRunes ((asciiUpper text).map UInt8.toNat) = asciiUpper text := by
    rw [encodeRunes_ascii _ hlow, map_map]
    simp [Function.comp_def]
  constructor
  · rintro ⟨rs, rfl, hfold⟩
    by_cases hkelvin : 0x212A ∈ rs
    · exact .inr ⟨rs, rfl, hkelvin, hfold⟩
    · have hid : rs.map foldKelvin = rs :=
        map_fixed (fun r hr => if_neg (fun h => hkelvin (by rwa [← h])))
      left
      rw [← hid, hfold, hencode]
  · rintro (rfl | ⟨rs, hs, -, hfold⟩)
    · refine ⟨_, hencode.symm, map_fixed (fun r hr => ?_)⟩
      have := hlow r hr
      exact if_neg (by omega)
    · exact ⟨rs, hs, hfold⟩

/-- A text with a Kelvin sign is not ASCII. -/
theorem KelvinForm.not_ascii {s text : Bytes} (h : KelvinForm s text)
    (hascii : ∀ b ∈ asciiUpper text, b < 0x80) : ¬∀ b ∈ s, b < 0x80 := by
  obtain ⟨rs, rfl, hkelvin, hfold⟩ := h
  have hscalar : ∀ r ∈ rs, IsScalar r := by
    intro r hr
    obtain ⟨b, hb, hr'⟩ := mem_map.mp (hfold ▸ mem_map_of_mem hr : foldKelvin r ∈ _)
    have hlt : b.toNat < 0x80 := UInt8.lt_iff_toNat_lt.mp (hascii b hb)
    rw [hr', foldKelvin] at hlt
    split_ifs at hlt with h <;> exact .inl (by omega)
  intro hall
  have hrunes := runes_ascii _ hall
  rw [runes_encodeRunes rs hscalar] at hrunes
  rw [hrunes] at hkelvin
  obtain ⟨b, -, he⟩ := mem_map.mp hkelvin
  have := b.toNat_lt
  omega

/-- Recovery-key text is canonical exactly for the strings that are not the upper-case form of
a key's text with a Kelvin sign. -/
theorem recovery_text_canonical (cases : CaseMap) (laws : cases.Laws) :
    (∀ key : Bytes, key.length = 32 →
      ∃ text, encodeRecoveryKey key = .ok text ∧ decodeRecoveryKey cases text = .ok key) ∧
    ∀ s : Bytes, (∀ key, decodeRecoveryKey cases s = .ok key ↔
        ∃ text, encodeRecoveryKey key = .ok text ∧ (s = text ∨ s = asciiUpper text)) ↔
      ¬∃ key text, encodeRecoveryKey key = .ok text ∧ KelvinForm s text := by
  have hdecode (s key : Bytes) : decodeRecoveryKey cases s = .ok key ↔ ∃ text,
      encodeRecoveryKey key = .ok text ∧ (s = text ∨ s = asciiUpper text ∨ KelvinForm s text) := by
    rw [decodeRecoveryKey_ok_iff laws]
    apply exists_congr
    intro text
    apply and_congr_right
    intro hencode
    rw [encodeRunes_fold_iff s text fun b hb => encodeRecoveryKey_ascii hencode b (.inr hb)]
  refine ⟨?_, fun s => ⟨?_, ?_⟩⟩
  · intro key hlen
    obtain ⟨data, hdata, -⟩ :=
      convertBits_pad 8 5 (by decide) (by decide) (keyBytes_lt key)
    have hencode := (encodeRecoveryKey_ok_iff key _).mpr ⟨hlen, data, hdata, rfl⟩
    exact ⟨_, hencode, (hdecode _ key).mpr ⟨_, hencode, .inl rfl⟩⟩
  · rintro h ⟨key, text, hencode, hkelvin⟩
    obtain ⟨text', hencode', hs⟩ :=
      (h key).mp ((hdecode s key).mpr ⟨text, hencode, .inr (.inr hkelvin)⟩)
    refine hkelvin.not_ascii (fun b hb => encodeRecoveryKey_ascii hencode b (.inr hb)) ?_
    intro b hb
    rcases hs with rfl | rfl
    · exact encodeRecoveryKey_ascii hencode' b (.inl hb)
    · exact encodeRecoveryKey_ascii hencode' b (.inr hb)
  · intro hno key
    rw [hdecode]
    apply exists_congr
    intro text
    apply and_congr_right
    intro hencode
    rw [or_iff_left (fun hkelvin => hno ⟨key, text, hencode, hkelvin⟩)]

def sampleCaseMap : CaseMap where
  lower r := if 65 ≤ r ∧ r ≤ 90 then r+32 else if r = 0x130 then 0x69
    else if r = 0x212A then 0x6B else r
  upper r := if 97 ≤ r ∧ r ≤ 122 then r-32 else r

theorem sampleCaseMap_laws : sampleCaseMap.Laws where
  lower_ascii r hr := by
    show (if 65 ≤ r ∧ r ≤ 90 then r+32 else if r = 0x130 then 0x69
      else if r = 0x212A then 0x6B else r) = if 65 ≤ r ∧ r ≤ 90 then r+32 else r
    split_ifs <;> omega
  upper_ascii r hr := rfl
  lower_to_ascii r hr hlow := by
    have hlow' : (if 65 ≤ r ∧ r ≤ 90 then r+32 else if r = 0x130 then 0x69
      else if r = 0x212A then 0x6B else r) < 0x80 := hlow
    split_ifs at hlow' <;> omega
  lower_dotted := rfl
  lower_kelvin := rfl
  upper_kelvin := rfl
  upper_scalar r hr := by
    have hr' : r < 0xD800 ∨ (0xE000 ≤ r ∧ r ≤ 0x10FFFF) := hr
    show IsScalar (if 97 ≤ r ∧ r ≤ 122 then r-32 else r)
    split_ifs
    · exact .inl (by omega)
    · exact hr

def kelvinKey : Bytes := 176 :: List.replicate 31 0

def kelvinRunes : List ℕ := (lit "YPREC1").map UInt8.toNat ++
  0x212A :: (lit "QQQQQQQQQQQQQQQQQQQQQQQQQQQQQQQQQQQQQQQQQQQQQQQQQQQ3XHYZ9").map UInt8.toNat

def kelvinText : Bytes := lit "yprec1kqqqqqqqqqqqqqqqqqqqqqqqqqqqqqqqqqqqqqqqqqqqqqqqqqqq3xhyz9"

theorem encodeRecoveryKey_kelvinKey : encodeRecoveryKey kelvinKey = .ok kelvinText := by
  decide +kernel

/-- The upper-case text of a key is read, since it has no Kelvin sign. -/
theorem recovery_text_canonical_sample :
    (∃ text, encodeRecoveryKey kelvinKey = .ok text ∧
      decodeRecoveryKey sampleCaseMap text = .ok kelvinKey) ∧
    decodeRecoveryKey sampleCaseMap (asciiUpper kelvinText) = .ok kelvinKey := by
  have h := recovery_text_canonical sampleCaseMap sampleCaseMap_laws
  refine ⟨h.1 kelvinKey (by decide), ((h.2 _).mpr ?_ kelvinKey).mpr
    ⟨_, encodeRecoveryKey_kelvinKey, .inr rfl⟩⟩
  rintro ⟨key, text, hencode, hkelvin⟩
  exact hkelvin.not_ascii (fun b hb => encodeRecoveryKey_ascii hencode b (.inr hb))
    (by decide +kernel)

/-- Under every lawful case table the upper-case text with a Kelvin sign for its first K is
read as the key. -/
theorem recovery_text_kelvin : ∃ s key : Bytes, ∀ cases : CaseMap, cases.Laws →
    decodeRecoveryKey cases s = .ok key ∧
      ¬∃ text, encodeRecoveryKey key = .ok text ∧ (s = text ∨ s = asciiUpper text) := by
  have hkelvin : encodeRunes kelvinRunes ≠ kelvinText ∧
      encodeRunes kelvinRunes ≠ asciiUpper kelvinText := by
    decide +kernel
  refine ⟨encodeRunes kelvinRunes, kelvinKey, fun cases laws => ⟨?_, ?_⟩⟩
  · exact (decodeRecoveryKey_ok_iff laws _ _).mpr
      ⟨_, encodeRecoveryKey_kelvinKey, Or.inr ⟨kelvinRunes, rfl, by decide⟩⟩
  · rintro ⟨text, htext, hs⟩
    obtain rfl := Except.ok.inj (encodeRecoveryKey_kelvinKey.symm.trans htext)
    exact hs.elim hkelvin.1 hkelvin.2

end YunPin
