import Mathlib

/-! Byte strings as a Go program holds them: compared byte by byte, not
necessarily well-formed UTF-8, together with the textual encodings of the
standard library (UTF-8 repair, white space, hexadecimal, unpadded base64url). -/
namespace ByteText
open List

abbrev Bytes := List UInt8

instance linearOrderUInt8 : LinearOrder UInt8 where
  le_refl _ := UInt8.le_refl _
  le_trans _ _ _ := UInt8.le_trans
  lt_iff_le_not_ge a b := by
    rw [UInt8.lt_iff_toNat_lt, UInt8.le_iff_toNat_le, UInt8.le_iff_toNat_le]
    omega
  le_antisymm _ _ := UInt8.le_antisymm
  le_total := UInt8.le_total
  toDecidableLE := inferInstance
  toDecidableLT := inferInstance
  toDecidableEq := inferInstance

instance lawfulBEqByte : LawfulBEq UInt8 := inferInstance

instance lawfulBEqBytes : LawfulBEq (List UInt8) := inferInstance

/-- What holds of every byte can be found out by trying them. -/
instance decidableForallByte (p : UInt8 → Prop) [DecidablePred p] : Decidable (∀ b, p b) :=
  decidable_of_iff (∀ n : Fin 256, p (UInt8.ofNat n.val))
    ⟨fun h b => by simpa using h ⟨b.toNat, b.toNat_lt⟩, fun h n => h _⟩

theorem toNat_byte (n : ℕ) (h : n < 256) : (UInt8.ofNat n).toNat = n := by
  rw [UInt8.toNat_ofNat', Nat.mod_eq_of_lt h]

theorem byte_eq {n : ℕ} (b : UInt8) (h : n = b.toNat) : UInt8.ofNat n = b := by
  rw [h, UInt8.ofNat_toNat]

theorem map_fixed {α : Type*} {f : α → α} {l : List α} (h : ∀ a ∈ l, f a = a) : l.map f = l :=
  (map_congr_left h).trans (map_id l)

def lit (s : String) : Bytes := s.toUTF8.data.toList

def asciiText (b : Bytes) : String := String.ofList (b.map (fun c => Char.ofNat c.toNat))

/-! UTF-8. A scan keeps the number of bytes still owed to the current rune, so
every function below is a plain recursion over the bytes. -/

def isCont (b : UInt8) : Bool := decide (0x80 ≤ b) && decide (b ≤ 0xBF)

def runeNeed (b : UInt8) : Option ℕ :=
  if b < 0x80 then some 1
  else if b < 0xC2 then none
  else if b < 0xE0 then some 2
  else if b < 0xF0 then some 3
  else if b < 0xF5 then some 4
  else none

/-- The continuation bytes after `b`: no overlong form, no surrogate, nothing
above U+10FFFF. -/
def tailOk (b : UInt8) : Bytes → Bool
  | [] => true
  | c :: cs =>
    (b != 0xE0 || decide (0xA0 ≤ c)) && (b != 0xED || decide (c ≤ 0x9F)) &&
    (b != 0xF0 || decide (0x90 ≤ c)) && (b != 0xF4 || decide (c ≤ 0x8F)) &&
    (c :: cs).all isCont

def runeSize (b : UInt8) (rest : Bytes) : Option ℕ :=
  match runeNeed b with
  | none => none
  | some n => if (rest.take (n-1)).length = n-1 ∧ tailOk b (rest.take (n-1)) then some n else none

def validFrom : ℕ → Bytes → Bool
  | 0, [] => true
  | _+1, [] => false
  | k+1, _ :: rest => validFrom k rest
  | 0, b :: rest =>
    match runeSize b rest with
    | some n => validFrom (n-1) rest
    | none => false

def validUTF8 (s : Bytes) : Bool := validFrom 0 s

def repairFrom : ℕ → Bytes → Bytes
  | _, [] => []
  | k+1, b :: rest => b :: repairFrom k rest
  | 0, b :: rest =>
    match runeSize b rest with
    | some n => b :: repairFrom (n-1) rest
    | none => 0xEF :: 0xBF :: 0xBD :: repairFrom 0 rest

/-- What `encoding/json` keeps of a string: every byte that starts no rune is
replaced by U+FFFD. -/
def toValidUTF8 (s : Bytes) : Bytes := repairFrom 0 s

variable (k n : ℕ) (s bs : Bytes) (c : UInt8)

theorem repairFrom_of_valid (h : validFrom k s = true) : repairFrom k s = s := by
  induction s generalizing k with
  | nil => cases k <;> rfl
  | cons b rest ih =>
    cases k with
    | succ k => simp only [repairFrom, ih k h]
    | zero =>
      simp only [validFrom] at h
      simp only [repairFrom]
      split
      · rename_i n hn
        rw [hn] at h
        rw [ih _ h]
      · rename_i hn
        simp [hn] at h

theorem toValidUTF8_of_valid (h : validUTF8 s = true) : toValidUTF8 s = s :=
  repairFrom_of_valid 0 s h

theorem runeSize_facts {b : UInt8} {rest : Bytes} {n : ℕ} (h : runeSize b rest = some n) :
    runeNeed b = some n ∧ (rest.take (n-1)).length = n-1 ∧ tailOk b (rest.take (n-1)) = true := by
  unfold runeSize at h
  split at h
  · simp at h
  · rename_i m hm
    split_ifs at h with hc
    obtain rfl : m = n := Option.some.inj h
    exact ⟨hm, hc⟩

theorem runeSize_congr {b : UInt8} {s t : Bytes} {n : ℕ} (h : runeSize b s = some n)
    (he : t.take (n-1) = s.take (n-1)) : runeSize b t = some n := by
  obtain ⟨hn, hl, ht⟩ := runeSize_facts h
  unfold runeSize
  simp only [hn, he, hl, ht, and_self, if_true]

theorem repairFrom_take : (repairFrom k s).take k = s.take k := by
  induction s generalizing k with
  | nil => cases k <;> rfl
  | cons b rest ih =>
    cases k with
    | zero => rfl
    | succ k => simp only [repairFrom, take_succ_cons, ih k]

theorem validFrom_repairFrom (h : k ≤ s.length) : validFrom k (repairFrom k s) = true := by
  induction s generalizing k with
  | nil =>
    obtain rfl : k = 0 := by simpa using h
    rfl
  | cons b rest ih =>
    cases k with
    | succ k => exact ih k (by simpa using h)
    | zero =>
      simp only [repairFrom]
      split
      · rename_i n hn
        obtain ⟨_, hl, _⟩ := runeSize_facts hn
        have hle : n-1 ≤ rest.length := by
          rw [length_take] at hl
          omega
        have hs := runeSize_congr hn (repairFrom_take _ _)
        simp only [validFrom, hs]
        exact ih _ hle
      · have hfffd : runeSize 0xEF (0xBF :: 0xBD :: repairFrom 0 rest) = some 3 := by
          rfl
        simp only [validFrom, hfffd]
        exact ih 0 (by omega)

theorem validUTF8_toValidUTF8 : validUTF8 (toValidUTF8 s) = true :=
  validFrom_repairFrom 0 s (by omega)

theorem validUTF8_of_ascii (h : ∀ b ∈ s, b < 0x80) : validUTF8 s = true := by
  unfold validUTF8
  induction s with
  | nil => rfl
  | cons b rest ih =>
    have hb : runeSize b rest = some 1 := by
      simp [runeSize, runeNeed, h b mem_cons_self, tailOk]
    simp only [validFrom, hb]
    exact ih (forall_mem_cons.mp h).2

def spaceSize : Bytes → Option ℕ
  | 0xC2 :: c :: _ => if c = 0x85 ∨ c = 0xA0 then some 2 else none
  | 0xE1 :: 0x9A :: 0x80 :: _ => some 3
  | 0xE2 :: 0x80 :: c :: _ =>
    if (0x80 ≤ c ∧ c ≤ 0x8A) ∨ c = 0xA8 ∨ c = 0xA9 ∨ c = 0xAF then some 3 else none
  | 0xE2 :: 0x81 :: 0x9F :: _ => some 3
  | 0xE3 :: 0x80 :: 0x80 :: _ => some 3
  | b :: _ => if b = 0x20 ∨ (0x09 ≤ b ∧ b ≤ 0x0D) then some 1 else none
  | [] => none

def dropSpaces : ℕ → Bytes → Bytes
  | _, [] => []
  | k+1, _ :: rest => dropSpaces k rest
  | 0, b :: rest =>
    match spaceSize (b :: rest) with
    | some n => dropSpaces (n-1) rest
    | none => b :: rest

def isBlank (s : Bytes) : Bool := (dropSpaces 0 s).isEmpty

def trimRight : Bytes → Bytes
  | [] => []
  | b :: rest => if isBlank (b :: rest) then [] else b :: trimRight rest

def trimSpace (s : Bytes) : Bytes := trimRight (dropSpaces 0 s)

def removeSpacesFrom : ℕ → Bytes → Bytes
  | _, [] => []
  | k+1, _ :: rest => removeSpacesFrom k rest
  | 0, b :: rest =>
    match spaceSize (b :: rest) with
    | some n => removeSpacesFrom (n-1) rest
    | none => b :: removeSpacesFrom 0 rest

def joinFields (s : Bytes) : Bytes := removeSpacesFrom 0 s

def runeValue (b : UInt8) (rest : Bytes) (n : ℕ) : ℕ :=
  (rest.take (n-1)).foldl (fun v c => v*64+(c.toNat-0x80))
    (if n = 1 then b.toNat else if n = 2 then b.toNat-0xC0 else if n = 3 then b.toNat-0xE0
      else b.toNat-0xF0)

def runesFrom : ℕ → Bytes → List ℕ
  | _, [] => []
  | k+1, _ :: rest => runesFrom k rest
  | 0, b :: rest =>
    match runeSize b rest with
    | some n => runeValue b rest n :: runesFrom (n-1) rest
    | none => 0xFFFD :: runesFrom 0 rest

def runes (s : Bytes) : List ℕ := runesFrom 0 s

def replaceFrom (old new : Bytes) : ℕ → Bytes → Bytes
  | _, [] => []
  | k+1, _ :: rest => replaceFrom old new k rest
  | 0, b :: rest =>
    if old.isPrefixOf (b :: rest) then new ++ replaceFrom old new (old.length-1) rest
    else b :: replaceFrom old new 0 rest

def replaceAll (old new s : Bytes) : Bytes := replaceFrom old new 0 s

example : runes (lit "a’ü") = [0x61, 0x2019, 0xFC] := by decide

def hexDigit (n : ℕ) : UInt8 := UInt8.ofNat (if n < 10 then 48+n else 87+n)

def hexValue (c : UInt8) : Option ℕ :=
  if 48 ≤ c ∧ c ≤ 57 then some (c.toNat-48)
  else if 97 ≤ c ∧ c ≤ 102 then some (c.toNat-87)
  else if 65 ≤ c ∧ c ≤ 70 then some (c.toNat-55)
  else none

def hexEncode (bs : Bytes) : Bytes :=
  bs.flatMap (fun b => [hexDigit (b.toNat/16), hexDigit (b.toNat%16)])

def hexDecode : Bytes → Option Bytes
  | [] => some []
  | [_] => none
  | c :: d :: rest =>
    match hexValue c, hexValue d, hexDecode rest with
    | some hi, some lo, some bs => some (UInt8.ofNat (16*hi+lo) :: bs)
    | _, _, _ => none

theorem hexValue_hexDigit : ∀ n < 16, hexValue (hexDigit n) = some n := by decide

theorem hexDecode_hexEncode : hexDecode (hexEncode bs) = some bs := by
  induction bs with
  | nil => rfl
  | cons b bs ih =>
    have hb := b.toNat_lt
    have hhi := hexValue_hexDigit (b.toNat/16) (by omega)
    have hlo := hexValue_hexDigit (b.toNat%16) (by omega)
    have hbyte : UInt8.ofNat (16*(b.toNat/16)+b.toNat%16) = b := by
      rw [Nat.div_add_mod, UInt8.ofNat_toNat]
    change hexDecode (hexDigit (b.toNat/16) :: hexDigit (b.toNat%16) :: hexEncode bs) = _
    simp only [hexDecode, hhi, hlo, ih, hbyte]

theorem hexEncode_injective : Function.Injective hexEncode := by
  intro a b h
  have hd := congrArg hexDecode h
  simpa only [hexDecode_hexEncode, Option.some.injEq] using hd

theorem hexEncode_length : (hexEncode bs).length = 2*bs.length := by
  induction bs with
  | nil => rfl
  | cons b bs ih =>
    change (hexEncode bs).length+2 = _
    simp only [ih, length_cons]
    omega

theorem hexDigit_lower : ∀ n < 16, (48 ≤ hexDigit n ∧ hexDigit n ≤ 57) ∨
    (97 ≤ hexDigit n ∧ hexDigit n ≤ 102) := by decide

theorem hexEncode_lower (hc : c ∈ hexEncode bs) : (48 ≤ c ∧ c ≤ 57) ∨ (97 ≤ c ∧ c ≤ 102) := by
  obtain ⟨b, _, hm⟩ := mem_flatMap.mp hc
  have hb := b.toNat_lt
  rcases mem_pair.mp hm with rfl | rfl
  · exact hexDigit_lower _ (by omega)
  · exact hexDigit_lower _ (by omega)

theorem hexValue_ascii : ∀ n ∈ hexValue c, c < 0x80 := by
  revert c
  decide +kernel

theorem hexDecode_ascii : ∀ s bs : Bytes, hexDecode s = some bs → ∀ c ∈ s, c < 0x80
  | [], _, _ => by simp
  | [c], _, h => by simp [hexDecode] at h
  | c :: d :: rest, bs, h => by
    simp only [hexDecode] at h
    split at h
    · rename_i hi lo more hc hd hrest
      intro e he
      rcases mem_cons.mp he with rfl | he
      · exact hexValue_ascii e hi hc
      rcases mem_cons.mp he with rfl | he
      · exact hexValue_ascii e lo hd
      · exact hexDecode_ascii rest more hrest e he
    · simp at h

theorem validUTF8_hexEncode : validUTF8 (hexEncode bs) = true :=
  validUTF8_of_ascii _ (hexDecode_ascii _ bs (hexDecode_hexEncode bs))

/-- `strings.ToLower` on ASCII. A string with any other byte is no hexadecimal
text, whatever its lower case. -/
def asciiLower (s : Bytes) : Bytes := s.map (fun c => if 65 ≤ c ∧ c ≤ 90 then c+32 else c)

def decodeLowerHex (n : ℕ) (s : Bytes) : Option Bytes :=
  if s.length ≠ 2*n ∨ asciiLower s ≠ s then none
  else (hexDecode s).filter (fun bs => bs.length = n)

theorem asciiLower_hexEncode : asciiLower (hexEncode bs) = hexEncode bs := by
  apply map_fixed
  intro c hc
  apply if_neg
  have hl := hexEncode_lower bs c hc
  simp only [UInt8.le_iff_toNat_le, UInt8.reduceToNat] at hl ⊢
  omega

theorem decodeLowerHex_hexEncode (h : bs.length = n) :
    decodeLowerHex n (hexEncode bs) = some bs := by
  unfold decodeLowerHex
  rw [if_neg (by simp [hexEncode_length, asciiLower_hexEncode, h]), hexDecode_hexEncode]
  simp [h]

theorem validUTF8_of_decodeLowerHex (h : (decodeLowerHex n s).isSome = true) :
    validUTF8 s = true := by
  obtain ⟨bs, hbs⟩ := Option.isSome_iff_exists.mp h
  unfold decodeLowerHex at hbs
  split_ifs at hbs
  exact validUTF8_of_ascii s (hexDecode_ascii s bs (Option.filter_eq_some_iff.mp hbs).1)

def sextetChar (n : ℕ) : UInt8 :=
  UInt8.ofNat (if n < 26 then 65+n else if n < 52 then 71+n else if n < 62 then n-4
    else if n = 62 then 45 else 95)

def sextetValue (c : UInt8) : Option ℕ :=
  if 65 ≤ c ∧ c ≤ 90 then some (c.toNat-65)
  else if 97 ≤ c ∧ c ≤ 122 then some (c.toNat-71)
  else if 48 ≤ c ∧ c ≤ 57 then some (c.toNat+4)
  else if c = 45 then some 62
  else if c = 95 then some 63
  else none

def toSextets : Bytes → List ℕ
  | [] => []
  | [a] => [a.toNat/4, a.toNat%4*16]
  | [a, b] => [a.toNat/4, a.toNat%4*16+b.toNat/16, b.toNat%16*4]
  | a :: b :: c :: rest =>
    a.toNat/4 :: (a.toNat%4*16+b.toNat/16) :: (b.toNat%16*4+c.toNat/64) :: c.toNat%64 ::
      toSextets rest

/-- Trailing bits that make no whole byte are ignored, a single left-over
sextet is an error. -/
def ofSextets : List ℕ → Option Bytes
  | [] => some []
  | [_] => none
  | [p, q] => some [UInt8.ofNat (p*4+q/16)]
  | [p, q, r] => some [UInt8.ofNat (p*4+q/16), UInt8.ofNat (q%16*16+r/4)]
  | p :: q :: r :: t :: rest =>
    match ofSextets rest with
    | some bs => some (UInt8.ofNat (p*4+q/16) :: UInt8.ofNat (q%16*16+r/4) ::
        UInt8.ofNat (r%4*64+t) :: bs)
    | none => none

def sextetValues : Bytes → Option (List ℕ)
  | [] => some []
  | c :: rest =>
    match sextetValue c, sextetValues rest with
    | some v, some vs => some (v :: vs)
    | _, _ => none

def base64Encode (bs : Bytes) : Bytes := (toSextets bs).map sextetChar

/-- `base64.RawURLEncoding.DecodeString`: carriage returns and line feeds are
skipped, the encoding is not strict about trailing bits. -/
def base64Decode (s : Bytes) : Option Bytes :=
  (sextetValues (s.filter (fun c => c ≠ 10 ∧ c ≠ 13))).bind ofSextets

theorem sextetChar_facts : ∀ n < 64, sextetValue (sextetChar n) = some n ∧ sextetChar n ≠ 10 ∧
    sextetChar n ≠ 13 ∧ sextetChar n < 0x80 := by decide +kernel

theorem toSextets_lt : ∀ n ∈ toSextets bs, n < 64 := by
  fun_induction toSextets bs with
  | case1 => simp
  | case2 a =>
    have ha := a.toNat_lt
    simp only [mem_cons, not_mem_nil, or_false, forall_eq_or_imp, forall_eq]
    omega
  | case3 a b =>
    have ha := a.toNat_lt
    have hb := b.toNat_lt
    simp only [mem_cons, not_mem_nil, or_false, forall_eq_or_imp, forall_eq]
    omega
  | case4 a b c rest ih =>
    have ha := a.toNat_lt
    have hb := b.toNat_lt
    have hc := c.toNat_lt
    simp only [mem_cons, forall_eq_or_imp]
    refine ⟨by omega, by omega, by omega, by omega, ih⟩

theorem ofSextets_toSextets : ofSextets (toSextets bs) = some bs := by
  fun_induction toSextets bs with
  | case1 => rfl
  | case2 a => rw [ofSextets, byte_eq a (by have := a.toNat_lt; omega)]
  | case3 a b =>
    have ha := a.toNat_lt
    have hb := b.toNat_lt
    rw [ofSextets, byte_eq a (by omega), byte_eq b (by omega)]
  | case4 a b c rest ih =>
    have ha := a.toNat_lt
    have hb := b.toNat_lt
    have hc := c.toNat_lt
    simp only [ofSextets, ih]
    rw [byte_eq a (by omega), byte_eq b (by omega), byte_eq c (by omega)]

theorem sextetValues_map {ns : List ℕ} (h : ∀ n ∈ ns, n < 64) :
    sextetValues (ns.map sextetChar) = some ns := by
  induction ns with
  | nil => rfl
  | cons n ns ih =>
    have hn := (sextetChar_facts n (h n mem_cons_self)).1
    simp only [map_cons, sextetValues, hn, ih (forall_mem_cons.mp h).2]

theorem base64Encode_ascii (hc : c ∈ base64Encode bs) : c < 0x80 ∧ c ≠ 10 ∧ c ≠ 13 := by
  obtain ⟨n, hn, rfl⟩ := mem_map.mp hc
  obtain ⟨_, h10, h13, hlt⟩ := sextetChar_facts n (toSextets_lt bs n hn)
  exact ⟨hlt, h10, h13⟩

theorem base64Decode_base64Encode : base64Decode (base64Encode bs) = some bs := by
  have hf : (base64Encode bs).filter (fun c => c ≠ 10 ∧ c ≠ 13) = base64Encode bs := by
    apply filter_eq_self.mpr
    intro c hc
    simpa using (base64Encode_ascii bs c hc).2
  rw [base64Decode, hf, base64Encode, sextetValues_map (toSextets_lt bs), Option.bind_some,
    ofSextets_toSextets]

theorem base64Encode_eq_nil : base64Encode bs = [] ↔ bs = [] := by
  constructor
  · intro h
    have hd := base64Decode_base64Encode bs
    rw [h] at hd
    exact (Option.some.inj hd).symm
  · rintro rfl
    rfl

def zeroTail : List ℕ → Bool
  | [_, q] => q%16 = 0
  | [_, _, r] => r%4 = 0
  | _ :: _ :: _ :: _ :: rest => zeroTail rest
  | _ => true

def base64Strict (s : Bytes) : Bool :=
  s.all (fun c => c ≠ 10 ∧ c ≠ 13) && ((sextetValues s).map zeroTail).getD false

theorem sextetChar_sextetValue : ∀ n ∈ sextetValue c, sextetChar n = c ∧ n < 64 := by
  revert c
  decide +kernel

theorem sextetValues_some (vs : List ℕ) (h : sextetValues s = some vs) :
    vs.map sextetChar = s ∧ ∀ v ∈ vs, v < 64 := by
  induction s generalizing vs with
  | nil =>
    cases h
    exact ⟨rfl, by simp⟩
  | cons c rest ih =>
    simp only [sextetValues] at h
    split at h
    · rename_i v more hv hmore
      cases h
      obtain ⟨hmap, hlt⟩ := ih more hmore
      obtain ⟨hc, hv64⟩ := sextetChar_sextetValue c v hv
      exact ⟨by rw [map_cons, hc, hmap], forall_mem_cons.mpr ⟨hv64, hlt⟩⟩
    · simp at h

theorem toSextets_ofSextets {vs : List ℕ} (bs : Bytes) (hlt : ∀ v ∈ vs, v < 64)
    (h : ofSextets vs = some bs) : toSextets bs = vs ↔ zeroTail vs = true := by
  fun_induction ofSextets vs generalizing bs with
  | case1 =>
    cases h
    simp [toSextets, zeroTail]
  | case2 => simp at h
  | case3 p q =>
    cases h
    have hp := hlt p (by simp)
    have hq := hlt q (by simp)
    simp only [toSextets, zeroTail, toNat_byte _ (show p*4+q/16 < 256 by omega), List.cons.injEq,
      and_true, decide_eq_true_eq]
    omega
  | case4 p q r =>
    cases h
    have hp := hlt p (by simp)
    have hq := hlt q (by simp)
    have hr := hlt r (by simp)
    simp only [toSextets, zeroTail, toNat_byte _ (show p*4+q/16 < 256 by omega),
      toNat_byte _ (show q%16*16+r/4 < 256 by omega), List.cons.injEq, and_true, decide_eq_true_eq]
    omega
  | case5 p q r t rest more hmore ih =>
    cases h
    have hp := hlt p (by simp)
    have hq := hlt q (by simp)
    have hr := hlt r (by simp)
    have ht := hlt t (by simp)
    have hrest : toSextets more = rest ↔ zeroTail rest = true :=
      ih more (fun v hv => hlt v (by simp [hv])) hmore
    rw [toSextets, zeroTail, toNat_byte _ (show p*4+q/16 < 256 by omega),
      toNat_byte _ (show q%16*16+r/4 < 256 by omega), toNat_byte _ (show r%4*64+t < 256 by omega),
      ← hrest]
    have h1 : (p*4+q/16)/4 = p := by omega
    have h2 : (p*4+q/16)%4*16+(q%16*16+r/4)/16 = q := by omega
    have h3 : (q%16*16+r/4)%16*4+(r%4*64+t)/64 = r := by omega
    have h4 : (r%4*64+t)%64 = t := by omega
    simp only [List.cons.injEq, h1, h2, h3, h4, true_and]
  | case6 => simp at h

theorem base64Encode_base64Decode (h : base64Decode s = some bs) :
    base64Encode bs = s ↔ base64Strict s = true := by
  have hplain (hall : s.all (fun c => c ≠ 10 ∧ c ≠ 13) = true) :
      s.filter (fun c => c ≠ 10 ∧ c ≠ 13) = s := filter_eq_self.mpr (all_eq_true.mp hall)
  have hiff (hall : s.all (fun c => c ≠ 10 ∧ c ≠ 13) = true) :
      base64Encode bs = s ↔ base64Strict s = true := by
    rw [base64Decode, hplain hall] at h
    obtain ⟨vs, hvs, hbs⟩ := Option.bind_eq_some_iff.mp h
    obtain ⟨hmap, hlt⟩ := sextetValues_some s vs hvs
    rw [base64Strict, hall, hvs, Bool.true_and, Option.map_some, Option.getD_some,
      ← toSextets_ofSextets bs hlt hbs]
    constructor
    · intro he
      have hb := congrArg sextetValues he
      rw [hvs, base64Encode, sextetValues_map (toSextets_lt bs)] at hb
      exact Option.some.inj hb
    · intro he
      rw [base64Encode, he, hmap]
  constructor
  · intro he
    apply (hiff ?_).mp he
    rw [← he, all_eq_true]
    intro c hc
    simpa using (base64Encode_ascii bs c hc).2
  · intro hs
    exact (hiff (Bool.and_eq_true_iff.mp hs).1).mpr hs

def base64EncodedLen (n : ℕ) : ℕ := n/3*4+(n%3*8+5)/6

theorem base64Encode_length : (base64Encode bs).length = base64EncodedLen bs.length := by
  rw [base64Encode, length_map, base64EncodedLen]
  fun_induction toSextets bs with
  | case1 => rfl
  | case2 => simp
  | case3 => simp
  | case4 a b c rest ih =>
    simp only [length_cons, ih]
    omega

theorem base64EncodedLen_mono {m n : ℕ} (h : m ≤ n) : base64EncodedLen m ≤ base64EncodedLen n := by
  unfold base64EncodedLen
  omega

end ByteText
