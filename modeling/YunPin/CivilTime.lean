import YunPin.JsonText

/-! Instants and the text that `time.RFC3339Nano` gives them in UTC: the Gregorian calendar extended in
both directions, and reading the text back. An instant counts nanoseconds from the start of 1970. -/
namespace CivilTime
open ByteText List
open JsonText (isDigit digitsValue decimal)

def isLeap (year : ℤ) : Bool := year%4 = 0 ∧ (year%100 ≠ 0 ∨ year%400 = 0)

def daysBeforeYear (year : ℤ) : ℤ := 365*year+(year+3)/4-(year+99)/100+(year+399)/400

def monthLengths (leap : Bool) : List ℕ :=
  [31, if leap then 29 else 28, 31, 30, 31, 30, 31, 31, 30, 31, 30, 31]

theorem daysBeforeYear_succ (year : ℤ) :
    daysBeforeYear (year+1) = daysBeforeYear year+(monthLengths (isLeap year)).sum := by
  have hsum (leap : Bool) : (monthLengths leap).sum = 365+leap.toNat := by
    cases leap <;> rfl
  rw [hsum]
  cases hleap : isLeap year with
  | true =>
    rw [isLeap, decide_eq_true_eq] at hleap
    rw [daysBeforeYear, daysBeforeYear, Bool.toNat_true]
    omega
  | false =>
    rw [isLeap, decide_eq_false_iff_not] at hleap
    rw [daysBeforeYear, daysBeforeYear, Bool.toNat_false]
    omega

/-- The year of a day, counted from the start of year 0: the mean year gives it up to one. -/
def yearOfDay (day : ℤ) : ℤ :=
  let year := 400*day/146097
  if day < daysBeforeYear year then year-1
  else if daysBeforeYear (year+1) ≤ day then year+1
  else year

theorem yearOfDay_spec (day : ℤ) :
    daysBeforeYear (yearOfDay day) ≤ day ∧ day < daysBeforeYear (yearOfDay day+1) := by
  have hmean : 146097*(400*day/146097) ≤ 400*day ∧ 400*day < 146097*(400*day/146097)+146097 := by
    omega
  rw [yearOfDay]
  generalize 400*day/146097 = year at hmean
  split_ifs with hlow hhigh
  · rw [daysBeforeYear] at hlow
    rw [sub_add_cancel, daysBeforeYear, daysBeforeYear]
    omega
  · rw [daysBeforeYear] at hlow hhigh
    rw [daysBeforeYear, daysBeforeYear]
    omega
  · exact ⟨not_lt.mp hlow, not_le.mp hhigh⟩

theorem yearOfDay_range (day : ℤ) :
    (0 ≤ yearOfDay day ∧ yearOfDay day ≤ 9999) ↔ 0 ≤ day ∧ day < 3652425 := by
  have hspec := yearOfDay_spec day
  rw [daysBeforeYear, daysBeforeYear] at hspec
  constructor <;> intro h <;> constructor <;> omega

def splitMonth : List ℕ → ℕ → ℕ × ℕ
  | [], day => (1, day+1)
  | length :: rest, day =>
    if day < length then (1, day+1)
    else ((splitMonth rest (day-length)).1+1, (splitMonth rest (day-length)).2)

def InMonth (lengths : List ℕ) (month day : ℕ) : Prop :=
  1 ≤ month ∧ month ≤ lengths.length ∧ 1 ≤ day ∧ day ≤ lengths.getD (month-1) 0

instance (lengths : List ℕ) (month day : ℕ) : Decidable (InMonth lengths month day) :=
  inferInstanceAs (Decidable (_ ∧ _))

theorem monthLength_le (leap : Bool) (i : ℕ) : (monthLengths leap).getD i 0 ≤ 31 := by
  have hall : ∀ n ∈ monthLengths leap, n ≤ 31 := by
    cases leap <;> decide
  rw [getD_eq_getElem?_getD]
  cases hi : (monthLengths leap)[i]? with
  | none => exact Nat.zero_le _
  | some n => exact hall n (mem_of_getElem? hi)

theorem splitMonth_spec {lengths : List ℕ} (day : ℕ) (h : day < lengths.sum) :
    InMonth lengths (splitMonth lengths day).1 (splitMonth lengths day).2 ∧
      (lengths.take ((splitMonth lengths day).1-1)).sum+(splitMonth lengths day).2 = day+1 := by
  induction lengths generalizing day with
  | nil => exact absurd h (Nat.not_lt_zero _)
  | cons length rest ih =>
    rw [splitMonth]
    by_cases hin : day < length
    · rw [if_pos hin]
      refine ⟨⟨le_rfl, ?_, Nat.succ_pos _, hin⟩, ?_⟩
      · rw [length_cons]
        omega
      · dsimp only
        rw [Nat.sub_self, take_zero, sum_nil]
        omega
    · rw [if_neg hin]
      rw [sum_cons] at h
      obtain ⟨⟨hmonth, hlast, hday, hlen⟩, hsum⟩ := ih (day-length) (by omega)
      generalize (splitMonth rest (day-length)).1 = month at *
      generalize (splitMonth rest (day-length)).2 = d at *
      obtain ⟨month, rfl⟩ := Nat.exists_eq_add_of_le hmonth
      refine ⟨⟨by omega, ?_, hday, ?_⟩, ?_⟩
      · rw [length_cons]
        omega
      · have hindex : 1+month+1-1 = (1+month-1)+1 := by omega
        rw [hindex, getD_cons_succ]
        exact hlen
      · have hindex : 1+month+1-1 = (1+month-1)+1 := by omega
        dsimp only
        rw [hindex, take_succ_cons, sum_cons]
        omega

def epochDays : ℤ := 719528
def dayNanos : ℤ := 86400*10^9

def digit (n : ℕ) : UInt8 := UInt8.ofNat (48+n%10)

def twoDigits (n : ℕ) : Bytes := [digit (n/10), digit n]

def fourDigits (n : ℕ) : Bytes := [digit (n/1000), digit (n/100), digit (n/10), digit n]

def yearText (year : ℤ) : Bytes :=
  if 0 ≤ year ∧ year ≤ 9999 then fourDigits year.toNat
  else if 0 ≤ year then decimal year.toNat
  else 0x2D :: (if year.natAbs ≤ 9999 then fourDigits year.natAbs else decimal year.natAbs)

def nineDigits (n : ℕ) : Bytes :=
  [digit (n/10^8), digit (n/10^7), digit (n/10^6), digit (n/10^5), digit (n/10^4), digit (n/10^3),
    digit (n/10^2), digit (n/10), digit n]

def trimZeros (s : Bytes) : Bytes := s.rdropWhile (fun c => c = 0x30)

def fractionText (nanos : ℕ) : Bytes :=
  if nanos = 0 then [] else 0x2E :: trimZeros (nineDigits nanos)

def formatUTC (t : ℤ) : Bytes :=
  let day := t/dayNanos+epochDays
  let rest := (t%dayNanos).toNat
  let year := yearOfDay day
  let date := splitMonth (monthLengths (isLeap year)) (day-daysBeforeYear year).toNat
  let second := rest/10^9
  yearText year ++ 0x2D :: twoDigits date.1 ++ 0x2D :: twoDigits date.2 ++
    0x54 :: twoDigits (second/3600) ++ 0x3A :: twoDigits (second/60%60) ++
    0x3A :: twoDigits (second%60) ++ fractionText (rest%10^9) ++ [0x5A]

def parseFraction : Bytes → Option ℕ
  | [] => none
  | c :: rest =>
    if c = 0x5A ∧ rest = [] then some 0
    else if c = 0x2E ∧ rest.getLast? = some 0x5A ∧ rest.dropLast ≠ [] ∧ rest.dropLast.length ≤ 9 ∧
        rest.dropLast.all isDigit then
      some (digitsValue (rest.dropLast ++ List.replicate (9-rest.dropLast.length) 0x30))
    else none

/-- `Parse(time.RFC3339Nano)` for texts in UTC. A text with more digits than nanoseconds have or with
another sign for the point is left out: it is not what an instant is formatted to. -/
def parseUTC : Bytes → Option ℤ
  | y₁ :: y₂ :: y₃ :: y₄ :: c₁ :: m₁ :: m₂ :: c₂ :: d₁ :: d₂ :: c₃ :: h₁ :: h₂ :: c₄ :: n₁ :: n₂ ::
      c₅ :: s₁ :: s₂ :: rest =>
    let year := digitsValue [y₁, y₂, y₃, y₄]
    let month := digitsValue [m₁, m₂]
    let day := digitsValue [d₁, d₂]
    let hour := digitsValue [h₁, h₂]
    let minute := digitsValue [n₁, n₂]
    let second := digitsValue [s₁, s₂]
    let lengths := monthLengths (isLeap year)
    if [y₁, y₂, y₃, y₄, m₁, m₂, d₁, d₂, h₁, h₂, n₁, n₂, s₁, s₂].all isDigit ∧
        [c₁, c₂, c₃, c₄, c₅] = [0x2D, 0x2D, 0x54, 0x3A, 0x3A] ∧ InMonth lengths month day ∧
        hour < 24 ∧ minute < 60 ∧ second < 60 then
      (parseFraction rest).map (fun nanos =>
        (daysBeforeYear year+((lengths.take (month-1)).sum+day : ℕ)-1-epochDays)*dayNanos+
          ((hour*3600+minute*60+second)*10^9+nanos : ℕ))
    else none
  | _ => none

def isCanonicalUTC (value : Bytes) : Bool :=
  match parseUTC value with
  | some t => formatUTC t = value
  | none => false

variable (s : Bytes) {value : Bytes} (t : ℤ) (n : ℕ)

theorem digit_toNat : (digit n).toNat = 48+n%10 := by
  rw [digit, toNat_byte _ (by omega)]

theorem isDigit_digit : isDigit (digit n) = true := by
  rw [isDigit, decide_eq_true_eq, UInt8.le_iff_toNat_le, UInt8.le_iff_toNat_le, digit_toNat]
  exact ⟨Nat.le_add_right _ _, by change 48+n%10 ≤ 57; omega⟩

theorem digitsValue_twoDigits (h : n < 100) : digitsValue [digit (n/10), digit n] = n := by
  rw [digitsValue, foldl_cons, foldl_cons, foldl_nil, digit_toNat, digit_toNat]
  omega

theorem digitsValue_fourDigits (h : n < 10000) :
    digitsValue [digit (n/1000), digit (n/100), digit (n/10), digit n] = n := by
  simp only [digitsValue, foldl_cons, foldl_nil, digit_toNat]
  omega

theorem digitsValue_nineDigits (h : n < 10^9) : digitsValue (nineDigits n) = n := by
  simp only [digitsValue, nineDigits, foldl_cons, foldl_nil, digit_toNat]
  omega

theorem isDigit_nineDigits : ∀ c ∈ nineDigits n, isDigit c = true := by
  intro c hc
  simp only [nineDigits, mem_cons, not_mem_nil, or_false] at hc
  rcases hc with rfl | rfl | rfl | rfl | rfl | rfl | rfl | rfl | rfl <;> exact isDigit_digit _

theorem trimZeros_initial : trimZeros s <+: s := rdropWhile_prefix _ _

theorem trimZeros_append :
    trimZeros s ++ List.replicate (s.length-(trimZeros s).length) 0x30 = s := by
  induction s using List.reverseRecOn with
  | nil => rfl
  | append_singleton s c ih =>
    by_cases hc : c = 0x30
    · have htrim : trimZeros (s ++ [c]) = trimZeros s :=
        rdropWhile_concat_pos _ _ _ (decide_eq_true hc)
      have hle := (trimZeros_initial s).length_le
      have hcount : (s ++ [c]).length-(trimZeros s).length =
          s.length-(trimZeros s).length+1 := by
        rw [length_append, length_singleton]
        omega
      rw [htrim, hcount, replicate_succ', ← append_assoc, ih, hc]
    · have htrim : trimZeros (s ++ [c]) = s ++ [c] :=
        rdropWhile_concat_neg _ _ _ (by rw [decide_eq_true_eq]; exact hc)
      rw [htrim, Nat.sub_self]
      exact append_nil _

theorem parseFraction_fractionText (h : n < 10^9) :
    parseFraction (fractionText n ++ [0x5A]) = some n := by
  rw [fractionText]
  by_cases hzero : n = 0
  · rw [if_pos hzero, hzero]
    rfl
  rw [if_neg hzero, cons_append, parseFraction, if_neg (fun hz => absurd hz.1 (by decide)),
    getLast?_concat, dropLast_concat]
  have hback := trimZeros_append (nineDigits n)
  have hlen : (nineDigits n).length = 9 := rfl
  have hle := (trimZeros_initial (nineDigits n)).length_le
  rw [hlen] at hback hle
  have hne : trimZeros (nineDigits n) ≠ [] := by
    intro hnil
    rw [hnil] at hback
    have hvalue := digitsValue_nineDigits n h
    rw [← hback] at hvalue
    exact hzero (hvalue.symm.trans (by decide))
  have hdigits : (trimZeros (nineDigits n)).all isDigit = true :=
    all_eq_true.mpr (fun c hc =>
      isDigit_nineDigits n c ((trimZeros_initial (nineDigits n)).subset hc))
  rw [if_pos ⟨rfl, rfl, hne, hle, hdigits⟩, hback, digitsValue_nineDigits n h]

def InFourDigitYears (t : ℤ) : Prop := 0 ≤ t/dayNanos+epochDays ∧ t/dayNanos+epochDays < 3652425

instance (t : ℤ) : Decidable (InFourDigitYears t) := inferInstanceAs (Decidable (_ ∧ _))

theorem parseUTC_formatUTC {t : ℤ} (h : InFourDigitYears t) : parseUTC (formatUTC t) = some t := by
  have hyear := (yearOfDay_range _).mpr h
  have hspec := yearOfDay_spec (t/dayNanos+epochDays)
  rw [daysBeforeYear_succ] at hspec
  have hrest : 0 ≤ t%dayNanos ∧ t%dayNanos < dayNanos :=
    ⟨Int.emod_nonneg t (by decide), Int.emod_lt_of_pos t (by decide)⟩
  have hsplit := Int.mul_ediv_add_emod t dayNanos
  rw [formatUTC]
  generalize hday : t/dayNanos+epochDays = day at *
  generalize hnanos : t%dayNanos = rest at *
  obtain ⟨rest, rfl⟩ := Int.eq_ofNat_of_zero_le hrest.1
  obtain ⟨year, hyearNat⟩ := Int.eq_ofNat_of_zero_le hyear.1
  rw [hyearNat] at hyear hspec ⊢
  obtain ⟨dayOfYear, hdayOfYear⟩ := Int.eq_ofNat_of_zero_le (sub_nonneg.mpr hspec.1)
  obtain ⟨hin, hsum⟩ := @splitMonth_spec (monthLengths (isLeap year)) dayOfYear (by omega)
  rw [hdayOfYear, Int.toNat_natCast, Int.toNat_natCast, yearText, if_pos hyear, Int.toNat_natCast]
  have hmonth : (monthLengths (isLeap year)).length = 12 := rfl
  have hlength := monthLength_le (isLeap year)
  generalize (splitMonth (monthLengths (isLeap year)) dayOfYear).1 = month at hin hsum ⊢
  generalize (splitMonth (monthLengths (isLeap year)) dayOfYear).2 = d at hin hsum ⊢
  have hmonthLt : month < 100 := by
    have hle := hin.2.1
    omega
  have hdayLt : d < 100 := by
    have hle := hin.2.2.2.trans (hlength (month-1))
    omega
  have hlast : rest/10^9 < 86400 := by
    rw [dayNanos] at hrest
    omega
  simp only [fourDigits, twoDigits, cons_append, nil_append, parseUTC]
  rw [digitsValue_fourDigits year (by omega), digitsValue_twoDigits month hmonthLt,
    digitsValue_twoDigits d hdayLt, digitsValue_twoDigits (rest/10^9/3600) (by omega),
    digitsValue_twoDigits (rest/10^9/60%60) (by omega),
    digitsValue_twoDigits (rest/10^9%60) (by omega),
    parseFraction_fractionText (rest%10^9) (by omega), if_pos]
  · have hseconds : rest/10^9/3600*3600+rest/10^9/60%60*60+rest/10^9%60 = rest/10^9 := by omega
    have hdate : daysBeforeYear year+((((monthLengths (isLeap year)).take (month-1)).sum+d : ℕ) : ℤ)-
        1-epochDays = t/dayNanos := by
      rw [hsum]
      push_cast
      omega
    rw [Option.map_some, hdate, hseconds, Nat.div_add_mod', mul_comm, hsplit]
  · simp only [all_cons, isDigit_digit, all_nil, Bool.and_true]
    exact ⟨trivial, trivial, hin, by omega, by omega, by omega⟩

def isDateByte (b : UInt8) : Bool :=
  isDigit b ∨ b = 0x2D ∨ b = 0x54 ∨ b = 0x3A ∨ b = 0x2E ∨ b = 0x5A

theorem isDateByte_digit {b : UInt8} (h : isDigit b = true) : isDateByte b = true :=
  decide_eq_true (.inl h)

theorem parseFraction_plain {nanos : ℕ} (h : parseFraction s = some nanos) :
    s.length ≤ 11 ∧ s.all isDateByte = true := by
  cases s with
  | nil => cases h
  | cons c rest =>
    rw [parseFraction] at h
    split_ifs at h with hend hpoint
    · obtain ⟨rfl, rfl⟩ := hend
      exact ⟨by decide, rfl⟩
    · obtain ⟨rfl, hlast, hne, hlen, hdigits⟩ := hpoint
      have hrest : rest = rest.dropLast ++ [0x5A] :=
        (dropLast_append_getLast? _ hlast).symm
      rw [all_eq_true] at hdigits
      have hplain : rest.dropLast.all isDateByte = true :=
        all_eq_true.mpr (fun b hb => isDateByte_digit (hdigits b hb))
      constructor
      · rw [hrest, length_cons, length_append, length_singleton]
        omega
      · rw [hrest, all_cons, all_append, hplain]
        rfl

theorem parseUTC_plain (h : parseUTC value = some t) :
    value.length ≤ 30 ∧ value.all isDateByte = true := by
  unfold parseUTC at h
  split at h
  · dsimp only at h
    split_ifs at h with hshape
    obtain ⟨hdigits, hsigns, -⟩ := hshape
    obtain ⟨nanos, hfraction, -⟩ := Option.map_eq_some_iff.mp h
    obtain ⟨hlen, hrest⟩ := parseFraction_plain _ hfraction
    simp only [List.cons.injEq, and_true] at hsigns
    obtain ⟨rfl, rfl, rfl, rfl, rfl⟩ := hsigns
    simp only [all_cons, all_nil, Bool.and_eq_true] at hdigits
    obtain ⟨y₁, y₂, y₃, y₄, m₁, m₂, d₁, d₂, h₁, h₂, n₁, n₂, s₁, s₂, -⟩ := hdigits
    have hsign : isDateByte 0x2D = true ∧ isDateByte 0x54 = true ∧ isDateByte 0x3A = true :=
      ⟨rfl, rfl, rfl⟩
    constructor
    · simp only [length_cons]
      omega
    · simp only [all_cons, isDateByte_digit y₁, isDateByte_digit y₂, isDateByte_digit y₃,
        isDateByte_digit y₄, isDateByte_digit m₁, isDateByte_digit m₂, isDateByte_digit d₁,
        isDateByte_digit d₂, isDateByte_digit h₁, isDateByte_digit h₂, isDateByte_digit n₁,
        isDateByte_digit n₂, isDateByte_digit s₁, isDateByte_digit s₂, hsign, hrest,
        Bool.and_true]
  · cases h

theorem isCanonicalUTC_plain (h : isCanonicalUTC value = true) :
    value.length ≤ 30 ∧ value.all isDateByte = true := by
  rw [isCanonicalUTC] at h
  cases hparse : parseUTC value with
  | none =>
    rw [hparse] at h
    cases h
  | some t => exact parseUTC_plain t hparse

theorem parseUTC_year (h : parseUTC value = some t) :
    (∀ c ∈ value.head?, isDigit c = true) ∧ value[4]? = some 0x2D := by
  unfold parseUTC at h
  split at h
  · dsimp only at h
    split_ifs at h with hshape
    obtain ⟨hdigits, hsigns, -⟩ := hshape
    simp only [List.cons.injEq, and_true] at hsigns
    rw [all_eq_true] at hdigits
    refine ⟨fun c hc => ?_, ?_⟩
    · cases hc
      exact hdigits _ mem_cons_self
    · rw [← hsigns.1]
      rfl
  · cases h

theorem isCanonicalUTC_formatUTC : isCanonicalUTC (formatUTC t) = true ↔ InFourDigitYears t := by
  constructor
  · intro h
    rw [InFourDigitYears, ← yearOfDay_range]
    rw [isCanonicalUTC] at h
    cases hparse : parseUTC (formatUTC t) with
    | none =>
      rw [hparse] at h
      cases h
    | some t' =>
      obtain ⟨hhead, hsign⟩ := parseUTC_year t' hparse
      by_contra hout
      have hstart : yearText (yearOfDay (t/dayNanos+epochDays)) <+: formatUTC t := by
        rw [formatUTC]
        simp only [append_assoc]
        exact prefix_append _ _
      obtain ⟨rest, htext⟩ := hstart
      replace htext := htext.symm
      rw [yearText, if_neg hout] at htext
      by_cases hneg : 0 ≤ yearOfDay (t/dayNanos+epochDays)
      · -- a fifth digit stands where the first sign should be
        rw [if_pos hneg] at htext
        generalize hn : (yearOfDay (t/dayNanos+epochDays)).toNat = n at htext
        have hlen : 4 < (decimal n).length := by
          by_contra hshort
          rw [decimal, length_map, not_lt,
            Nat.length_toDigits_le_iff (by decide) (by decide)] at hshort
          omega
        have hdigit := JsonText.isDigit_decimal n (decimal n)[4] (getElem_mem hlen)
        rw [htext, getElem?_append_left hlen, getElem?_eq_getElem hlen,
          Option.some_inj] at hsign
        rw [hsign] at hdigit
        exact absurd hdigit (by decide)
      · rw [if_neg hneg] at htext
        have hfirst := hhead 0x2D (by rw [htext]; rfl)
        exact absurd hfirst (by decide)
  · intro h
    rw [isCanonicalUTC, parseUTC_formatUTC h]
    exact decide_eq_true rfl

example : isCanonicalUTC (lit "2026-02-28T23:59:59.000012Z") = true := by decide

end CivilTime
