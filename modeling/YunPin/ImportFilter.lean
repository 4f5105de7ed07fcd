import YunPin.CanonicalText
import YunPin.TextPattern

/-! The privacy filter of the importer: twelve regular expressions over the normalised text, and
the checks a phrase has to pass. -/
namespace YunPin
open ByteText TextPattern TextPattern.Pattern List

/-- The character classes of Python that depend on the Unicode version. -/
structure CharacterClasses where
  /-- `\d`. -/
  isDecimal : ℕ → Bool
  /-- `str.isalnum`, which with the underscore is `\w`. -/
  isAlnum : ℕ → Bool

namespace Importer

def isUpper (r : ℕ) : Bool := 0x41 ≤ r ∧ r ≤ 0x5A

def isDigit (r : ℕ) : Bool := 0x30 ≤ r ∧ r ≤ 0x39

def isCjk (r : ℕ) : Bool := (0x3400 ≤ r ∧ r ≤ 0x4DBF) ∨ (0x4E00 ≤ r ∧ r ≤ 0x9FFF)

/-- A class under `(?i)`. Outside ASCII the dotted and the dotless i, the long s and the Kelvin
sign are other cases of ASCII letters. -/
def ignoreCase (p : ℕ → Bool) (r : ℕ) : Bool :=
  p r || (isUpper r && p (r+32)) || (isLetter r && p (r-32)) ||
    (decide (r = 0x130 ∨ r = 0x131) && (p 0x49 || p 0x69)) ||
    (decide (r = 0x17F) && (p 0x53 || p 0x73)) || (decide (r = 0x212A) && (p 0x4B || p 0x6B))

def isHex : ℕ → Bool := ignoreCase (fun r => isDigit r || (0x61 ≤ r ∧ r ≤ 0x66))

def oneOf (s : String) (r : ℕ) : Bool := (runes (lit s)).contains r

def exactly (s : String) : Pattern ℕ := seqs ((runes (lit s)).map (fun c => .one (fun r => r = c)))

def anyCase (s : String) : Pattern ℕ :=
  seqs ((runes (lit s)).map (fun c => .one (ignoreCase (fun r => r = c))))

def space : Pattern ℕ := .one isSpacePython

def notSpace : Pattern ℕ := .one (fun r => !isSpacePython r)

def notBefore (p : ℕ → Bool) : Pattern ℕ := .look (fun before _ => !before.any p)

def notAfter (p : ℕ → Bool) : Pattern ℕ := .look (fun _ after => !after.any p)

section Patterns
variable (k : CharacterClasses)

def isWord (r : ℕ) : Bool := k.isAlnum r || decide (r = 0x5F)

def boundary : Pattern ℕ :=
  .look (fun before after => before.any (isWord k) != after.any (isWord k))

def digit : Pattern ℕ := .one k.isDecimal

def url : Pattern ℕ :=
  alts [seqs [alts [seqs [anyCase "http", opt (anyCase "s")], anyCase "ftp"], exactly "://"],
    seqs [boundary k, anyCase "www."]]

def email : Pattern ℕ :=
  seqs [boundary k, some1 (.one (ignoreCase (fun r => isUpper r || isDigit r || oneOf "._%+-" r))),
    exactly "@", some1 (.one (ignoreCase (fun r => isUpper r || isDigit r || oneOf ".-" r))),
    exactly ".", atLeast 2 (.one (ignoreCase isUpper)), boundary k]

def domain : Pattern ℕ :=
  seqs [boundary k,
    some1 (seqs [some1 (.one (ignoreCase (fun r => isUpper r || isDigit r || oneOf "-" r))),
      exactly "."]),
    alts (["com", "net", "org", "cn", "io", "dev", "app", "local", "test"].map anyCase), boundary k]

def octet : Pattern ℕ :=
  alts [seqs [exactly "25", .one (fun r => 0x30 ≤ r ∧ r ≤ 0x35)],
    seqs [exactly "2", .one (fun r => 0x30 ≤ r ∧ r ≤ 0x34), digit k],
    seqs [opt (exactly "1"), opt (digit k), digit k]]

def ipv4 : Pattern ℕ :=
  seqs [notBefore k.isDecimal, times 3 (seqs [octet k, exactly "."]), octet k,
    notAfter k.isDecimal]

def ipv6 : Pattern ℕ :=
  seqs [notBefore isHex, atLeast 2 (seqs [.one isHex, upTo 3 (.one isHex), exactly ":"]),
    upTo 39 (.one (fun r => isHex r || r = 0x3A)), notAfter isHex]

def windowsPath : Pattern ℕ :=
  alts [seqs [boundary k, .one (ignoreCase isUpper), exactly ":\\"],
    seqs [exactly "\\\\", some1 (.one (fun r => !(decide (r = 0x5C) || isSpacePython r))),
      exactly "\\"]]

def unixPath : Pattern ℕ :=
  seqs [alts [.look (fun before _ => before.isNone), space], exactly "/",
    alts (["Users", "home", "root", "etc", "var", "tmp", "opt", "srv", "mnt", "Volumes"].map exactly),
    opt (seqs [exactly "/", .many notSpace])]

def filePath : Pattern ℕ :=
  some1 (seqs [.one (oneOf "/\\"), some1 (.one (fun r => !(isSpacePython r || oneOf "/\\" r)))])

def longNumber : Pattern ℕ :=
  seqs [notBefore k.isDecimal,
    alts [atLeast 6 (digit k),
      atLeast 7 (seqs [opt (exactly "+"), digit k,
        .many (.one (fun r => isSpacePython r || oneOf "().-" r))])],
    notAfter k.isDecimal]

def isToken (r : ℕ) : Bool := isUpper r || isLetter r || isDigit r || oneOf "_-" r

def opaqueToken : Pattern ℕ :=
  seqs [boundary k,
    alts [seqs [times 8 (.one isHex), exactly "-", times 4 (.one isHex), exactly "-",
        times 4 (.one isHex), exactly "-", times 4 (.one isHex), exactly "-",
        times 12 (.one isHex)],
      atLeast 24 (.one (ignoreCase isToken))],
    boundary k]

def jwt : Pattern ℕ :=
  seqs [boundary k, exactly "eyJ", atLeast 8 (.one isToken), exactly ".", atLeast 8 (.one isToken),
    exactly ".", atLeast 8 (.one isToken), boundary k]

/-- A separator with blanks around it, or blanks alone, and then the value. -/
def assigned (separators : String) : Pattern ℕ :=
  seqs [alts [seqs [.many space, .one (oneOf separators), .many space], some1 space],
    some1 notSpace]

def secret : Pattern ℕ :=
  alts [seqs [anyCase "-----BEGIN ", .many (.one (ignoreCase (fun r => isUpper r || r = 0x20))),
      anyCase "PRIVATE KEY-----"],
    seqs [boundary k, anyCase "Bearer", some1 space,
      some1 (.one (ignoreCase (fun r => isUpper r || isLetter r || isDigit r || oneOf "._~-" r)))],
    seqs [boundary k,
      alts [seqs [anyCase "api", opt (.one (oneOf "_-")), anyCase "key"],
        seqs [anyCase "access", opt (.one (oneOf "_-")), anyCase "token"],
        seqs [anyCase "refresh", opt (.one (oneOf "_-")), anyCase "token"],
        anyCase "password", anyCase "passwd", anyCase "secret"],
      assigned ":="],
    seqs [boundary k,
      alts [seqs [anyCase "gh", .one (ignoreCase (oneOf "pousr")), exactly "_"], anyCase "sk-"],
      atLeast 8 (.one (ignoreCase isToken))],
    seqs [boundary k, anyCase "AKIA",
      atLeast 12 (.one (ignoreCase (fun r => isUpper r || isDigit r))), boundary k],
    seqs [alts (["密码", "口令", "访问令牌", "刷新令牌", "私钥", "密钥"].map exactly),
      assigned ":：="]]

def patterns : List (String × Pattern ℕ) :=
  [("url", url k), ("email", email k), ("domain", domain k), ("ipv4", ipv4 k), ("ipv6", ipv6),
    ("windows_path", windowsPath k), ("unix_path", unixPath), ("file_path", filePath),
    ("long_number", longNumber k), ("opaque_token", opaqueToken k), ("jwt", jwt k),
    ("secret", secret k)]

def unsafeReason (t : CharacterData) (value : List ℕ) : Option String :=
  ((patterns k).find? (fun p => p.2.search (t.nfkc value))).map Prod.fst

def validatePhrase (t : CharacterData) (value : List ℕ) : Bool × Option String :=
  if value = [] then (false, some "empty")
  else match unsafeReason k t value with
    | some reason => (false, some reason)
    | none =>
      if value.length > 96 then (false, some "too_long")
      else if ¬value.any isCjk then (false, some "non_cjk")
      else if value.any (fun r => r = 0x0D ∨ r = 0x0A ∨ r = 0x09) then
        (false, some "control_character")
      else (true, none)

end Patterns

theorem validatePhrase_ok_iff (k : CharacterClasses) (t : CharacterData) (value : List ℕ) :
    validatePhrase k t value = (true, none) ↔
      value ≠ [] ∧ unsafeReason k t value = none ∧ value.length ≤ 96 ∧
        (∃ r ∈ value, isCjk r = true) ∧ ∀ r ∈ value, r ≠ 0x0D ∧ r ≠ 0x0A ∧ r ≠ 0x09 := by
  unfold validatePhrase
  by_cases hne : value = []
  · simp [hne]
  cases unsafeReason k t value with
  | some reason => simp [hne]
  | none =>
    by_cases hlen : value.length > 96
    · simp [hne, hlen]
    by_cases hcjk : value.any isCjk = true
    · have hmem := any_eq_true.mp hcjk
      simp [hne, hlen, hcjk, hmem, Nat.le_of_not_gt hlen]
    · have hmem := mt any_eq_true.mpr hcjk
      simp [hne, hlen, hcjk, hmem]

def isPlain (r : ℕ) : Bool := isCjk r || decide (r = 0x22 ∨ r = 0x23)

abbrev Plain (r : ℕ) : Prop := isPlain r = true

theorem ignoreCase_plain (p : ℕ → Bool) {r : ℕ} (h : Plain r) : ignoreCase p r = p r := by
  simp only [Plain, isPlain, isCjk, Bool.or_eq_true, decide_eq_true_eq] at h
  have hupper : isUpper r = false := decide_eq_false (by omega)
  have hlower : isLetter r = false := decide_eq_false (by omega)
  have hi : ¬(r = 0x130 ∨ r = 0x131) := by omega
  have hs : r ≠ 0x17F := by omega
  have hk : r ≠ 0x212A := by omega
  simp [ignoreCase, hupper, hlower, hi, hs, hk]

theorem isToken_plain {r : ℕ} (h : Plain r) : isToken r = false := by
  have hof : runes (lit "_-") = [0x5F, 0x2D] := by decide
  simp only [Plain, isPlain, isCjk, Bool.or_eq_true, decide_eq_true_eq] at h
  rw [← Bool.not_eq_true]
  simp only [isToken, isUpper, isLetter, isDigit, oneOf, hof, Bool.or_eq_true, decide_eq_true_eq,
    contains_iff_mem, mem_cons, not_mem_nil, or_false]
  omega

theorem isSpacePython_plain (r : ℕ) (h : Plain r) : isSpacePython r = false := by
  simp only [Plain, isPlain, isCjk, Bool.or_eq_true, decide_eq_true_eq] at h
  rw [← Bool.not_eq_true]
  simp only [isSpacePython, isSpaceRune, decide_eq_true_eq]
  omega

theorem blocked_exactly (s : String) (h : (runes (lit s)).any (fun c => !isPlain c) = true) :
    (exactly s).Blocked Plain := by
  obtain ⟨c, hc, hplain⟩ := any_eq_true.mp h
  refine blocked_seqs (mem_map_of_mem hc) (fun r hr => decide_eq_false ?_)
  rintro rfl
  rw [hr] at hplain
  cases hplain

theorem blocked_anyCase {s : String} (h : (runes (lit s)).any (fun c => !isPlain c) = true) :
    (anyCase s).Blocked Plain := by
  obtain ⟨c, hc, hplain⟩ := any_eq_true.mp h
  refine blocked_seqs (mem_map_of_mem hc) (fun r hr => ?_)
  rw [ignoreCase_plain _ hr]
  refine decide_eq_false ?_
  rintro rfl
  rw [hr] at hplain
  cases hplain

theorem oneOf_plain (s : String) (h : (runes (lit s)).all (fun c => !isPlain c) = true) (r : ℕ)
    (hr : Plain r) : oneOf s r = false := by
  rw [← Bool.not_eq_true, oneOf, contains_iff_mem]
  intro hmem
  have hplain := all_eq_true.mp h r hmem
  rw [hr] at hplain
  cases hplain

theorem blocked_assigned {separators : String}
    (h : (runes (lit separators)).all (fun c => !isPlain c) = true) :
    (assigned separators).Blocked Plain := by
  refine .inl (blocked_alts ?_)
  simp only [mem_cons, not_mem_nil, or_false, forall_eq_or_imp, forall_eq]
  exact ⟨.inr (.inl (oneOf_plain separators h)), blocked_some1 isSpacePython_plain⟩

section Plain
variable (k : CharacterClasses)

theorem blocked_url : (url k).Blocked Plain := by
  refine blocked_alts ?_
  simp only [mem_cons, not_mem_nil, or_false, forall_eq_or_imp, forall_eq]
  constructor
  · exact .inr (.inl (blocked_exactly "://" (by decide)))
  · exact .inr (.inl (blocked_anyCase (by decide)))

theorem blocked_windowsPath : (windowsPath k).Blocked Plain := by
  refine blocked_alts ?_
  simp only [mem_cons, not_mem_nil, or_false, forall_eq_or_imp, forall_eq]
  constructor
  · exact .inr (.inr (.inl (blocked_exactly ":\\" (by decide))))
  · exact .inl (blocked_exactly "\\\\" (by decide))

theorem blocked_longNumber (hdecimal : ∀ r, Plain r → k.isDecimal r = false) :
    (longNumber k).Blocked Plain := by
  refine .inr (.inl (blocked_alts ?_))
  simp only [mem_cons, not_mem_nil, or_false, forall_eq_or_imp, forall_eq]
  constructor
  · exact blocked_atLeast hdecimal
  · exact blocked_atLeast (.inr (.inl hdecimal))

theorem blocked_opaqueToken : (opaqueToken k).Blocked Plain := by
  refine .inr (.inl (blocked_alts ?_))
  simp only [mem_cons, not_mem_nil, or_false, forall_eq_or_imp, forall_eq]
  constructor
  · exact .inr (.inl (blocked_exactly "-" (by decide)))
  · refine blocked_atLeast (fun r hr => ?_)
    rw [ignoreCase_plain _ hr, isToken_plain hr]

theorem blocked_secret : (secret k).Blocked Plain := by
  refine blocked_alts ?_
  simp only [mem_cons, not_mem_nil, or_false, forall_eq_or_imp, forall_eq]
  refine ⟨?_, ?_, ?_, ?_, ?_, ?_⟩
  · exact .inl (blocked_anyCase (by decide))
  · exact .inr (.inl (blocked_anyCase (by decide)))
  · exact .inr (.inr (.inl (blocked_assigned (by decide))))
  · refine .inr (.inr (.inl (blocked_atLeast (fun r hr => ?_))))
    rw [ignoreCase_plain _ hr, isToken_plain hr]
  · exact .inr (.inl (@blocked_anyCase "AKIA" (by decide)))
  · exact .inr (.inl (@blocked_assigned ":：=" (by decide)))

theorem blocked_patterns (hdecimal : ∀ r, Plain r → k.isDecimal r = false) :
    ∀ p ∈ patterns k, p.2.Blocked Plain := by
  have hdot := blocked_exactly "." (by decide)
  have hslash := oneOf_plain "/\\" (by decide)
  simp only [patterns, mem_cons, not_mem_nil, or_false, forall_eq_or_imp, forall_eq]
  refine ⟨blocked_url k, ?_, ?_, ?_, ?_, blocked_windowsPath k, ?_, ?_,
    blocked_longNumber k hdecimal, blocked_opaqueToken k, ?_, blocked_secret k⟩
  · exact .inr (.inr (.inl (blocked_exactly "@" (by decide))))
  · exact .inr (.inl (blocked_some1 (.inr (.inl hdot))))
  · exact .inr (.inl (blocked_times (.inr (.inl hdot))))
  · refine .inr (.inl (blocked_atLeast (.inr (.inr (.inl ?_)))))
    exact blocked_exactly ":" (by decide)
  · exact .inr (.inl (blocked_exactly "/" (by decide)))
  · exact blocked_some1 (.inl hslash)
  · exact .inr (.inl (blocked_exactly "eyJ" (by decide)))

theorem validatePhrase_plain (hdecimal : ∀ r, Plain r → k.isDecimal r = false) {t : CharacterData}
    {value : List ℕ} (hnfkc : t.nfkc value = value) (hlen : value.length ≤ 96)
    (hplain : ∀ r ∈ value, Plain r) (hcjk : ∃ r ∈ value, isCjk r = true) :
    validatePhrase k t value = (true, none) := by
  refine (validatePhrase_ok_iff k t value).mpr ⟨?_, ?_, hlen, hcjk, fun r hr => ?_⟩
  · rintro rfl
    obtain ⟨r, hr, _⟩ := hcjk
    cases hr
  · rw [unsafeReason, Option.map_eq_none_iff, find?_eq_none, hnfkc]
    intro p hp
    rw [search_of_blocked Plain (blocked_patterns k hdecimal p hp) hplain]
    decide
  · refine ⟨?_, ?_, ?_⟩
    all_goals
      rintro rfl
      exact absurd (hplain _ hr) (by decide)

end Plain

end Importer
end YunPin
