import YunPin.JsonText
import Mathlib.Data.List.Basic

/-! The loader of the private snapshot: lines, fields and pinyin as the C++ front end reads them. -/
namespace YunPin
open ByteText List

namespace Engine

def kSyllables : List String :=
  ["a ai an ang ao",
    "ba bai ban bang bao bei ben beng bi bian biao bie bin bing bo bu",
    "ca cai can cang cao ce cen ceng cha chai chan chang chao che chen cheng",
    "chi chong chou chu chua chuai chuan chuang chui chun chuo ci cong cou cu",
    "cuan cui cun cuo",
    "da dai dan dang dao de dei den deng di dia dian diao die ding diu dong dou",
    "du duan dui dun duo",
    "e ei en eng er",
    "fa fan fang fei fen feng fo fou fu",
    "ga gai gan gang gao ge gei gen geng gong gou gu gua guai guan guang gui",
    "gun guo",
    "ha hai han hang hao he hei hen heng hong hou hu hua huai huan huang hui hun",
    "huo",
    "ji jia jian jiang jiao jie jin jing jiong jiu ju juan jue jun",
    "ka kai kan kang kao ke ken keng kong kou ku kua kuai kuan kuang kui kun kuo",
    "la lai lan lang lao le lei leng li lia lian liang liao lie lin ling liu lo",
    "long lou lu luan lue lun luo lv lvan lve",
    "ma mai man mang mao me mei men meng mi mian miao mie min ming miu mo mou mu",
    "na nai nan nang nao ne nei nen neng ni nian niang niao nie nin ning niu",
    "nong nou nu nuan nue nuo nv nve",
    "o ou",
    "pa pai pan pang pao pei pen peng pi pian piao pie pin ping po pou pu",
    "qi qia qian qiang qiao qie qin qing qiong qiu qu quan que qun",
    "ran rang rao re ren reng ri rong rou ru rua ruan rui run ruo",
    "sa sai san sang sao se sen seng sha shai shan shang shao she shei shen",
    "sheng shi shou shu shua shuai shuan shuang shui shun shuo si song sou su",
    "suan sui sun suo",
    "ta tai tan tang tao te teng ti tian tiao tie ting tong tou tu tuan tui tun",
    "tuo",
    "wa wai wan wang wei wen weng wo wu",
    "xi xia xian xiang xiao xie xin xing xiong xiu xu xuan xue xun",
    "ya yan yang yao ye yi yin ying yo yong you yu yuan yue yun",
    "za zai zan zang zao ze zei zen zeng zha zhai zhan zhang zhao zhe zhei zhen",
    "zheng zhi zhong zhou zhu zhua zhuai zhuan zhuang zhui zhun zhuo zi zong",
    "zou zu zuan zui zun zuo"]

/-- The source sorts the words and drops duplicates, so that `binary_search` is membership. -/
def builtInSyllables : List Bytes := kSyllables.flatMap (fun row => (lit row).splitOn 0x20)

def isHardBoundary (raw : UInt8) : Bool :=
  raw = 0x20 ∨ (0x09 ≤ raw ∧ raw ≤ 0x0D) ∨ raw = 0x27 ∨ raw = 0x2D

def isToneDigit (raw : UInt8) : Bool := 0x31 ≤ raw ∧ raw ≤ 0x35

def toLowerByte (raw : UInt8) : UInt8 := if 0x41 ≤ raw ∧ raw ≤ 0x5A then raw+32 else raw

def isLowerByte (b : UInt8) : Bool := 0x61 ≤ b ∧ b ≤ 0x7A

/-- The loop that `NormalizePinyin` and `SplitPinyin` share: a letter, or a boundary. It fails on
any other byte. After `u:` one byte is skipped. -/
def readPinyin : (skip : Bool) → Bytes → Option (List (Option UInt8))
  | _, [] => some []
  | true, _ :: rest => readPinyin false rest
  | false, raw :: rest =>
    if isHardBoundary raw then (readPinyin false rest).map (none :: ·)
    else if isToneDigit raw then readPinyin false rest
    else
      let lower := toLowerByte raw
      if ¬isLowerByte lower then none
      else if lower = 0x75 ∧ rest.head? = some 0x3A then
        (readPinyin true rest).map (some 0x76 :: ·)
      else (readPinyin false rest).map (some lower :: ·)

def normalizePinyin (input : Bytes) : Bytes :=
  match readPinyin false input with
  | none => []
  | some pieces => pieces.filterMap id

def flush (token : Bytes) : List Bytes := if token = [] then [] else [token]

def tokens (token : Bytes) : List (Option UInt8) → List Bytes
  | [] => flush token
  | none :: rest => flush token ++ tokens [] rest
  | some b :: rest => tokens (token ++ [b]) rest

def splitPinyin (input : Bytes) : List Bytes :=
  match readPinyin false input with
  | none => []
  | some pieces => tokens [] pieces

def isSyllable (syllable : Bytes) : Bool :=
  let normalized := normalizePinyin syllable
  normalized ≠ [] ∧ normalized ∈ builtInSyllables

theorem builtInSyllables_lower {w : Bytes} (h : w ∈ builtInSyllables) :
    w ≠ [] ∧ ∀ b ∈ w, isLowerByte b = true := by
  have hall : kSyllables.all (fun row => ((lit row).splitOn 0x20).all (fun w =>
      !w.isEmpty && w.all isLowerByte)) = true := by decide +kernel
  obtain ⟨row, hrow, hw⟩ := mem_flatMap.mp h
  have hword := all_eq_true.mp (all_eq_true.mp hall row hrow) w hw
  rw [Bool.and_eq_true, all_eq_true] at hword
  refine ⟨?_, hword.2⟩
  rintro rfl
  exact absurd hword.1 (by decide)

theorem isLowerByte_facts {b : UInt8} (h : isLowerByte b = true) :
    isHardBoundary b = false ∧ isToneDigit b = false ∧ toLowerByte b = b := by
  revert b
  decide +kernel

theorem readPinyin_word (w rest : Bytes) (hw : ∀ b ∈ w, isLowerByte b = true)
    (hrest : rest.head? ≠ some 0x3A) :
    readPinyin false (w ++ rest) = (readPinyin false rest).map (w.map some ++ ·) := by
  induction w with
  | nil => simp
  | cons b w ih =>
    obtain ⟨hb, hlower⟩ := forall_mem_cons.mp hw
    have hfacts := isLowerByte_facts hb
    have hcolon : (w ++ rest).head? ≠ some 0x3A := by
      rcases w with _ | ⟨c, w⟩
      · exact hrest
      · intro hhead
        cases hhead
        exact absurd (hlower _ mem_cons_self) (by decide)
    simp only [cons_append, readPinyin, hfacts, hb, hcolon, ih hlower, Bool.false_eq_true, if_false,
      not_true, and_false, Option.map_map, map_cons]
    rfl

theorem tokens_word (token w : Bytes) (rest : List (Option UInt8)) :
    tokens token (w.map some ++ rest) = tokens (token ++ w) rest := by
  induction w generalizing token with
  | nil => simp
  | cons b w ih =>
    rw [map_cons, cons_append, tokens, ih, append_assoc]
    rfl

theorem mem_of_mem_intercalate {α : Type} {sep : List α} {ws : List (List α)} {b : α}
    (h : b ∈ sep.intercalate ws) : b ∈ sep ∨ ∃ w ∈ ws, b ∈ w := by
  induction ws with
  | nil => cases h
  | cons w ws ih =>
    rcases ws with _ | ⟨w', ws⟩
    · rw [intercalate_singleton] at h
      exact .inr ⟨w, mem_cons_self, h⟩
    · rw [intercalate_cons_cons, mem_append, mem_append] at h
      rcases h with (h | h) | h
      · exact .inr ⟨w, mem_cons_self, h⟩
      · exact .inl h
      · rcases ih h with h | ⟨v, hv, hb⟩
        · exact .inl h
        · exact .inr ⟨v, mem_cons_of_mem w hv, hb⟩

/-- Words with a separator between any two, which may be another one in every place. -/
def joinWords (separator : ℕ → UInt8) : List Bytes → Bytes
  | [] => []
  | [w] => w
  | w :: w' :: ws => w ++ separator ws.length :: joinWords separator (w' :: ws)

theorem splitPinyin_joinWords (separator : ℕ → UInt8)
    (hsep : ∀ n, isHardBoundary (separator n) = true) {ws : List Bytes}
    (h : ∀ w ∈ ws, w ≠ [] ∧ ∀ b ∈ w, isLowerByte b = true) :
    splitPinyin (joinWords separator ws) = ws := by
  suffices hread : ∃ pieces, readPinyin false (joinWords separator ws) = some pieces ∧
      tokens [] pieces = ws by
    obtain ⟨pieces, hpieces, htokens⟩ := hread
    rw [splitPinyin, hpieces]
    exact htokens
  induction ws with
  | nil => exact ⟨[], rfl, rfl⟩
  | cons w ws ih =>
    obtain ⟨⟨hw, hlower⟩, hrest⟩ := forall_mem_cons.mp h
    rcases ws with _ | ⟨w', ws⟩
    · have hread := readPinyin_word w [] hlower (by simp)
      rw [append_nil] at hread
      refine ⟨_, hread, ?_⟩
      rw [tokens_word, nil_append, tokens, flush, if_neg hw]
    · obtain ⟨pieces, hpieces, htokens⟩ := ih hrest
      have hcolon : separator ws.length ≠ 0x3A := by
        intro he
        have hbound := hsep ws.length
        rw [he] at hbound
        exact absurd hbound (by decide)
      refine ⟨w.map some ++ none :: pieces, ?_, ?_⟩
      · rw [joinWords, readPinyin_word w _ hlower (by simpa using hcolon), readPinyin,
          if_pos (hsep _), hpieces]
        rfl
      · rw [tokens_word, nil_append, tokens, htokens, flush, if_neg hw]
        rfl

theorem splitPinyin_intercalate {ws : List Bytes}
    (h : ∀ w ∈ ws, w ≠ [] ∧ ∀ b ∈ w, isLowerByte b = true) :
    splitPinyin ([0x20].intercalate ws) = ws := by
  have hjoin : [0x20].intercalate ws = joinWords (fun _ => 0x20) ws := by
    induction ws with
    | nil => rfl
    | cons w ws ih =>
      rcases ws with _ | ⟨w', ws⟩
      · exact intercalate_singleton
      · rw [intercalate_cons_cons, ih (forall_mem_cons.mp h).2, joinWords,
          append_assoc]
        rfl
  rw [hjoin]
  exact splitPinyin_joinWords _ (fun _ => by decide) h

theorem normalizePinyin_lower (w : Bytes) (h : ∀ b ∈ w, isLowerByte b = true) :
    normalizePinyin w = w := by
  have hread := readPinyin_word w [] h (by simp)
  rw [append_nil] at hread
  rw [normalizePinyin, hread]
  simp [readPinyin]

theorem isSyllable_builtIn {w : Bytes} (h : w ∈ builtInSyllables) : isSyllable w = true := by
  obtain ⟨hne, hlower⟩ := builtInSyllables_lower h
  rw [isSyllable, normalizePinyin_lower w hlower]
  exact decide_eq_true ⟨hne, h⟩

end Engine

namespace Snapshot

def kMaxPhraseBytes : ℕ := 512
def kMaxPinyinBytes : ℕ := 256
def kMaxSourceBytes : ℕ := 128
def kMaxPrivateSnapshotEntries : ℕ := 100000

inductive PhraseOrigin where
  | base | publicPack | history | imported | personal
  deriving DecidableEq, Repr

structure PhraseEntry where
  id : Bytes
  text : Bytes
  syllables : List Bytes
  origin : PhraseOrigin
  useCount : ℕ
  staticWeight : ℤ
  pinned : Bool
  learned : Bool
  privateExactCodeOnly : Bool
  syncedLearning : Bool
  deriving DecidableEq, Repr

def PhraseEntry.content (e : PhraseEntry) : Bytes × List Bytes × ℕ :=
  (e.text, e.syllables, e.useCount)

structure SnapshotLoadResult where
  entries : List PhraseEntry
  acceptedRows : ℕ
  rejectedRows : ℕ
  headerValid : Bool
  deriving DecidableEq, Repr

def splitTabs (line : Bytes) : List Bytes := line.splitOn 0x09

/-- The lines `std::getline` reads; the end of the input ends no line of its own. -/
def getLines (input : Bytes) : List Bytes :=
  let lines := input.splitOn 0x0A
  if lines.getLast? = some [] then lines.dropLast else lines

def dropReturn (line : Bytes) : Bytes := if line.getLast? = some 0x0D then line.dropLast else line

/-- `std::from_chars` for a decimal `uint64_t`: the number and what follows it. -/
def fromChars (text : Bytes) : Option (ℕ × Bytes) :=
  let isDigit := fun c : UInt8 => decide (0x30 ≤ c ∧ c ≤ 0x39)
  let digits := text.takeWhile isDigit
  let parsed := digits.foldl (fun n c => 10*n+(c.toNat-48)) 0
  if digits = [] ∨ 2^64 ≤ parsed then none else some (parsed, text.dropWhile isDigit)

def parseCount (text : Bytes) : Option ℕ :=
  match fromChars text with
  | some (parsed, []) => if parsed = 0 then none else some parsed
  | _ => none

def isSynchronizedLearningSource (source : Bytes) : Bool :=
  let start := lit "synced_learning@"
  source.take start.length = start ∧ (parseCount (source.drop start.length)).isSome

def parsePinned (value : Bytes) : Bool :=
  asciiLower value ∈ [lit "1", lit "true", lit "yes", lit "pinned"]

def found (word source : Bytes) : Bool := source.tails.any (fun rest => word.isPrefixOf rest)

def originForSource (source : Bytes) : PhraseOrigin :=
  let source := asciiLower source
  if [lit "history", lit "chatgpt", lit "codex"].any (fun word => found word source) then .history
  else if [lit "sogou", lit "scel", lit "sgpybin", lit "import"].any
    (fun word => found word source) then .imported
  else .personal

def appendHash (hash : UInt64) (value : Bytes) : UInt64 :=
  value.foldl (fun hash byte => (hash ^^^ byte.toUInt64)*1099511628211) hash

def stableId (phrase pinyin : Bytes) : Bytes :=
  let hash := appendHash 1469598103934665603 phrase
  let hash := (hash ^^^ 0xFF)*1099511628211
  let hash := appendHash hash pinyin
  lit "yp-" ++ (List.range 16).map (fun i => hexDigit (hash.toNat/16^(15-i)%16))

def isExpectedHeader (fields : List Bytes) : Bool :=
  fields.take 4 = [lit "phrase", lit "pinyin", lit "source", lit "use_count"] ∧
    (fields.length = 4 ∨ (fields.length = 5 ∧ fields.drop 4 = [lit "pinned"]))

def isLegacyPrivateSnapshotToken (syllable : Bytes) : Bool :=
  (syllable.length = 1 ∧ syllable.all Engine.isLowerByte) ∨
    syllable ∈ [lit "fiao", lit "kei", lit "tei"]

/-- The loop over the syllables of a row: none when one is neither built in nor a legacy token,
else whether a legacy token was met. -/
def checkSyllables (privateExactCodeOnly : Bool) : List Bytes → Option Bool
  | [] => some privateExactCodeOnly
  | syllable :: rest =>
    if Engine.isSyllable syllable then checkSyllables privateExactCodeOnly rest
    else if isLegacyPrivateSnapshotToken syllable then checkSyllables true rest
    else none

def readRow (fieldCount : ℕ) (fields : List Bytes) : Option PhraseEntry :=
  match fields with
  | phrase :: pinyin :: source :: count :: rest =>
    if fields.length ≠ fieldCount ∨ phrase = [] ∨ phrase.length > kMaxPhraseBytes ∨ pinyin = [] ∨
        pinyin.length > kMaxPinyinBytes ∨ source.length > kMaxSourceBytes then none
    else
      let syllables := Engine.splitPinyin pinyin
      match checkSyllables false syllables, parseCount count with
      | some privateExactCodeOnly, some useCount =>
        if syllables = [] then none
        else if privateExactCodeOnly ∧ (Engine.normalizePinyin pinyin).length < 2 then none
        else some
          { id := stableId phrase pinyin, text := phrase, syllables := syllables,
            origin := originForSource source, useCount := useCount, staticWeight := 0,
            pinned := fieldCount = 5 ∧ parsePinned (rest.headD []),
            learned := useCount ≥ 2, privateExactCodeOnly := privateExactCodeOnly,
            syncedLearning := isSynchronizedLearningSource source }
      | _, _ => none
  | _ => none

structure LoadState where
  result : SnapshotLoadResult
  ids : List Bytes

def LoadState.reject (st : LoadState) : LoadState :=
  { st with result := { st.result with rejectedRows := st.result.rejectedRows+1 } }

def LoadState.accept (st : LoadState) (entry : PhraseEntry) : LoadState :=
  { result := { st.result with entries := st.result.entries ++ [entry],
                               acceptedRows := st.result.acceptedRows+1 },
    ids := entry.id :: st.ids }

def loadLine (fieldCount : ℕ) (st : LoadState) (line : Bytes) : LoadState :=
  let line := dropReturn line
  if line = [] ∨ line.head? = some 0x23 then st
  else if st.result.entries.length ≥ kMaxPrivateSnapshotEntries then st.reject
  else match readRow fieldCount (splitTabs line) with
    | none => st.reject
    | some entry => if entry.id ∈ st.ids then st.reject else st.accept entry

def parsePrivateSnapshot (input : Bytes) : SnapshotLoadResult :=
  match getLines input with
  | [] => { entries := [], acceptedRows := 0, rejectedRows := 0, headerValid := false }
  | line :: lines =>
    let header := splitTabs (dropReturn line)
    let result : SnapshotLoadResult :=
      { entries := [], acceptedRows := 0, rejectedRows := 0, headerValid := isExpectedHeader header }
    if result.headerValid then
      (lines.foldl (loadLine header.length) { result := result, ids := [] }).result
    else result

theorem getLines_rows (rows : List Bytes) (h : ∀ row ∈ rows, 0x0A ∉ row) :
    getLines (rows.flatMap (fun row => row ++ [0x0A])) = rows := by
  have hjoin : rows.flatMap (fun row => row ++ [0x0A]) = [0x0A].intercalate (rows ++ [[]]) := by
    induction rows with
    | nil => rfl
    | cons row rows ih =>
      have hne : rows ++ [[]] ≠ [] := by simp
      rw [flatMap_cons, ih (forall_mem_cons.mp h).2, cons_append,
        intercalate_cons_of_ne_nil hne]
  have hsplit : (rows.flatMap (fun row => row ++ [0x0A])).splitOn 0x0A = rows ++ [[]] := by
    rw [hjoin, splitOn_intercalate 0x0A ?_ (by simp)]
    intro row hrow
    rcases mem_append.mp hrow with hrow | hrow
    · exact h row hrow
    · rw [mem_singleton.mp hrow]
      exact not_mem_nil
  rw [getLines, hsplit, getLast?_concat, if_pos rfl, dropLast_concat]

open JsonText (decimal isDigit_decimal digitsValue_decimal decimal_ne_nil)

theorem parseCount_digits (n : ℕ) (hpos : 0 < n) (hlt : n < 2^64) :
    parseCount (decimal n) = some n := by
  have htext : ∀ b ∈ decimal n, decide (0x30 ≤ b ∧ b ≤ 0x39) = true := isDigit_decimal n
  have hvalue : (decimal n).foldl (fun n c => 10*n+(c.toNat-48)) 0 = n := digitsValue_decimal n
  have hchars : fromChars (decimal n) = some (n, []) := by
    simp only [fromChars, takeWhile_eq_self_iff.mpr htext, dropWhile_eq_nil_iff.mpr htext,
      hvalue]
    rw [if_neg]
    rintro (h | h)
    · exact decimal_ne_nil n h
    · omega
  simp only [parseCount, hchars]
  exact if_neg (by omega)

theorem checkSyllables_builtIn (known : Bool) {ws : List Bytes}
    (h : ∀ w ∈ ws, Engine.isSyllable w = true) : checkSyllables known ws = some known := by
  induction ws with
  | nil => rfl
  | cons w ws ih =>
    rw [checkSyllables, if_pos (h w mem_cons_self)]
    exact ih (forall_mem_cons.mp h).2

/-- A row of four fields with built-in syllables and a count is rejected only for its phrase or
the length of its source. -/
theorem readRow_four {phrase source count : Bytes} {ws : List Bytes} {n : ℕ} (hne : ws ≠ [])
    (hws : ∀ w ∈ ws, w ∈ Engine.builtInSyllables)
    (hlen : ([0x20].intercalate ws).length ≤ kMaxPinyinBytes) (hcount : parseCount count = some n) :
    (readRow 4 [phrase, [0x20].intercalate ws, source, count]).map
        (fun e => (e.id, e.content)) =
      if phrase = [] ∨ phrase.length > kMaxPhraseBytes ∨ source.length > kMaxSourceBytes then none
      else some (stableId phrase ([0x20].intercalate ws), phrase, ws, n) := by
  have hsplit := Engine.splitPinyin_intercalate
    (fun w hw => Engine.builtInSyllables_lower (hws w hw))
  have hcheck := checkSyllables_builtIn false (fun w hw => Engine.isSyllable_builtIn (hws w hw))
  have hpinyin : [0x20].intercalate ws ≠ [] := by
    intro hnil
    rw [hnil] at hsplit
    exact hne (hsplit.symm.trans rfl)
  simp only [readRow, hsplit, hcheck, hcount, hne, hpinyin, Nat.not_lt.mpr hlen, gt_iff_lt,
    length_cons, length_nil, Bool.false_eq_true, false_and, if_false, false_or, ne_eq,
    Nat.reduceAdd, not_true_eq_false]
  split_ifs <;> rfl

theorem loadLine_cases (fieldCount : ℕ) (st : LoadState) (line : Bytes) :
    (loadLine fieldCount st line).result.entries = st.result.entries ∨
      ((dropReturn line).head? ≠ some 0x23 ∧
        ∃ entry, readRow fieldCount (splitTabs (dropReturn line)) = some entry ∧
          loadLine fieldCount st line = st.accept entry) := by
  simp only [loadLine]
  by_cases hskip : dropReturn line = [] ∨ (dropReturn line).head? = some 0x23
  · rw [if_pos hskip]
    exact .inl rfl
  rw [if_neg hskip]
  by_cases hfull : st.result.entries.length ≥ kMaxPrivateSnapshotEntries
  · rw [if_pos hfull]
    exact .inl rfl
  rw [if_neg hfull]
  cases hrow : readRow fieldCount (splitTabs (dropReturn line)) with
  | none => exact .inl rfl
  | some entry =>
    by_cases hid : entry.id ∈ st.ids
    · simp only [hid, if_true]
      exact .inl rfl
    · simp only [hid, if_false]
      exact .inr ⟨fun h => hskip (.inr h), entry, rfl, rfl⟩

theorem foldl_loadLine_entries (fieldCount : ℕ) (lines : List Bytes) (st : LoadState) :
    ∃ more, (lines.foldl (loadLine fieldCount) st).result.entries = st.result.entries ++ more ∧
      more.length ≤ lines.length := by
  induction lines generalizing st with
  | nil => exact ⟨[], (append_nil _).symm, le_rfl⟩
  | cons line lines ih =>
    obtain ⟨more, hmore, hlen⟩ := ih (loadLine fieldCount st line)
    rw [foldl_cons, hmore, length_cons]
    rcases loadLine_cases fieldCount st line with he | ⟨_, entry, _, he⟩
    · exact ⟨more, by rw [he], by omega⟩
    · refine ⟨entry :: more, ?_, by rw [length_cons]; omega⟩
      rw [he, LoadState.accept, append_assoc]
      rfl

end Snapshot
end YunPin
