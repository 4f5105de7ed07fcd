import YunPin.ScalarText

/-! The merged candidate stream of the input-method filter: a bounded look-ahead on the upstream
translation, its stable re-sort, the guard for automatic corrections, the promotion of a natively
learned phrase, and then lazy streaming of the rest. -/
namespace YunPin
open ByteText List

namespace RimeFilter
open ScalarText (isPureCjkAtLeast)

def kCandidatePageSize : ℕ := 8

/-- What the filter asks of the dictionary phrase behind a candidate. -/
structure Phrase where
  language : Option Bytes
  isExactMatch : Bool
  code : List ℕ
  isCorrection : Bool
  type : Bytes
  commitCount : ℤ
  deriving DecidableEq, Repr

structure YunPinCandidate where
  language : Option Bytes
  pinned : Bool
  correctionScore : ℤ
  syncedLearning : Bool
  useCount : ℕ
  deriving DecidableEq, Repr

structure Candidate where
  text : Bytes
  start : ℕ
  stop : ℕ
  isCorrection : Bool
  genuine : Option Phrase
  yunpin : Option YunPinCandidate
  deriving DecidableEq, Repr

structure Guards where
  suppressLongCjkUpstream : Bool
  protectLongCorrections : Bool
  deriving DecidableEq, Repr

def Guards.hides (g : Guards) (c : Candidate) : Bool :=
  g.suppressLongCjkUpstream && isPureCjkAtLeast c.text 3

def Guards.suppressed (g : Guards) (injectedText : List Bytes) (c : Candidate)
    (discardLongCorrection : Bool) : Bool :=
  decide (c.text ∈ injectedText) || g.hides c ||
    (discardLongCorrection && g.protectLongCorrections && c.isCorrection)

structure LookAhead where
  window : List Candidate
  evidence : List Candidate
  upstream : List Candidate

/-- The loop of `PrepareUpstreamWindow`: it reads until the window has `limit` candidates. -/
def lookAhead (g : Guards) (injectedText : List Bytes) (limit : ℕ)
    (window evidence : List Candidate) : List Candidate → LookAhead
  | [] => ⟨window, evidence, []⟩
  | c :: rest =>
    if window.length < limit then
      lookAhead g injectedText limit
        (if g.suppressed injectedText c false then window else window ++ [c])
        (if evidence.length < kCandidatePageSize ∧ ¬g.hides c then evidence ++ [c] else evidence)
        rest
    else ⟨window, evidence, c :: rest⟩

/-- `stable_sort` by falling score; insertion from the right keeps equal scores in order. -/
def sortByScore (score : Bytes → ℤ) (window : List Candidate) : List Candidate :=
  window.insertionSort (fun left right => score left.text ≥ score right.text)

def protectLongCorrections (g : Guards) (frontSize : ℕ) (window : List Candidate) :
    List Candidate :=
  if ¬g.protectLongCorrections ∨ window = [] then window
  else
    let ordered := window.filter (fun c => !c.isCorrection)
    -- no ordinary candidate: all corrections are erased
    if ordered = [] then ordered
    else
      match window.find? (fun c => c.isCorrection) with
      | none => ordered
      | some selectedCorrection =>
        if frontSize < 2 then ordered.take 1 ++ selectedCorrection :: ordered.drop 1
        else ordered

/-- `exact_phrase`: the phrase behind a candidate that spells the same input in the same language
as the injected one. -/
def exactPhrase (head : Candidate) (injected : YunPinCandidate) (c : Candidate) : Option Phrase :=
  match c.genuine, injected.language with
  | some phrase, some language =>
    if phrase.language = some language ∧ phrase.isExactMatch ∧ phrase.code ≠ [] ∧
        ¬c.isCorrection ∧ ¬phrase.isCorrection ∧ c.start = head.start ∧ c.stop = head.stop then
      some phrase
    else none
  | _, _ => none

/-- Whether the loop of `PromoteLearnedUpstream` takes the candidate at this place. -/
def promotes (head : Candidate) (injected : YunPinCandidate) (injectedNative : Option ℕ)
    (c : Candidate) (index : ℕ) : Bool :=
  match exactPhrase head injected c with
  | none => false
  | some phrase =>
    let nativePrecedes : Bool := match injectedNative with
      | none => false
      | some native => index < native
    let comparableCounts : Bool := injectedNative.isNone ∧ injected.syncedLearning ∧
      phrase.commitCount > 0 ∧ phrase.commitCount ≥ injected.useCount
    decide (phrase.type = lit "user_phrase") && (nativePrecedes || comparableCounts)

/-- The natively learned candidate that goes before the first injected one, if there is one. -/
def promoted (front evidence : List Candidate) : Option Candidate :=
  match front with
  | [] => none
  | head :: _ =>
    match head.yunpin with
    | none => none
    | some injected =>
      if injected.pinned ∨ injected.correctionScore > 0 then none
      else
        let injectedNative := evidence.findIdx?
          (fun c => c.text = head.text ∧ (exactPhrase head injected c).isSome)
        (evidence.zipIdx.find? (fun p => promotes head injected injectedNative p.1 p.2)).map
          Prod.fst

def promoteLearnedUpstream (front window evidence : List Candidate) :
    List Candidate × List Candidate :=
  match promoted front evidence with
  | none => (front, window)
  | some c =>
    (c :: front.filter (fun item => item.text ≠ c.text),
      window.filter (fun item => item.text ≠ c.text))

inductive Source where
  | front | window | upstream | none
  deriving DecidableEq, Repr

structure YunPinMergedTranslation where
  upstream : List Candidate
  front : List Candidate
  window : List Candidate
  injectedText : List Bytes
  frontCursor : ℕ
  windowCursor : ℕ
  guards : Guards
  exhausted : Bool
  deriving DecidableEq, Repr

namespace YunPinMergedTranslation

def selectSource (t : YunPinMergedTranslation) : Source :=
  if t.frontCursor < t.front.length then .front
  else if t.windowCursor < t.window.length then .window
  else if t.upstream ≠ [] then .upstream
  else .none

def refreshExhausted (t : YunPinMergedTranslation) : YunPinMergedTranslation :=
  { t with exhausted := t.selectSource = .none }

def skipSuppressedUpstream (t : YunPinMergedTranslation) : YunPinMergedTranslation :=
  { t with upstream := t.upstream.dropWhile (fun c => t.guards.suppressed t.injectedText c true) }

def next (t : YunPinMergedTranslation) : YunPinMergedTranslation × Bool :=
  match t.selectSource with
  | .front => ({ t with frontCursor := t.frontCursor+1 }.refreshExhausted, true)
  | .window =>
    let t := { t with windowCursor := t.windowCursor+1 }
    let t := if t.windowCursor = t.window.length then t.skipSuppressedUpstream else t
    (t.refreshExhausted, true)
  | .upstream =>
    ({ t with upstream := t.upstream.tail }.skipSuppressedUpstream.refreshExhausted, true)
  | .none => (t, false)

def peek (t : YunPinMergedTranslation) : Option Candidate :=
  match t.selectSource with
  | .front => t.front[t.frontCursor]?
  | .window => t.window[t.windowCursor]?
  | .upstream => t.upstream.head?
  | .none => none

def prepared (g : Guards) (front upstream : List Candidate) : LookAhead :=
  lookAhead g (front.map Candidate.text) (kCandidatePageSize-front.length) [] [] upstream

def preparedWindow (g : Guards) (front upstream : List Candidate) (score : Bytes → ℤ) :
    List Candidate :=
  protectLongCorrections g front.length (sortByScore score (prepared g front upstream).window)

def make (upstream front : List Candidate) (g : Guards) (score : Bytes → ℤ) :
    YunPinMergedTranslation :=
  let ahead := prepared g front upstream
  let window := preparedWindow g front upstream score
  let heads := promoteLearnedUpstream front window ahead.evidence
  let t : YunPinMergedTranslation :=
    { upstream := ahead.upstream, front := heads.1, window := heads.2
      injectedText := front.map Candidate.text, frontCursor := 0, windowCursor := 0, guards := g
      exhausted := false }
  t.skipSuppressedUpstream.refreshExhausted

def after (t : YunPinMergedTranslation) : ℕ → YunPinMergedTranslation
  | 0 => t
  | k+1 => (t.after k).next.1

/-- The sequence that a reader gets from `Peek` and `Next`, up to exhaustion: at every place `Peek`
shows its candidate, and `Next` moves on until there is none. -/
def Reads (t : YunPinMergedTranslation) (emitted : List Candidate) : Prop :=
  ∀ k, (t.after k).peek = emitted[k]? ∧
    (t.after k).exhausted = decide (emitted.length ≤ k) ∧
    (t.after k).next.2 = decide (k < emitted.length)

def remaining (t : YunPinMergedTranslation) : List Candidate :=
  t.front.drop t.frontCursor ++ (t.window.drop t.windowCursor ++
    t.upstream.filter (fun c => !t.guards.suppressed t.injectedText c true))

/-- Between two calls: the upstream stands at a candidate that is shown, and the flag is right. -/
structure Ready (t : YunPinMergedTranslation) : Prop where
  shown : ∀ c, t.upstream.head? = some c → t.guards.suppressed t.injectedText c true = false
  flag : t.exhausted = decide (t.selectSource = .none)

theorem filter_dropWhile {α : Type} (p : α → Bool) {l : List α} :
    (l.dropWhile p).filter (fun a => !p a) = l.filter (fun a => !p a) := by
  induction l with
  | nil => rfl
  | cons a l ih => grind [dropWhile_cons]

theorem head?_dropWhile_false {α : Type} (p : α → Bool) {l : List α} (a : α)
    (h : (l.dropWhile p).head? = some a) : p a = false := by
  have hnot := head?_dropWhile_not p l
  rw [h] at hnot
  exact hnot

variable (t : YunPinMergedTranslation)

theorem ready_refresh
    (h : ∀ c, t.upstream.head? = some c → t.guards.suppressed t.injectedText c true = false) :
    t.refreshExhausted.Ready :=
  ⟨h, rfl⟩

theorem ready_skip : t.skipSuppressedUpstream.refreshExhausted.Ready :=
  ready_refresh _ (fun c hc => head?_dropWhile_false _ c hc)

theorem remaining_skip : t.skipSuppressedUpstream.remaining = t.remaining := by
  rw [remaining, remaining]
  exact congrArg _ (congrArg _ (filter_dropWhile _))

theorem remaining_refresh : t.refreshExhausted.remaining = t.remaining := rfl

theorem drop_cons_of_lt {α : Type} {l : List α} {k : ℕ} (h : k < l.length) :
    ∃ a, l[k]? = some a ∧ l.drop k = a :: l.drop (k+1) :=
  ⟨l[k], getElem?_eq_getElem h, drop_eq_getElem_cons h⟩

theorem step {t : YunPinMergedTranslation} (h : t.Ready) :
    t.peek = t.remaining.head? ∧ t.exhausted = t.remaining.isEmpty ∧
      t.next.2 = !t.remaining.isEmpty ∧ t.next.1.remaining = t.remaining.tail ∧
      t.next.1.Ready := by
  have hflag := h.flag
  rw [peek, next]
  cases hsource : t.selectSource <;> rw [hsource] at hflag <;> rw [selectSource] at hsource <;>
    split_ifs at hsource with hfront hwindow hup
  · obtain ⟨a, hget, hdrop⟩ := drop_cons_of_lt hfront
    have hrest : t.remaining = a :: ({ t with frontCursor := t.frontCursor+1 } :
        YunPinMergedTranslation).remaining := by
      rw [remaining, hdrop]
      rfl
    rw [hrest]
    exact ⟨hget, hflag, rfl, rfl, ready_refresh _ h.shown⟩
  · obtain ⟨a, hget, hdrop⟩ := drop_cons_of_lt hwindow
    have hrest : t.remaining = a :: ({ t with windowCursor := t.windowCursor+1 } :
        YunPinMergedTranslation).remaining := by
      rw [remaining, remaining, drop_eq_nil_of_le (not_lt.mp hfront), hdrop]
      rfl
    rw [hrest]
    dsimp only
    refine ⟨hget, hflag, rfl, ?_⟩
    split_ifs
    · exact ⟨remaining_skip { t with windowCursor := t.windowCursor+1 }, ready_skip _⟩
    · exact ⟨rfl, ready_refresh _ h.shown⟩
  · obtain ⟨c, rest, hup⟩ := exists_cons_of_ne_nil hup
    have hshown := h.shown c (by rw [hup]; rfl)
    have hrest : t.remaining = c :: ({ t with upstream := t.upstream.tail } :
        YunPinMergedTranslation).remaining := by
      rw [remaining, remaining, drop_eq_nil_of_le (not_lt.mp hfront),
        drop_eq_nil_of_le (not_lt.mp hwindow), hup, filter_cons, hshown]
      rfl
    rw [hrest]
    refine ⟨by rw [hup]; rfl, hflag, rfl, ?_, ready_skip _⟩
    exact remaining_skip { t with upstream := t.upstream.tail }
  · have hrest : t.remaining = [] := by
      rw [remaining, drop_eq_nil_of_le (not_lt.mp hfront),
        drop_eq_nil_of_le (not_lt.mp hwindow), not_not.mp hup]
      rfl
    rw [hrest]
    exact ⟨rfl, hflag, rfl, rfl, h⟩

theorem reads_remaining (h : t.Ready) : t.Reads t.remaining := by
  have hrun : ∀ k, (t.after k).Ready ∧ (t.after k).remaining = t.remaining.drop k := by
    intro k
    induction k with
    | zero => exact ⟨h, rfl⟩
    | succ k ih =>
      have hstep := step ih.1
      refine ⟨hstep.2.2.2.2, ?_⟩
      rw [after, hstep.2.2.2.1, ih.2, tail_drop]
  intro k
  obtain ⟨hready, hrest⟩ := hrun k
  obtain ⟨hpeek, hexhausted, hnext, -, -⟩ := step hready
  rw [hrest] at hpeek hexhausted hnext
  have hempty : (t.remaining.drop k).isEmpty = decide (t.remaining.length ≤ k) := by
    rw [Bool.eq_iff_iff, List.isEmpty_iff, drop_eq_nil_iff, decide_eq_true_eq]
  refine ⟨hpeek.trans (head?_drop ..), hexhausted.trans hempty, ?_⟩
  rw [hnext, hempty, ← decide_not]
  exact decide_eq_decide.mpr not_le

theorem Reads.unique {t : YunPinMergedTranslation} {e e' : List Candidate} (h : t.Reads e)
    (h' : t.Reads e') : e = e' :=
  ext_getElem? (fun k => (h k).1.symm.trans (h' k).1)

theorem make_ready (upstream front : List Candidate) (g : Guards) (score : Bytes → ℤ) :
    (make upstream front g score).Ready := ready_skip _

end YunPinMergedTranslation

variable (g : Guards) (frontSize : ℕ) (window : List Candidate) (injectedText : List Bytes)
  (c : Candidate)

/-- The look-ahead splits the upstream: from the part it has read, the window holds what is not
suppressed, and the evidence holds nothing that the short-input guard hides. -/
theorem lookAhead_spec (g : Guards) (injectedText : List Bytes) {limit : ℕ}
    (window evidence upstream : List Candidate) (hlimit : window.length ≤ limit) :
    ∃ taken, upstream =
        taken ++ (lookAhead g injectedText limit window evidence upstream).upstream ∧
      (lookAhead g injectedText limit window evidence upstream).window =
        window ++ taken.filter (fun c => !g.suppressed injectedText c false) ∧
      (∀ c ∈ (lookAhead g injectedText limit window evidence upstream).evidence,
        c ∈ evidence ∨ (c ∈ taken ∧ g.hides c = false)) ∧
      (lookAhead g injectedText limit window evidence upstream).window.length ≤ limit := by
  fun_induction lookAhead g injectedText limit window evidence upstream with
  | case1 => exact ⟨[], by simp [hlimit]⟩
  | case2 window evidence c rest hroom ih =>
    obtain ⟨taken, hsplit, hwindow, hevidence, hlength⟩ := ih (by grind)
    exact ⟨c :: taken, by rw [cons_append, ← hsplit], by grind, by grind, hlength⟩
  | case3 => exact ⟨[], by simp [hlimit]⟩

/-- The correction guard leaves the window as it is when it is off; when it is on it leaves the
ordinary candidates, with at most one correction in the second place. -/
theorem protect_cases (g : Guards) (frontSize : ℕ) (window : List Candidate) :
    (g.protectLongCorrections = false ∧ protectLongCorrections g frontSize window = window) ∨
    (g.protectLongCorrections = true ∧ protectLongCorrections g frontSize window =
      window.filter (fun c => !c.isCorrection)) ∨
    (g.protectLongCorrections = true ∧ frontSize < 2 ∧ ∃ o rest c,
      window.filter (fun c => !c.isCorrection) = o :: rest ∧ c ∈ window ∧
      c.isCorrection = true ∧ protectLongCorrections g frontSize window = o :: c :: rest) := by
  rw [protectLongCorrections]
  cases hordered : window.filter (fun c => !c.isCorrection) with
  | nil => grind
  | cons o rest =>
    cases hfind : window.find? (fun c => c.isCorrection) with
    | none => grind
    | some c =>
      have hmem := mem_of_find?_eq_some hfind
      have hcorrection := find?_some hfind
      grind

theorem protect_subperm (g : Guards) (frontSize : ℕ) (window : List Candidate) :
    (protectLongCorrections g frontSize window).Subperm window := by
  rcases protect_cases g frontSize window with ⟨-, h⟩ | ⟨-, h⟩ | ⟨-, -, o, rest, c, hord, hc, hcorr, h⟩
  · rw [h]
  · rw [h]
    exact filter_sublist.subperm
  · rw [h]
    -- the correction and the ordinary candidates are two disjoint parts of the window
    have hparts := (filter_append_perm (fun c : Candidate => c.isCorrection) window).subperm
    have hone : [c].Subperm (window.filter (fun c => c.isCorrection)) :=
      singleton_subperm_iff.mpr (mem_filter.mpr ⟨hc, hcorr⟩)
    have hboth := (hone.append (List.Subperm.refl (window.filter (fun c => !c.isCorrection)))).trans
      hparts
    rw [hord] at hboth
    exact (List.Perm.swap c o rest).subperm.trans hboth

theorem mem_protect {g : Guards} {frontSize : ℕ} {window : List Candidate} {c : Candidate}
    (hc : c ∈ window) (hord : g.protectLongCorrections = true → c.isCorrection = false) :
    c ∈ protectLongCorrections g frontSize window := by
  have hfilter (hg : g.protectLongCorrections = true) :
      c ∈ window.filter (fun c => !c.isCorrection) :=
    mem_filter.mpr ⟨hc, by rw [hord hg]; rfl⟩
  rcases protect_cases g frontSize window with ⟨-, h⟩ | ⟨hg, h⟩ | ⟨hg, -, o, rest, d, ho, -, -, h⟩
  · rwa [h]
  · rw [h]
    exact hfilter hg
  · have hmem := hfilter hg
    grind

theorem exactPhrase_ordinary {head : Candidate} {injected : YunPinCandidate} {c : Candidate}
    {phrase : Phrase} (h : exactPhrase head injected c = some phrase) : c.isCorrection = false := by
  rw [exactPhrase] at h
  split at h
  · split_ifs at h with hcond
    exact Bool.eq_false_iff.mpr hcond.2.2.2.1
  · cases h

theorem promoted_spec {front evidence : List Candidate} {c : Candidate}
    (h : promoted front evidence = some c) :
    c ∈ evidence ∧ c.isCorrection = false ∧ front ≠ [] := by
  unfold promoted at h
  split at h
  · cases h
  split at h
  · cases h
  split_ifs at h
  rename_i head rest _ injected _ _
  obtain ⟨⟨d, i⟩, hfind, rfl⟩ := Option.map_eq_some_iff.mp h
  refine ⟨fst_mem_of_mem_zipIdx (mem_of_find?_eq_some hfind), ?_,
    cons_ne_nil head rest⟩
  have hpromotes := find?_some hfind
  dsimp only at hpromotes
  unfold promotes at hpromotes
  split at hpromotes
  · cases hpromotes
  · rename_i phrase hexact
    exact exactPhrase_ordinary hexact

/-- What a reader may rely on, for an upstream `U` and heads `F`. -/
structure StreamContract (U F : List Candidate) (g : Guards) (emitted : List Candidate) :
    Prop where
  heads : ∀ f ∈ F, (emitted.map Candidate.text).count f.text = 1
  kept : ∀ c ∈ U, (g.protectLongCorrections = true → c.isCorrection = false) →
    c.text ∉ F.map Candidate.text → g.hides c = false →
      1 ≤ (emitted.map Candidate.text).count c.text ∧
      (emitted.map Candidate.text).count c.text ≤ (U.map Candidate.text).count c.text
  hidden : ∀ c ∈ emitted, g.hides c = true → c.text ∈ F.map Candidate.text
  known : ∀ c ∈ emitted, c ∈ F ∨ c ∈ U
  ordered : ∃ page consumed, page ≤ max kCandidatePageSize F.length ∧
    (∀ c ∈ emitted.take page, c ∈ F ∨ c ∈ U.take consumed) ∧
    (emitted.drop page).Sublist (U.drop consumed)

theorem not_suppressed {discard : Bool} (h : g.suppressed injectedText c discard = false) :
    c.text ∉ injectedText ∧ g.hides c = false ∧
      (discard = true → g.protectLongCorrections = true → c.isCorrection = false) := by
  rw [Guards.suppressed, Bool.or_eq_false_iff, Bool.or_eq_false_iff, decide_eq_false_iff_not] at h
  refine ⟨h.1.1, h.1.2, fun hd hp => ?_⟩
  have hlast := h.2
  rw [hd, hp] at hlast
  exact hlast

theorem suppressed_eq_false (discard : Bool) (hnew : c.text ∉ injectedText)
    (hshown : g.hides c = false) (hord : g.protectLongCorrections = true → c.isCorrection = false) :
    g.suppressed injectedText c discard = false := by
  rw [Guards.suppressed, decide_eq_false hnew, hshown]
  cases hp : g.protectLongCorrections with
  | false => cases discard <;> rfl
  | true =>
    rw [hord hp]
    cases discard <;> rfl

open YunPinMergedTranslation in
/-- How the constructor divides the upstream: `taken` is what the look-ahead has read. -/
structure Division (U F : List Candidate) (g : Guards) (score : Bytes → ℤ)
    (taken : List Candidate) : Prop where
  split : U = taken ++ (prepared g F U).upstream
  evidence : ∀ c ∈ (prepared g F U).evidence, c ∈ taken ∧ g.hides c = false
  window : (preparedWindow g F U score).Subperm
    (taken.filter (fun c => !g.suppressed (F.map Candidate.text) c false))
  complete : ∀ c ∈ taken, g.suppressed (F.map Candidate.text) c false = false →
    (g.protectLongCorrections = true → c.isCorrection = false) → c ∈ preparedWindow g F U score
  room : (preparedWindow g F U score).length ≤ kCandidatePageSize-F.length

variable {taken : List Candidate}

section Contract
variable (U F : List Candidate) (g : Guards) (score : Bytes → ℤ)
open YunPinMergedTranslation

theorem make_division : ∃ taken, Division U F g score taken := by
  obtain ⟨taken, hsplit, hwindow, hevidence, hlength⟩ := lookAhead_spec g (F.map Candidate.text)
    [] [] U (Nat.zero_le _)
  rw [nil_append] at hwindow
  have hsort : (sortByScore score (prepared g F U).window).Perm (prepared g F U).window :=
    perm_insertionSort _ _
  have hsub := (protect_subperm g F.length (sortByScore score (prepared g F U).window)).trans
    hsort.subperm
  refine ⟨taken, hsplit, fun c hc => ?_, ?_, fun c hc hs hord => ?_, hsub.length_le.trans hlength⟩
  · exact (hevidence c hc).resolve_left not_mem_nil
  · rw [← hwindow]
    exact hsub
  · refine mem_protect (hsort.symm.subset ?_) hord
    rw [prepared, hwindow]
    exact mem_filter.mpr ⟨hc, by rw [hs]; rfl⟩

theorem make_remaining : (make U F g score).remaining =
    (promoteLearnedUpstream F (preparedWindow g F U score) (prepared g F U).evidence).1 ++
      ((promoteLearnedUpstream F (preparedWindow g F U score) (prepared g F U).evidence).2 ++
        (prepared g F U).upstream.filter
          (fun c => !g.suppressed (F.map Candidate.text) c true)) := by
  rw [make, remaining_refresh, remaining_skip]
  rfl

/-- What the promotion may do with heads and window: nothing is lost, doubled or brought in from
outside, and the page does not grow. -/
structure Promotion (taken window front' window' : List Candidate) : Prop where
  known : ∀ c ∈ front', c ∈ F ∨ (c ∈ taken ∧ g.hides c = false)
  sub : window'.Sublist window
  heads : (F.map Candidate.text).Nodup →
    ∀ f ∈ F, (front'.map Candidate.text).count f.text = 1
  counts : ∀ t, t ∉ F.map Candidate.text →
    (front'.map Candidate.text).count t + (window'.map Candidate.text).count t ≤
      (taken.map Candidate.text).count t
  kept : ∀ c ∈ window, c.text ∈ front'.map Candidate.text ∨ c ∈ window'
  room : front'.length + window'.length ≤ max kCandidatePageSize F.length

variable {U F g score}

theorem Division.window_shown (h : Division U F g score taken) (c : Candidate)
    (hc : c ∈ preparedWindow g F U score) :
    c ∈ taken ∧ c.text ∉ F.map Candidate.text ∧ g.hides c = false := by
  obtain ⟨hmem, hshown⟩ := mem_filter.mp (h.window.subset hc)
  have hnot := not_suppressed g _ c (by simpa using hshown)
  exact ⟨hmem, hnot.1, hnot.2.1⟩

theorem Division.window_count (h : Division U F g score taken) (t : Bytes) :
    ((preparedWindow g F U score).map Candidate.text).count t ≤
      (taken.map Candidate.text).count t := by
  obtain ⟨l, hperm, hsub⟩ := h.window
  rw [← (hperm.map Candidate.text).count_eq t]
  exact ((hsub.trans filter_sublist).map Candidate.text).count_le t

theorem Division.no_promotion (h : Division U F g score taken) :
    Promotion F g taken (preparedWindow g F U score) F (preparedWindow g F U score) where
  known c hc := .inl hc
  sub := List.Sublist.refl _
  heads hn f hf := count_eq_one_of_mem hn (mem_map_of_mem hf)
  counts t ht := by
    rw [count_eq_zero_of_not_mem ht, Nat.zero_add]
    exact h.window_count t
  kept c hc := .inr hc
  room := by
    have hroom := h.room
    omega

theorem count_filter_ne (l : List Candidate) (s t : Bytes) :
    ((l.filter (fun item => item.text ≠ s)).map Candidate.text).count t =
      if t = s then 0 else (l.map Candidate.text).count t := by
  induction l with
  | nil => simp
  | cons c l ih => grind

theorem length_filter_lt {l : List Candidate} {s : Bytes} {c : Candidate} (hc : c ∈ l)
    (hs : c.text = s) : (l.filter (fun item => item.text ≠ s)).length < l.length := by
  refine length_filter_lt_length_iff_exists.mpr ⟨c, hc, ?_⟩
  simpa using hs

theorem Division.promotion (h : Division U F g score taken) {p : Candidate}
    (hp : promoted F (prepared g F U).evidence = some p) :
    Promotion F g taken (preparedWindow g F U score)
      (p :: F.filter (fun item => item.text ≠ p.text))
      ((preparedWindow g F U score).filter (fun item => item.text ≠ p.text)) := by
  obtain ⟨hev, hord, -⟩ := promoted_spec hp
  obtain ⟨htaken, hshown⟩ := h.evidence p hev
  constructor
  · grind
  · exact filter_sublist
  · intro hn f hf
    have hone : (F.map Candidate.text).count f.text = 1 :=
      count_eq_one_of_mem hn (mem_map_of_mem hf)
    rw [map_cons, count_cons, count_filter_ne, hone]
    grind
  · intro t ht
    rw [map_cons, count_cons, count_filter_ne, count_filter_ne,
      count_eq_zero_of_not_mem ht]
    by_cases htp : t = p.text
    · have hpos := count_pos_iff.mpr (mem_map_of_mem (f := Candidate.text) htaken)
      grind
    · have hcount := h.window_count t
      grind
  · grind
  · have hroom := h.room
    have hfront := length_filter_le (fun item : Candidate => item.text ≠ p.text) F
    have hwindow := length_filter_le (fun item : Candidate => item.text ≠ p.text)
      (preparedWindow g F U score)
    rw [length_cons]
    by_cases hpF : p.text ∈ F.map Candidate.text
    · -- the head with this text makes room
      obtain ⟨f, hf, hft⟩ := mem_map.mp hpF
      have hlt := length_filter_lt hf hft
      omega
    · -- the candidate itself leaves the window
      have hmem : p ∈ preparedWindow g F U score :=
        h.complete p htaken (suppressed_eq_false g _ p false hpF hshown (fun _ => hord))
          (fun _ => hord)
      have hlt := length_filter_lt hmem rfl
      omega

theorem Division.promote (h : Division U F g score taken) :
    Promotion F g taken (preparedWindow g F U score)
      (promoteLearnedUpstream F (preparedWindow g F U score) (prepared g F U).evidence).1
      (promoteLearnedUpstream F (preparedWindow g F U score) (prepared g F U).evidence).2 := by
  rw [promoteLearnedUpstream]
  cases hp : promoted F (prepared g F U).evidence with
  | none => exact h.no_promotion
  | some p => exact h.promotion hp

theorem Division.contract {front' window' : List Candidate} (h : Division U F g score taken)
    (hp : Promotion F g taken (preparedWindow g F U score) front' window')
    (hn : (F.map Candidate.text).Nodup) :
    StreamContract U F g (front' ++ (window' ++ (prepared g F U).upstream.filter
      (fun c => !g.suppressed (F.map Candidate.text) c true))) := by
  set rest := (prepared g F U).upstream
  set stream := rest.filter (fun c => !g.suppressed (F.map Candidate.text) c true)
  have hwindow (c : Candidate) (hc : c ∈ window') :
      c ∈ taken ∧ c.text ∉ F.map Candidate.text ∧ g.hides c = false :=
    h.window_shown c (hp.sub.subset hc)
  have hstream (c : Candidate) (hc : c ∈ stream) :
      c ∈ rest ∧ c.text ∉ F.map Candidate.text ∧ g.hides c = false := by
    obtain ⟨hmem, hshown⟩ := mem_filter.mp hc
    have hnot := not_suppressed g _ c (by simpa using hshown)
    exact ⟨hmem, hnot.1, hnot.2.1⟩
  have hU : U = taken ++ rest := h.split
  have hcount (t : Bytes) : ((front' ++ (window' ++ stream)).map Candidate.text).count t =
      (front'.map Candidate.text).count t + ((window'.map Candidate.text).count t +
        (stream.map Candidate.text).count t) := by
    rw [map_append, map_append, count_append, count_append]
  constructor
  · intro f hf
    have hfText := mem_map_of_mem (f := Candidate.text) hf
    rw [hcount, hp.heads hn f hf, count_eq_zero_of_not_mem, count_eq_zero_of_not_mem]
    · grind
    · grind
  · intro c hc hord hnew hshown
    constructor
    · refine count_pos_iff.mpr (mem_map.mpr ?_)
      rw [hU] at hc
      rcases mem_append.mp hc with hc | hc
      · have hin := h.complete c hc (suppressed_eq_false g _ c false hnew hshown hord) hord
        have hkept := hp.kept c hin
        grind
      · have hmem : c ∈ stream := mem_filter.mpr
          ⟨hc, by rw [suppressed_eq_false g _ c true hnew hshown hord]; rfl⟩
        grind
    · have hstreamCount : (stream.map Candidate.text).count c.text ≤
          (rest.map Candidate.text).count c.text :=
        (filter_sublist.map Candidate.text).count_le c.text
      have hpage := hp.counts c.text hnew
      rw [hcount, hU, map_append, count_append]
      omega
  · have hknown := hp.known
    grind
  · have hknown := hp.known
    grind
  · refine ⟨(front' ++ window').length, taken.length, ?_, ?_, ?_⟩
    · rw [length_append]
      exact hp.room
    · rw [← append_assoc, take_left, hU, take_left]
      have hknown := hp.known
      grind
    · rw [← append_assoc, drop_left, hU, drop_left]
      exact filter_sublist

/-- For every upstream, distinct heads, guards and scores, the sequence that a reader gets loses
and invents nothing. -/
theorem merged_stream (U F : List Candidate) (hn : (F.map Candidate.text).Nodup) (g : Guards)
    (score : Bytes → ℤ) :
    ∃ emitted, (make U F g score).Reads emitted ∧ StreamContract U F g emitted := by
  obtain ⟨taken, hdivision⟩ := make_division U F g score
  refine ⟨(make U F g score).remaining, reads_remaining _ (make_ready U F g score), ?_⟩
  rw [make_remaining]
  exact hdivision.contract hdivision.promote hn

end Contract

def plain (text : Bytes) : Candidate := ⟨text, 0, 2, false, none, none⟩

theorem merged_stream_sample :
    ∃ emitted, (YunPinMergedTranslation.make [plain (lit "a"), plain (lit "b"), plain (lit "a")]
      [plain (lit "b"), plain (lit "c")] ⟨true, true⟩ (fun _ => 0)).Reads emitted ∧
      StreamContract [plain (lit "a"), plain (lit "b"), plain (lit "a")]
        [plain (lit "b"), plain (lit "c")] ⟨true, true⟩ emitted :=
  merged_stream _ _ (by decide) _ _

end RimeFilter
end YunPin
