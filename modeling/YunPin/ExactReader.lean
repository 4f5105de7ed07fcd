import YunPin.SortedMap

/-! Readers of binary formats. A reader is exact when it accepts the bytes of its writer
and no others, whatever follows them: reading inverts writing, and a value has one text. -/
namespace ExactReader
open List

variable {ε α β : Type}

abbrev Reader (ε : Type) := StateT (List UInt8) (Except ε)

/-- The reader succeeds exactly on what `write` gives for the values that are `ok`. -/
def Exact (read : Reader ε α) (write : α → List UInt8) (ok : α → Prop) : Prop :=
  ∀ bytes a rest, read bytes = .ok (a, rest) ↔ ok a ∧ bytes = write a ++ rest

theorem bind_ok_iff (p : Reader ε α) (q : α → Reader ε β) (bytes rest : List UInt8) (b : β) :
    (p >>= q) bytes = .ok (b, rest) ↔ ∃ a mid, p bytes = .ok (a, mid) ∧ q a mid = .ok (b, rest) := by
  show Except.bind (p bytes) (fun r => q r.1 r.2) = _ ↔ _
  cases h : p bytes with
  | error e => simp [Except.bind]
  | ok r =>
    obtain ⟨a, mid⟩ := r
    constructor
    · intro hq
      exact ⟨a, mid, rfl, hq⟩
    · rintro ⟨a', mid', hp, hq⟩
      cases hp
      exact hq

theorem pure_ok_iff (a b : α) (bytes rest : List UInt8) :
    (pure a : Reader ε α) bytes = .ok (b, rest) ↔ a = b ∧ bytes = rest := by
  show Except.ok (a, bytes) = _ ↔ _
  simp

theorem guard_ok_iff (c : Prop) [Decidable c] (e : ε) (q : Reader ε α) (bytes rest : List UInt8)
    (a : α) : (if c then throw e else q : Reader ε α) bytes = .ok (a, rest) ↔
      ¬c ∧ q bytes = .ok (a, rest) := by
  split_ifs with hc
  · show Except.error e = _ ↔ _
    simp [hc]
  · simp [hc]

def relabel (e : ε) (p : Reader ε α) : Reader ε α := fun bytes =>
  match p bytes with
  | .error _ => .error e
  | .ok r => .ok r

variable (bytes : List UInt8) {p : Reader ε α} {write : α → List UInt8} {ok : α → Prop}

theorem Exact.relabel (h : Exact p write ok) (e : ε) : Exact (relabel e p) write ok := by
  intro bytes a rest
  rw [← h bytes a rest, ExactReader.relabel]
  split <;> simp [*]

theorem Exact.bind_iff (h : Exact p write ok) (q : α → Reader ε β) (bytes rest : List UInt8)
    (b : β) : (p >>= q) bytes = .ok (b, rest) ↔
      ∃ a mid, (ok a ∧ bytes = write a ++ mid) ∧ q a mid = .ok (b, rest) := by
  simp only [bind_ok_iff, h _ _ _]

def take (e : ε) (n : ℕ) : Reader ε (List UInt8) := fun bytes =>
  if bytes.length < n then .error e else .ok (bytes.take n, bytes.drop n)

theorem exact_take (e : ε) (n : ℕ) : Exact (take e n) id (fun b => b.length = n) := by
  intro bytes a rest
  unfold take
  split_ifs with hshort
  · simp only [false_iff, not_and]
    rintro ha rfl
    simp only [id, length_append] at hshort
    omega
  · simp only [Except.ok.injEq, Prod.mk.injEq]
    constructor
    · rintro ⟨rfl, rfl⟩
      refine ⟨?_, (take_append_drop n bytes).symm⟩
      rw [length_take]
      omega
    · rintro ⟨ha, rfl⟩
      exact ⟨take_left' ha, drop_left' ha⟩

theorem Exact.map (h : Exact p write ok) (f : α → β) (g : β → α) (ok' : β → Prop)
    (hfg : ∀ b, ok' b → f (g b) = b) (hgf : ∀ a, ok a → g (f a) = a) (hok : ∀ a, ok a → ok' (f a))
    (hok' : ∀ b, ok' b → ok (g b)) :
    Exact (p >>= fun a => pure (f a)) (write ∘ g) ok' := by
  intro bytes b rest
  simp only [h.bind_iff, pure_ok_iff, Function.comp]
  constructor
  · rintro ⟨a, mid, ⟨ha, rfl⟩, rfl, rfl⟩
    exact ⟨hok a ha, by rw [hgf a ha]⟩
  · rintro ⟨hb, rfl⟩
    exact ⟨g b, rest, ⟨hok' b hb, rfl⟩, hfg b hb, rfl⟩

def bigEndian : ℕ → ℕ → List UInt8
  | 0, _ => []
  | n+1, v => UInt8.ofNat (v/256^n) :: bigEndian n v

def ofBigEndian : List UInt8 → ℕ
  | [] => 0
  | b :: rest => b.toNat*256^rest.length+ofBigEndian rest

@[simp] theorem bigEndian_length {n v : ℕ} : (bigEndian n v).length = n := by
  induction n with
  | zero => rfl
  | succ n ih => simp [bigEndian, ih]

theorem ofBigEndian_bigEndian (n v : ℕ) : ofBigEndian (bigEndian n v) = v%256^n := by
  induction n with
  | zero => simp [bigEndian, ofBigEndian, Nat.mod_one]
  | succ n ih =>
    have hdigit : (UInt8.ofNat (v/256^n)).toNat = v/256^n%256 := UInt8.toNat_ofNat'
    rw [bigEndian, ofBigEndian, ih, bigEndian_length, hdigit, Nat.mod_pow_succ, Nat.add_comm,
      Nat.mul_comm]

theorem ofBigEndian_lt : ofBigEndian bytes < 256^bytes.length := by
  induction bytes with
  | nil => simp [ofBigEndian]
  | cons b rest ih =>
    have hb : b.toNat+1 ≤ 256 := b.toNat_lt
    calc b.toNat*256^rest.length+ofBigEndian rest
        < (b.toNat+1)*256^rest.length := by rw [Nat.add_mul]; omega
      _ ≤ 256*256^rest.length := Nat.mul_le_mul_right _ hb
      _ = 256^(rest.length+1) := by rw [pow_succ, Nat.mul_comm]

theorem ofBigEndian_injective (a b : List UInt8) (hlen : a.length = b.length)
    (h : ofBigEndian a = ofBigEndian b) : a = b := by
  induction a generalizing b with
  | nil => exact (length_eq_zero_iff.mp hlen.symm).symm
  | cons x xs ih =>
    match b, hlen with
    | y :: ys, hlen =>
      have hlen' : xs.length = ys.length := Nat.succ.inj hlen
      have hx := ofBigEndian_lt xs
      have hy := ofBigEndian_lt ys
      simp only [ofBigEndian, hlen'] at h hx
      -- The first digit is the quotient, the others are the remainder.
      have hquot (d r : ℕ) (hr : r < 256^ys.length) : (d*256^ys.length+r)/256^ys.length = d := by
        rw [Nat.mul_comm, Nat.mul_add_div (by positivity), Nat.div_eq_of_lt hr, Nat.add_zero]
      have hdigit : x.toNat = y.toNat := by
        rw [← hquot x.toNat _ hx, ← hquot y.toNat _ hy, h]
      rw [hdigit] at h
      rw [UInt8.toNat_inj.mp hdigit, ih ys hlen' (Nat.add_left_cancel h)]

theorem bigEndian_ofBigEndian : bigEndian bytes.length (ofBigEndian bytes) = bytes := by
  apply ofBigEndian_injective _ _ (bigEndian_length)
  rw [ofBigEndian_bigEndian, Nat.mod_eq_of_lt (ofBigEndian_lt bytes)]

def number (e : ε) (n : ℕ) : Reader ε ℕ := take e n >>= fun bytes => pure (ofBigEndian bytes)

theorem exact_number (e : ε) (n : ℕ) : Exact (number e n) (bigEndian n) (fun v => v < 256^n) := by
  apply (exact_take e n).map ofBigEndian (bigEndian n)
  · intro v hv
    rw [ofBigEndian_bigEndian, Nat.mod_eq_of_lt hv]
  · intro bytes hbytes
    rw [← hbytes, bigEndian_ofBigEndian]
  · intro bytes hbytes
    exact hbytes ▸ ofBigEndian_lt bytes
  · intro v _
    exact bigEndian_length

section Table
variable {K V : Type} [LinearOrder K]

/-- The keys of the entries increase, from above `previous` when there is one. -/
def Ascending (previous : Option K) (entries : List (K × V)) : Prop :=
  (entries.map Prod.fst).Pairwise (· < ·) ∧ ∀ p ∈ previous, ∀ e ∈ entries, p < e.1

theorem ascending_cons (previous : Option K) (k : K) (v : V) (entries : List (K × V)) :
    Ascending previous ((k, v) :: entries) ↔
      (∀ p ∈ previous, p < k) ∧ Ascending (some k) entries := by
  simp only [Ascending, map_cons, pairwise_cons, mem_cons, Option.mem_def,
    Option.some.injEq]
  constructor
  · rintro ⟨⟨hk, hrest⟩, hp⟩
    refine ⟨fun p h => hp p h (k, v) (.inl rfl), hrest, ?_⟩
    rintro p rfl e he
    exact hk e.1 (mem_map_of_mem he)
  · rintro ⟨hp, hrest, hk⟩
    refine ⟨⟨?_, hrest⟩, ?_⟩
    · intro j hj
      obtain ⟨e, he, rfl⟩ := mem_map.mp hj
      exact hk k rfl e he
    · rintro p h e (rfl | he)
      · exact hp p h
      · exact (hp p h).trans (hk k rfl e he)

/-- Read `n` entries into a map; a key that is not above the one before it is refused. -/
def table (key : Reader ε K) (value : Reader ε V) (disorder : ε) :
    ℕ → Option K → SortedMap K V → Reader ε (SortedMap K V)
  | 0, _, m => pure m
  | n+1, previous, m => do
    let k ← key
    if previous.any (fun p => k ≤ p) then throw disorder
    else
      let v ← value
      table key value disorder n (some k) (m.insert k v)

variable {key : Reader ε K} {value : Reader ε V} {writeKey : K → List UInt8}
  {writeValue : V → List UInt8}

theorem table_ok_iff (disorder : ε) (hkey : Exact key writeKey (fun _ => True))
    (hvalue : Exact value writeValue (fun _ => True)) (n : ℕ) (previous : Option K)
    (m m' : SortedMap K V) (bytes rest : List UInt8) :
    table key value disorder n previous m bytes = .ok (m', rest) ↔
      ∃ entries, entries.length = n ∧ Ascending previous entries ∧
        m' = entries.foldl (fun m e => m.insert e.1 e.2) m ∧
        bytes = entries.flatMap (fun e => writeKey e.1 ++ writeValue e.2) ++ rest := by
  induction n generalizing previous m bytes with
  | zero =>
    simp only [table, pure_ok_iff]
    constructor
    · rintro ⟨rfl, rfl⟩
      exact ⟨[], rfl, by simp [Ascending], rfl, rfl⟩
    · rintro ⟨entries, hlen, _, rfl, rfl⟩
      obtain rfl := length_eq_zero_iff.mp hlen
      exact ⟨rfl, rfl⟩
  | succ n ih =>
    have horder (k : K) : ¬previous.any (fun p => decide (k ≤ p)) = true ↔ ∀ p ∈ previous, p < k := by
      cases previous <;> simp
    simp only [table, hkey.bind_iff, guard_ok_iff, hvalue.bind_iff, ih, horder, true_and]
    constructor
    · rintro ⟨k, mid, rfl, hk, v, mid', rfl, entries, hlen, hasc, rfl, rfl⟩
      refine ⟨(k, v) :: entries, by rw [length_cons, hlen], ?_, rfl, ?_⟩
      · exact (ascending_cons previous k v entries).mpr ⟨hk, hasc⟩
      · simp only [flatMap_cons, append_assoc]
    · rintro ⟨entries, hlen, hasc, rfl, rfl⟩
      match entries, hlen with
      | (k, v) :: entries, hlen =>
        obtain ⟨hk, hasc'⟩ := (ascending_cons previous k v entries).mp hasc
        refine ⟨k, _, ?_, hk, v, _, rfl, entries, Nat.succ.inj hlen, hasc', rfl, rfl⟩
        simp only [flatMap_cons, append_assoc]

theorem table_empty_ok_iff {disorder : ε} (hkey : Exact key writeKey (fun _ => True))
    (hvalue : Exact value writeValue (fun _ => True)) (n : ℕ) (previous : Option K)
    (m : SortedMap K V) (bytes rest : List UInt8) :
    table key value disorder n previous ∅ bytes = .ok (m, rest) ↔
      m.entries.length = n ∧ (∀ p ∈ previous, ∀ e ∈ m.entries, p < e.1) ∧
        bytes = m.entries.flatMap (fun e => writeKey e.1 ++ writeValue e.2) ++ rest := by
  rw [table_ok_iff disorder hkey hvalue]
  constructor
  · rintro ⟨entries, hlen, ⟨hsorted, hprevious⟩, rfl, rfl⟩
    have hentries : (SortedMap.ofList entries).entries = entries :=
      congrArg SortedMap.entries (SortedMap.ofList_entries ⟨entries, hsorted⟩)
    change (SortedMap.ofList entries).entries.length = n ∧ (∀ p ∈ previous,
      ∀ e ∈ (SortedMap.ofList entries).entries, p < e.1) ∧ _ =
        (SortedMap.ofList entries).entries.flatMap _ ++ rest
    rw [hentries]
    exact ⟨hlen, hprevious, rfl⟩
  · rintro ⟨hlen, hprevious, rfl⟩
    exact ⟨m.entries, hlen, ⟨m.sorted, hprevious⟩, (SortedMap.ofList_entries m).symm, rfl⟩

end Table

end ExactReader
