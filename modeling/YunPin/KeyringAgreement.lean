import YunPin.SealedBox

/-! Keyrings under races. `putKeyring` runs two statements: an insertion that ignores
conflicts, and, when no row was affected, a query of the row to compare with. Here they
are two steps, with any other requests of the relay between them. -/
namespace YunPin
open ByteText List Option

def RelayDB.keyring? (db : RelayDB) (account : Bytes) (epoch : ℤ) : Option KeyringRow :=
  db.keyrings.find? (fun k => k.accountID = account ∧ k.epoch = epoch)

/-- `INSERT OR IGNORE` with the number of rows affected. The checks of the handler imply
the other constraints of the table. -/
def RelayDB.insertKeyring (db : RelayDB) (row : KeyringRow) : RelayDB × ℕ :=
  match db.keyring? row.accountID row.epoch with
  | some _ => (db, 0)
  | none => ({ db with keyrings := db.keyrings ++ [row] }, 1)

structure Comparison where
  identity : DeviceIdentity
  epoch : ℤ
  submitted : Bytes
  call : Option ℕ

def Comparison.answer (r : Comparison) (db : RelayDB) : Reply :=
  match db.keyring? r.identity.accountID r.epoch with
  | none => writeError 409 "keyring_epoch_conflict"
  | some existing =>
    if existing.ciphertext ≠ r.submitted then writeError 409 "keyring_epoch_conflict"
    else ⟨200, .keyringEpoch r.epoch⟩

structure KeyringAnswer where
  identity : DeviceIdentity
  epoch : ℤ
  submitted : Bytes
  reply : Reply

structure KeyringRelay where
  relay : Relay
  comparisons : List Comparison
  answers : List KeyringAnswer

def KeyringRelay.empty : KeyringRelay := ⟨.empty, [], []⟩

inductive KeyringAction
  /-- Any other step of the relay. -/
  | other (a : RelayAction)
  /-- A `putKeyring` request in flight runs its insertion. -/
  | insert (i : ℕ) (moment : Moment)
  /-- A request whose insertion was ignored runs its comparison. -/
  | compare (j : ℕ)

def Relay.putsKeyring (s : Relay) : RelayAction → Bool
  | .run i _ =>
    match s.flights[i]? with
    | some ⟨_, .putKeyring _ _, _⟩ => true
    | _ => false
  | _ => false

def KeyringRelay.insert (s : KeyringRelay) (i : ℕ) (identity : DeviceIdentity) (epoch : ℤ)
    (ciphertext : Bytes) (call : Option ℕ) (moment : Moment) : KeyringRelay :=
  let relay := { s.relay with flights := s.relay.flights.eraseIdx i }
  match decodeSealedBoxWire ciphertext with
  | none => { s with relay := relay.post call (writeError 400 "invalid_keyring") }
  | some decoded =>
    if epoch < 1 then { s with relay := relay.post call (writeError 400 "invalid_keyring") }
    else
      let inserted := s.relay.db.insertKeyring
        ⟨identity.accountID, epoch, decoded, identity.id, moment.now⟩
      if inserted.2 ≠ 1 then
        { s with
          relay := { relay with db := inserted.1 }
          comparisons := s.comparisons ++ [⟨identity, epoch, decoded, call⟩] }
      else
        { s with
          relay := Relay.post { relay with db := inserted.1 } call ⟨200, .keyringEpoch epoch⟩
          answers := s.answers ++ [⟨identity, epoch, decoded, ⟨200, .keyringEpoch epoch⟩⟩] }

def KeyringRelay.compare (s : KeyringRelay) (j : ℕ) (r : Comparison) : KeyringRelay where
  relay := s.relay.post r.call (r.answer s.relay.db)
  comparisons := s.comparisons.eraseIdx j
  answers := s.answers ++ [⟨r.identity, r.epoch, r.submitted, r.answer s.relay.db⟩]

def KeyringRelay.step (c : Crypto) (s : KeyringRelay) (a : KeyringAction) : Option KeyringRelay :=
  match a with
  | .other a =>
    if s.relay.putsKeyring a then none
    else
      match s.relay.step c a with
      | none => none
      | some relay => some { s with relay := relay }
  | .insert i moment =>
    match s.relay.flights[i]? with
    | some ⟨identity, .putKeyring epoch ciphertext, call⟩ =>
      some (s.insert i identity epoch ciphertext call moment)
    | _ => none
  | .compare j =>
    match s.comparisons[j]? with
    | none => none
    | some r => some (s.compare j r)

def RelayDB.KeyringsKept (a b : RelayDB) : Prop :=
  ∀ account epoch row, a.keyring? account epoch = some row → b.keyring? account epoch = some row

variable (a b : RelayDB) (c : Crypto) (s s' : KeyringRelay)

theorem keyringsKept_append {rows : List KeyringRow} (h : b.keyrings = a.keyrings ++ rows) :
    a.KeyringsKept b := by
  intro account epoch row hrow
  unfold RelayDB.keyring? at hrow ⊢
  rw [h, find?_append, hrow]
  rfl

theorem RelayDB.KeyringsKept.trans {a b d : RelayDB} (h : a.KeyringsKept b)
    (h' : b.KeyringsKept d) : a.KeyringsKept d :=
  fun account epoch row hrow => h' account epoch row (h account epoch row hrow)

theorem keyringsKept_of_eq (h : b.keyrings = a.keyrings) : a.KeyringsKept b :=
  keyringsKept_append a b (by rw [h, append_nil])

def RelayDB.UniqueKeyrings (db : RelayDB) : Prop :=
  ∀ k ∈ db.keyrings, db.keyring? k.accountID k.epoch = some k

theorem uniqueKeyrings_append {row : KeyringRow} (ha : a.UniqueKeyrings)
    (hnone : a.keyring? row.accountID row.epoch = none) (h : b.keyrings = a.keyrings ++ [row]) :
    b.UniqueKeyrings := by
  intro k hk
  rw [h] at hk
  rcases mem_append.mp hk with hold | hnew
  · exact keyringsKept_append a b h _ _ k (ha k hold)
  · rw [mem_singleton.mp hnew]
    unfold RelayDB.keyring? at hnone ⊢
    rw [h, find?_append, hnone]
    simp

theorem Relay.step_keyrings (s s' : Relay) {a : RelayAction} (h : s.step c a = some s') :
    s'.db.keyrings = s.db.keyrings ∨
      ∃ row, s.db.keyring? row.accountID row.epoch = none ∧
        s'.db.keyrings = s.db.keyrings ++ [row] := by
  rcases Relay.step_cases h with ⟨_, _, _, _, hdb, _⟩ | ⟨_, moment, f, _, _, hdb, _⟩ |
    ⟨op, moment, _, hdb, _⟩
  · exact .inl (by rw [hdb])
  · rcases f.op.exec_keyrings c f.identity moment s.db with he |
      ⟨epoch, _, decoded, _, _, _, hnone, he⟩
    · exact .inl (by rw [hdb, he])
    · exact .inr ⟨⟨f.identity.accountID, epoch, decoded, f.identity.id, moment.now⟩, hnone,
        by rw [hdb, he]⟩
  · exact .inl (by rw [hdb, op.exec_keyrings c moment s.db])

/-! The first statement: the body is refused, the insertion is ignored, or it affects a
row. -/

section
variable (i : ℕ) (identity : DeviceIdentity) (epoch : ℤ) (ciphertext : Bytes) {decoded : Bytes}
  (call : Option ℕ) (moment : Moment)

theorem insert_refused (h : decodeSealedBoxWire ciphertext = none ∨ epoch < 1) :
    s.insert i identity epoch ciphertext call moment = { s with
      relay := Relay.post { s.relay with flights := s.relay.flights.eraseIdx i } call
        (writeError 400 "invalid_keyring") } := by
  unfold KeyringRelay.insert
  cases hdecode : decodeSealedBoxWire ciphertext with
  | none => rfl
  | some decoded =>
    have hepoch : epoch < 1 := by simpa [hdecode] using h
    simp only [hepoch, if_true]

theorem insert_ignored (hdecode : decodeSealedBoxWire ciphertext = some decoded)
    (hepoch : ¬epoch < 1) {existing : KeyringRow}
    (h : s.relay.db.keyring? identity.accountID epoch = some existing) :
    s.insert i identity epoch ciphertext call moment = { s with
      relay := { s.relay with flights := s.relay.flights.eraseIdx i }
      comparisons := s.comparisons ++ [⟨identity, epoch, decoded, call⟩] } := by
  simp only [KeyringRelay.insert, hdecode, hepoch, if_false, RelayDB.insertKeyring, h]
  rfl

theorem insert_affected (hdecode : decodeSealedBoxWire ciphertext = some decoded)
    (hepoch : ¬epoch < 1) (h : s.relay.db.keyring? identity.accountID epoch = none) :
    s.insert i identity epoch ciphertext call moment = { s with
      relay := Relay.post { s.relay with
        db := { s.relay.db with keyrings := s.relay.db.keyrings ++
          [⟨identity.accountID, epoch, decoded, identity.id, moment.now⟩] }
        flights := s.relay.flights.eraseIdx i } call ⟨200, .keyringEpoch epoch⟩
      answers := s.answers ++ [⟨identity, epoch, decoded, ⟨200, .keyringEpoch epoch⟩⟩] } := by
  simp only [KeyringRelay.insert, hdecode, hepoch, if_false, RelayDB.insertKeyring, h]
  rfl

theorem insert_outcomes : (decodeSealedBoxWire ciphertext = none ∨ epoch < 1) ∨
    ∃ decoded, decodeSealedBoxWire ciphertext = some decoded ∧ ¬epoch < 1 ∧
      ((∃ existing, s.relay.db.keyring? identity.accountID epoch = some existing) ∨
        s.relay.db.keyring? identity.accountID epoch = none) := by
  by_cases hepoch : epoch < 1
  · exact .inl (.inr hepoch)
  cases hdecode : decodeSealedBoxWire ciphertext with
  | none => exact .inl (.inl rfl)
  | some decoded =>
    refine .inr ⟨decoded, rfl, hepoch, ?_⟩
    cases h : s.relay.db.keyring? identity.accountID epoch with
    | none => exact .inr rfl
    | some existing => exact .inl ⟨existing, rfl⟩

end

theorem KeyringRelay.step_cases {a : KeyringAction} (h : s.step c a = some s') :
    ((s'.relay.db.keyrings = s.relay.db.keyrings ∨
        ∃ row, s.relay.db.keyring? row.accountID row.epoch = none ∧
          s'.relay.db.keyrings = s.relay.db.keyrings ++ [row]) ∧
      s'.comparisons = s.comparisons ∧ s'.answers = s.answers) ∨
    (∃ (identity : DeviceIdentity) (epoch : ℤ) (decoded : Bytes) (now : ℤ),
      s.relay.db.keyring? identity.accountID epoch = none ∧
      s'.relay.db.keyrings =
        s.relay.db.keyrings ++ [⟨identity.accountID, epoch, decoded, identity.id, now⟩] ∧
      s'.comparisons = s.comparisons ∧
      s'.answers = s.answers ++ [⟨identity, epoch, decoded, ⟨200, .keyringEpoch epoch⟩⟩]) ∨
    (∃ (r : Comparison) (existing : KeyringRow),
      s.relay.db.keyring? r.identity.accountID r.epoch = some existing ∧
      s'.relay.db = s.relay.db ∧ s'.comparisons = s.comparisons ++ [r] ∧
      s'.answers = s.answers) ∨
    (∃ j r, s.comparisons[j]? = some r ∧ s'.relay.db = s.relay.db ∧
      s'.comparisons = s.comparisons.eraseIdx j ∧
      s'.answers = s.answers ++ [⟨r.identity, r.epoch, r.submitted, r.answer s.relay.db⟩]) := by
  cases a with
  | other a =>
    simp only [step] at h
    split_ifs at h
    split at h
    · cases h
    · rename_i relay hrelay
      cases h
      exact .inl ⟨s.relay.step_keyrings c relay hrelay, rfl, rfl⟩
  | insert i moment =>
    simp only [step] at h
    split at h
    · rename_i identity epoch ciphertext call _
      cases h
      rcases insert_outcomes s identity epoch ciphertext with hbad |
        ⟨decoded, hdecode, hepoch, ⟨existing, hexisting⟩ | hnone⟩
      · rw [insert_refused s i identity epoch ciphertext call moment hbad]
        exact .inl ⟨.inl (by rw [Relay.post_db]), rfl, rfl⟩
      · rw [insert_ignored s i identity epoch ciphertext call moment hdecode hepoch hexisting]
        exact .inr (.inr (.inl ⟨⟨identity, epoch, decoded, call⟩, existing, hexisting,
          rfl, rfl, rfl⟩))
      · rw [insert_affected s i identity epoch ciphertext call moment hdecode hepoch hnone]
        exact .inr (.inl ⟨identity, epoch, decoded, moment.now, hnone,
          congrArg RelayDB.keyrings (Relay.post_db _), rfl, rfl⟩)
    · cases h
  | compare j =>
    simp only [step] at h
    split at h
    · cases h
    · rename_i r hr
      cases h
      exact .inr (.inr (.inr ⟨j, r, hr, Relay.post_db _, rfl, rfl⟩))

theorem KeyringRelay.step_kept {a : KeyringAction} (h : s.step c a = some s') :
    s.relay.db.KeyringsKept s'.relay.db := by
  rcases s.step_cases c s' h with ⟨he | ⟨row, _, he⟩, _, _⟩ | ⟨_, _, _, _, _, he, _, _⟩ |
    ⟨_, _, _, he, _, _⟩ | ⟨_, _, _, he, _, _⟩
  · exact keyringsKept_of_eq _ _ he
  · exact keyringsKept_append _ _ he
  · exact keyringsKept_append _ _ he
  · exact keyringsKept_of_eq _ _ (by rw [he])
  · exact keyringsKept_of_eq _ _ (by rw [he])

def KeyringAnswer.comparison (e : KeyringAnswer) : Comparison :=
  ⟨e.identity, e.epoch, e.submitted, none⟩

def Comparison.Stored (r : Comparison) (db : RelayDB) : Prop :=
  ∃ row, db.keyring? r.identity.accountID r.epoch = some row

theorem Comparison.Stored.kept {r : Comparison} {a b : RelayDB} (h : r.Stored a)
    (hab : a.KeyringsKept b) : r.Stored b ∧ r.answer b = r.answer a := by
  obtain ⟨row, hrow⟩ := h
  have hrow' := hab _ _ _ hrow
  exact ⟨⟨row, hrow'⟩, by rw [Comparison.answer, Comparison.answer, hrow, hrow']⟩

/-- A row is stored once under its key, every ignored insertion has its row, and every
answer is the one that a comparison gives now. -/
structure KeyringInv (s : KeyringRelay) : Prop where
  unique : s.relay.db.UniqueKeyrings
  comparisons : ∀ r ∈ s.comparisons, r.Stored s.relay.db
  answers : ∀ e ∈ s.answers, e.comparison.Stored s.relay.db ∧
    e.reply = e.comparison.answer s.relay.db

theorem KeyringInv.empty : KeyringInv .empty where
  unique := by simp [RelayDB.UniqueKeyrings, KeyringRelay.empty, Relay.empty, RelayDB.empty]
  comparisons := by simp [KeyringRelay.empty]
  answers := by simp [KeyringRelay.empty]

theorem KeyringInv.step {c : Crypto} {s s' : KeyringRelay} {a : KeyringAction} (hs : KeyringInv s)
    (h : s.step c a = some s') : KeyringInv s' := by
  have hkept := s.step_kept c s' h
  have hcomparisons (r : Comparison) (hr : r ∈ s.comparisons) : r.Stored s'.relay.db :=
    ((hs.comparisons r hr).kept hkept).1
  have hanswers (e : KeyringAnswer) (he : e ∈ s.answers) : e.comparison.Stored s'.relay.db ∧
      e.reply = e.comparison.answer s'.relay.db := by
    obtain ⟨hstored, hreply⟩ := hs.answers e he
    obtain ⟨hstored', hanswer⟩ := hstored.kept hkept
    exact ⟨hstored', hreply.trans hanswer.symm⟩
  rcases s.step_cases c s' h with ⟨hrows, hcmp, hans⟩ |
    ⟨identity, epoch, decoded, now, hnone, hrows, hcmp, hans⟩ |
    ⟨r, existing, hexisting, hdb, hcmp, hans⟩ | ⟨j, r, hr, hdb, hcmp, hans⟩
  · refine ⟨?_, hcmp ▸ hcomparisons, hans ▸ hanswers⟩
    rcases hrows with he | ⟨row, hnone, he⟩
    · intro k hk
      rw [he] at hk
      exact hkept _ _ k (hs.unique k hk)
    · exact uniqueKeyrings_append _ _ hs.unique hnone he
  · have hunique := uniqueKeyrings_append _ _ hs.unique hnone hrows
    refine ⟨hunique, hcmp ▸ hcomparisons, ?_⟩
    intro e he
    rw [hans] at he
    rcases mem_append.mp he with hold | hnew
    · exact hanswers e hold
    · -- The row that was inserted is the one a comparison finds.
      obtain rfl := mem_singleton.mp hnew
      have hrow := hunique ⟨identity.accountID, epoch, decoded, identity.id, now⟩
        (by rw [hrows]; simp)
      refine ⟨⟨_, hrow⟩, ?_⟩
      simp only [KeyringAnswer.comparison, Comparison.answer] at hrow ⊢
      rw [hrow]
      simp
  · refine ⟨hdb ▸ hs.unique, ?_, hans ▸ hanswers⟩
    intro r' hr'
    rw [hcmp] at hr'
    rcases mem_append.mp hr' with hold | hnew
    · exact hcomparisons r' hold
    · rw [mem_singleton.mp hnew, hdb]
      exact ⟨existing, hexisting⟩
  · refine ⟨hdb ▸ hs.unique, ?_, ?_⟩
    · intro r' hr'
      rw [hcmp] at hr'
      exact hcomparisons r' (mem_of_mem_eraseIdx hr')
    · intro e he
      rw [hans] at he
      rcases mem_append.mp he with hold | hnew
      · exact hanswers e hold
      · obtain rfl := mem_singleton.mp hnew
        rw [hdb]
        exact ⟨hs.comparisons r (mem_of_getElem? hr), rfl⟩

def RelayDB.storedKeyring (db : RelayDB) (account : Bytes) (epoch : ℤ) : Option Bytes :=
  (db.keyring? account epoch).map (·.ciphertext)

def KeyringAnswer.succeeded (e : KeyringAnswer) : Bool := e.reply = ⟨200, .keyringEpoch e.epoch⟩

theorem succeeded_iff {e : KeyringAnswer} {db : RelayDB} (h : e.comparison.Stored db)
    (hreply : e.reply = e.comparison.answer db) :
    e.succeeded = true ↔ db.storedKeyring e.identity.accountID e.epoch = some e.submitted := by
  obtain ⟨row, hrow⟩ := h
  have hrow' : db.keyring? e.identity.accountID e.epoch = some row := hrow
  have hanswer : e.reply = if row.ciphertext ≠ e.submitted then
      writeError 409 "keyring_epoch_conflict" else ⟨200, .keyringEpoch e.epoch⟩ := by
    rw [hreply, Comparison.answer, hrow]
    rfl
  rw [KeyringAnswer.succeeded, decide_eq_true_eq, hanswer, RelayDB.storedKeyring, hrow']
  split_ifs with hne
  · simpa [writeError] using hne
  · simpa using hne

/-- Keyring agreement in a state: the ciphertext of an epoch never changes from here on,
each epoch has one row, a request has succeeded exactly when what it submitted is what
is stored, and two that succeeded for an epoch submitted the same. -/
structure KeyringAgreement (c : Crypto) (s : KeyringRelay) : Prop where
  fixed : ∀ actions s', Runs.run (KeyringRelay.step c) s actions = some s' →
    ∀ account epoch ciphertext, s.relay.db.storedKeyring account epoch = some ciphertext →
      s'.relay.db.storedKeyring account epoch = some ciphertext
  unique : ∀ k ∈ s.relay.db.keyrings, ∀ k' ∈ s.relay.db.keyrings, k.accountID = k'.accountID →
    k.epoch = k'.epoch → k = k'
  answered : ∀ e ∈ s.answers, e.succeeded = true ↔
    s.relay.db.storedKeyring e.identity.accountID e.epoch = some e.submitted
  agree : ∀ e ∈ s.answers, ∀ e' ∈ s.answers, e.identity.accountID = e'.identity.accountID →
    e.epoch = e'.epoch → e.succeeded = true → e'.succeeded = true → e.submitted = e'.submitted

/-- For any devices and any interleaving of the statements of their requests. -/
theorem keyring_agreement (c : Crypto) (actions : List KeyringAction) (s : KeyringRelay)
    (h : Runs.run (KeyringRelay.step c) .empty actions = some s) : KeyringAgreement c s := by
  have hinv : KeyringInv s := Runs.run_invariant KeyringInv (fun _ _ _ hi h => hi.step h) .empty h
  have hanswered (e : KeyringAnswer) (he : e ∈ s.answers) : e.succeeded = true ↔
      s.relay.db.storedKeyring e.identity.accountID e.epoch = some e.submitted :=
    succeeded_iff (hinv.answers e he).1 (hinv.answers e he).2
  refine ⟨?_, ?_, hanswered, ?_⟩
  · intro actions s' hrun account epoch ciphertext hstored
    have hkept : s.relay.db.KeyringsKept s'.relay.db :=
      Runs.run_relation (fun _ => True) (fun t u => t.relay.db.KeyringsKept u.relay.db)
        (fun t => keyringsKept_of_eq _ _ rfl) (fun t u v => .trans)
        (fun t a t' _ hstep => ⟨trivial, t.step_kept c t' hstep⟩) trivial hrun
    obtain ⟨row, hrow, hct⟩ := map_eq_some_iff.mp hstored
    rw [RelayDB.storedKeyring, hkept _ _ _ hrow]
    exact congrArg some hct
  · intro k hk k' hk' hacc hepoch
    have hfirst := hinv.unique k hk
    rw [hacc, hepoch, hinv.unique k' hk'] at hfirst
    exact (some.inj hfirst).symm
  · intro e he e' he' hacc hepoch hok hok'
    have hfirst := (hanswered e he).mp hok
    rw [hacc, hepoch, (hanswered e' he').mp hok'] at hfirst
    exact (some.inj hfirst).symm

def otherBox : SealedBox := ⟨List.replicate 24 0, List.replicate 17 0⟩

/-- Two devices race for an epoch with different keyrings, and the one that lost tries
again with the keyring of the other. -/
theorem keyring_agreement_race : ∃ s : KeyringRelay,
    Runs.run (KeyringRelay.step sampleCrypto) .empty (sampleSetup.map .other ++
      [.other (.arrive firstHeader (.putKeyring 1 (base64Encode sampleBox.wire)) none),
        .other (.arrive secondHeader (.putKeyring 1 (base64Encode otherBox.wire)) none),
        .insert 1 (sampleMoment 0), .insert 0 (sampleMoment 0), .compare 0,
        .other (.arrive firstHeader (.putKeyring 1 (base64Encode otherBox.wire)) none),
        .insert 0 (sampleMoment 0), .compare 0]) = some s ∧
    s.answers.map KeyringAnswer.succeeded = [true, false, true] ∧
    KeyringAgreement sampleCrypto s := by
  apply Runs.exists_some (fun s => s.answers.map KeyringAnswer.succeeded = [true, false, true])
    (by decide +kernel)
  intro s hs h
  exact ⟨h, keyring_agreement sampleCrypto _ s hs⟩

/-! The handler as one step: a run of the two statements ends where some run of the
atomic handler ends, which answers at the insertion. -/

def Comparison.posted (r : Comparison) (db : RelayDB) : Option (ℕ × Reply) :=
  r.call.map (fun n => (n, r.answer db))

def KeyringRelay.pending (s : KeyringRelay) : List (ℕ × Reply) :=
  s.comparisons.filterMap (·.posted s.relay.db)

structure Refines (s : KeyringRelay) (t : Relay) : Prop where
  inv : KeyringInv s
  db : t.db = s.relay.db
  flights : t.flights = s.relay.flights
  replies : t.replies.Perm (s.relay.replies ++ s.pending)

theorem Relay.post_replies {s : Relay} {call : Option ℕ} {reply : Reply} :
    (s.post call reply).replies = s.replies ++ (call.map (fun n => (n, reply))).toList := by
  cases call with
  | none => exact (append_nil _).symm
  | some n => rfl

theorem Relay.step_replies (s s' t : Relay) {a : RelayAction} (h : s.step c a = some s')
    (hdb : t.db = s.db) (hflights : t.flights = s.flights) :
    ∃ new t', t.step c a = some t' ∧ t'.db = s'.db ∧ t'.flights = s'.flights ∧
      s'.replies = s.replies ++ new ∧ t'.replies = t.replies ++ new := by
  cases a with
  | arrive header op call =>
    simp only [step, hdb] at h ⊢
    split at h
    · rename_i reply _
      cases h
      exact ⟨_, _, rfl, by simp [hdb], by simp [hflights], Relay.post_replies,
        Relay.post_replies⟩
    · cases h
      exact ⟨[], _, rfl, rfl, by simp only [hflights], (append_nil _).symm,
        (append_nil _).symm⟩
  | run i moment =>
    simp only [step, hdb, hflights] at h ⊢
    split at h
    · cases h
    · cases h
      exact ⟨_, _, rfl, by simp, by simp, Relay.post_replies, Relay.post_replies⟩
  | serve op moment =>
    cases h
    exact ⟨[], _, rfl, by simp only [hdb], hflights, (append_nil _).symm,
      (append_nil _).symm⟩

variable {epoch : ℤ} {ciphertext : Bytes}

theorem putKeyring_refused (identity : DeviceIdentity) (moment : Moment) (db : RelayDB)
    (h : decodeSealedBoxWire ciphertext = none ∨ epoch < 1) :
    putKeyring identity epoch ciphertext moment db = (writeError 400 "invalid_keyring", db) := by
  unfold putKeyring
  cases hdecode : decodeSealedBoxWire ciphertext with
  | none => rfl
  | some decoded =>
    have hepoch : epoch < 1 := by simpa [hdecode] using h
    simp only [hepoch, if_true]

theorem putKeyring_inserted {identity : DeviceIdentity} {decoded : Bytes} (moment : Moment)
    {db : RelayDB} (hdecode : decodeSealedBoxWire ciphertext = some decoded) (hepoch : ¬epoch < 1)
    (hnone : db.keyring? identity.accountID epoch = none) :
    putKeyring identity epoch ciphertext moment db = (⟨200, .keyringEpoch epoch⟩,
      { db with keyrings := db.keyrings ++
        [⟨identity.accountID, epoch, decoded, identity.id, moment.now⟩] }) := by
  unfold RelayDB.keyring? at hnone
  simp only [putKeyring, hdecode, hepoch, if_false, hnone]

theorem putKeyring_compared (r : Comparison) (ciphertext : Bytes) (moment : Moment) (db : RelayDB)
    (hdecode : decodeSealedBoxWire ciphertext = some r.submitted) (hepoch : ¬r.epoch < 1)
    (hstored : r.Stored db) :
    putKeyring r.identity r.epoch ciphertext moment db = (r.answer db, db) := by
  obtain ⟨existing, hexisting⟩ := hstored
  unfold RelayDB.keyring? at hexisting
  simp only [putKeyring, hdecode, hepoch, if_false, hexisting, Comparison.answer, RelayDB.keyring?]
  split_ifs <;> rfl

theorem pending_kept (hs : KeyringInv s) (hkept : s.relay.db.KeyringsKept s'.relay.db)
    (h : s'.comparisons = s.comparisons) : s'.pending = s.pending := by
  rw [KeyringRelay.pending, KeyringRelay.pending, h]
  apply filterMap_congr
  intro r hr
  rw [Comparison.posted, ((hs.comparisons r hr).kept hkept).2]
  rfl

theorem perm_sent {α : Type} {sent replies pending : List α} {new : List α}
    (h : sent.Perm (replies ++ pending)) : (sent ++ new).Perm (replies ++ new ++ pending) := by
  have hswap : (replies ++ pending ++ new).Perm (replies ++ new ++ pending) := by
    rw [append_assoc, append_assoc]
    exact perm_append_comm.append_left replies
  exact (h.append_right new).trans hswap

theorem Refines.insert (c : Crypto) {s : KeyringRelay} {t : Relay} (h : Refines s t) {i : ℕ}
    {identity : DeviceIdentity} {call : Option ℕ} {moment : Moment}
    (hflight : s.relay.flights[i]? = some ⟨identity, .putKeyring epoch ciphertext, call⟩)
    (hinv : KeyringInv (s.insert i identity epoch ciphertext call moment))
    (hkept : s.relay.db.KeyringsKept (s.insert i identity epoch ciphertext call moment).relay.db) :
    ∃ t', t.step c (.run i moment) = some t' ∧
      Refines (s.insert i identity epoch ciphertext call moment) t' := by
  have hrun : t.step c (.run i moment) = some (Relay.post { t with
      db := (putKeyring identity epoch ciphertext moment s.relay.db).2
      flights := s.relay.flights.eraseIdx i } call
      (putKeyring identity epoch ciphertext moment s.relay.db).1) := by
    simp only [Relay.step, h.flights, hflight, h.db]
    rfl
  -- Where the first statement answers, both post the same reply over the same tables.
  have hposted (reply : Reply) (db : RelayDB)
      (hput : putKeyring identity epoch ciphertext moment s.relay.db = (reply, db))
      (hrelay : (s.insert i identity epoch ciphertext call moment).relay = Relay.post
        { s.relay with db, flights := s.relay.flights.eraseIdx i } call reply)
      (hsame : (s.insert i identity epoch ciphertext call moment).comparisons = s.comparisons) :
      ∃ t', t.step c (.run i moment) = some t' ∧
        Refines (s.insert i identity epoch ciphertext call moment) t' := by
    rw [hput] at hrun
    refine ⟨_, hrun, hinv, by rw [hrelay, Relay.post_db, Relay.post_db],
      by rw [hrelay, Relay.post_flights, Relay.post_flights], ?_⟩
    rw [pending_kept s _ h.inv hkept hsame, hrelay, Relay.post_replies, Relay.post_replies]
    exact perm_sent h.replies
  rcases insert_outcomes s identity epoch ciphertext with hbad |
    ⟨decoded, hdecode, hepoch, ⟨existing, hexisting⟩ | hnone⟩
  · have heq := insert_refused s i identity epoch ciphertext call moment hbad
    exact hposted _ _ (putKeyring_refused identity moment s.relay.db hbad) (by rw [heq])
      (by rw [heq])
  · have heq := insert_ignored s i identity epoch ciphertext call moment hdecode hepoch hexisting
    rw [putKeyring_compared ⟨identity, epoch, decoded, call⟩ ciphertext moment s.relay.db hdecode
      hepoch ⟨existing, hexisting⟩] at hrun
    rw [heq] at hinv ⊢
    refine ⟨_, hrun, hinv, Relay.post_db _, Relay.post_flights _, ?_⟩
    have hsent := h.replies.append_right
      (Comparison.posted ⟨identity, epoch, decoded, call⟩ s.relay.db).toList
    rw [append_assoc] at hsent
    rw [Relay.post_replies, KeyringRelay.pending, filterMap_append]
    exact hsent
  · have heq := insert_affected s i identity epoch ciphertext call moment hdecode hepoch hnone
    exact hposted _ _ (putKeyring_inserted moment hdecode hepoch hnone) (by rw [heq]) (by rw [heq])

theorem Refines.compare {s : KeyringRelay} {t : Relay} (h : Refines s t) {j : ℕ} {r : Comparison}
    (hr : s.comparisons[j]? = some r) (hinv : KeyringInv (s.compare j r)) :
    Refines (s.compare j r) t := by
  refine ⟨hinv, ?_, ?_, ?_⟩
  · rw [KeyringRelay.compare, Relay.post_db]
    exact h.db
  · rw [KeyringRelay.compare, Relay.post_flights]
    exact h.flights
  · -- The answer moves from the pending ones to those on their way.
    obtain ⟨hj, hget⟩ := List.getElem?_eq_some_iff.mp hr
    have hperm := (getElem_cons_eraseIdx_perm hj).filterMap (·.posted s.relay.db)
    have hpending : (s.compare j r).pending =
        (s.comparisons.eraseIdx j).filterMap (·.posted s.relay.db) := by
      simp only [KeyringRelay.pending, KeyringRelay.compare, Relay.post_db]
    have hsent : (s.compare j r).relay.replies =
        s.relay.replies ++ (r.posted s.relay.db).toList := Relay.post_replies
    have hsplit : s.pending.Perm ((r.posted s.relay.db).toList ++ (s.compare j r).pending) := by
      rw [hpending]
      refine hperm.symm.trans (List.Perm.of_eq ?_)
      rw [hget]
      cases hposted : r.posted s.relay.db <;> simp [hposted]
    rw [hsent, append_assoc]
    exact h.replies.trans (hsplit.append_left _)

theorem Refines.step {c : Crypto} {s s' : KeyringRelay} {t : Relay} {a : KeyringAction}
    (h : Refines s t) (hstep : s.step c a = some s') :
    ∃ actions t', Runs.run (Relay.step c) t actions = some t' ∧ Refines s' t' := by
  have hinv := h.inv.step hstep
  have hkept := s.step_kept c s' hstep
  cases a with
  | other a =>
    simp only [KeyringRelay.step] at hstep
    split_ifs at hstep
    split at hstep
    · cases hstep
    · rename_i relay hrelay
      obtain ⟨new, t', ht', hdb, hflights, hnew, hnew'⟩ :=
        s.relay.step_replies c relay t hrelay h.db h.flights
      cases hstep
      refine ⟨[a], t', by simp only [Runs.run, ht'], hinv, hdb, hflights, ?_⟩
      rw [pending_kept s _ h.inv hkept rfl, hnew', hnew]
      exact perm_sent h.replies
  | insert i moment =>
    simp only [KeyringRelay.step] at hstep
    split at hstep
    · rename_i hflight
      cases hstep
      obtain ⟨t', ht', hrefines⟩ := h.insert c hflight hinv hkept
      exact ⟨[.run i moment], t', by simp only [Runs.run, ht'], hrefines⟩
    · cases hstep
  | compare j =>
    simp only [KeyringRelay.step] at hstep
    split at hstep
    · cases hstep
    · rename_i r hr
      cases hstep
      exact ⟨[], t, rfl, h.compare hr hinv⟩

/-- What devices see of the two statements is what they could have seen of the handler
run as one step. -/
theorem keyring_refinement (actions : List KeyringAction) (s : KeyringRelay)
    (h : Runs.run (KeyringRelay.step c) .empty actions = some s) :
    ∃ actions' t, Runs.run (Relay.step c) .empty actions' = some t ∧ Refines s t :=
  Runs.run_simulation Refines (fun _ _ _ _ hr hstep => hr.step hstep)
    ⟨.empty, rfl, rfl, List.Perm.refl _⟩ h

/-- The device that lost the race has not compared yet. -/
theorem keyring_refinement_race : ∃ s : KeyringRelay,
    Runs.run (KeyringRelay.step sampleCrypto) .empty (sampleSetup.map .other ++
      [.other (.arrive firstHeader (.putKeyring 1 (base64Encode sampleBox.wire)) (some 0)),
        .other (.arrive secondHeader (.putKeyring 1 (base64Encode otherBox.wire)) (some 1)),
        .insert 1 (sampleMoment 0), .insert 0 (sampleMoment 0)]) = some s ∧
    s.comparisons.length = 1 ∧
    ∃ actions t, Runs.run (Relay.step sampleCrypto) .empty actions = some t ∧ Refines s t := by
  apply Runs.exists_some (fun s => s.comparisons.length = 1) (by decide +kernel)
  intro s hs h
  exact ⟨h, keyring_refinement sampleCrypto _ s hs⟩

end YunPin
