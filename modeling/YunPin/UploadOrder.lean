import YunPin.RelayPaging

/-! Uploads do not depend on the order of a batch, and a batch may be sent again. The scan over the
sorted batch is brought into a form that only depends on its groups; the upload loop is described
by one relation between the states before and after it. -/
namespace YunPin
open ByteText List Option

abbrev DecodedEnvelope.seq (e : DecodedEnvelope) : ℕ := e.wire.deviceSeq

abbrev SortedBatch (l : List DecodedEnvelope) : Prop := l.Pairwise (fun a b => a.seq ≤ b.seq)

variable {l : List DecodedEnvelope} {first e : DecodedEnvelope} {db db' : RelayDB} {n : ℕ}
  {new : List EnvelopeRow}

theorem SortedBatch.head_le (h : SortedBatch (first :: l)) :
    ∀ e ∈ first :: l, first.seq ≤ e.seq := by
  intro e he
  rcases mem_cons.mp he with rfl | he
  · exact le_rfl
  · exact (pairwise_cons.mp h).1 e he

def others (n : ℕ) (l : List DecodedEnvelope) : List DecodedEnvelope :=
  l.filter (fun e => e.seq ≠ n)

def differs (n : ℕ) (hash : Bytes) (l : List DecodedEnvelope) : Bool :=
  l.any (fun e => decide (e.seq = n ∧ e.recordHash ≠ hash))

theorem mem_others : e ∈ others n l ↔ e ∈ l ∧ e.seq ≠ n := by
  simp [others]

theorem differs_iff {hash : Bytes} :
    differs n hash l = true ↔ ∃ e ∈ l, e.seq = n ∧ e.recordHash ≠ hash := by
  simp [differs]

theorem others_length_lt (n : ℕ) (first : DecodedEnvelope) (l : List DecodedEnvelope) :
    (others n l).length < (first :: l).length :=
  Nat.lt_succ_of_le (length_filter_le _ _)

theorem SortedBatch.others (h : SortedBatch (first :: l)) (n : ℕ) : SortedBatch (others n l) :=
  h.of_cons.sublist filter_sublist

theorem groupBatch_eq (conflict : Bool) (hsorted : SortedBatch (first :: l)) :
    groupBatch first conflict l = (splitBatch (others first.seq l)).close first
      (conflict || differs first.seq first.recordHash l) := by
  induction l generalizing conflict with
  | nil =>
    rw [differs, any_nil, Bool.or_false]
    rfl
  | cons e rest ih =>
    rw [groupBatch]
    split_ifs with hseq
    · have hnext : SortedBatch (first :: rest) :=
        hsorted.sublist ((sublist_cons_self e rest).cons_cons first)
      have hleft : others first.seq (e :: rest) = others first.seq rest :=
        filter_cons_of_neg (by simpa using hseq)
      rw [ih _ hnext, hleft, differs, differs, any_cons, Bool.or_assoc]
      simp only [hseq, true_and]
    · -- all further sequences are greater
      have hgreater : ∀ d ∈ e :: rest, d.seq ≠ first.seq := by
        intro d hd heq
        have hle : e.seq ≤ first.seq := heq ▸ SortedBatch.head_le hsorted.of_cons d hd
        exact hseq (le_antisymm hle (hsorted.head_le e (mem_cons_of_mem _ mem_cons_self)))
      have hleft : others first.seq (e :: rest) = e :: rest :=
        filter_eq_self.mpr (by simpa using hgreater)
      have hsame : differs first.seq first.recordHash (e :: rest) = false := by
        rw [← Bool.not_eq_true, differs_iff]
        rintro ⟨d, hd, heq, _⟩
        exact hgreater d hd heq
      rw [hleft, hsame, Bool.or_false]
      rfl

theorem differs_perm {first' : DecodedEnvelope} {rest rest' : List DecodedEnvelope}
    (hmove : ∀ e, e ∈ first' :: rest' ↔ e ∈ first :: rest) (hseq : first'.seq = first.seq) :
    differs first.seq first'.recordHash rest' = differs first.seq first.recordHash rest := by
  rw [Bool.eq_iff_iff, differs_iff, differs_iff]
  simp only [mem_cons] at hmove
  constructor
  · rintro ⟨e, he, hgroup, hhash⟩
    by_cases hsame : e.recordHash = first.recordHash
    · -- then the other first envelope has another hash
      have hfirst := (hmove first').mp (.inl rfl)
      grind
    · have hfirst := (hmove e).mp (.inr he)
      grind
  · rintro ⟨e, he, hgroup, hhash⟩
    by_cases hsame : e.recordHash = first'.recordHash
    · have hfirst := (hmove first).mpr (.inl rfl)
      grind
    · have hfirst := (hmove e).mpr (.inr he)
      grind

variable (c : Crypto) (identity : DeviceIdentity)

def SameRow (d e : DecodedEnvelope) : Prop := d.row identity 0 = e.row identity 0

theorem splitBatch_perm (l l' : List DecodedEnvelope) (hl : SortedBatch l) (hl' : SortedBatch l')
    (hperm : l'.Perm l)
    (hfree : ∀ d ∈ l, ∀ e ∈ l, d.recordHash = e.recordHash → SameRow identity d e) :
    (splitBatch l').rejected = (splitBatch l).rejected ∧
      List.Forall₂ (SameRow identity) (splitBatch l').unique (splitBatch l).unique := by
  induction hn : l.length using Nat.strong_induction_on generalizing l l' with
  | _ n ih =>
    match l, l' with
    | [], [] => exact ⟨rfl, List.Forall₂.nil⟩
    | [], e :: l' => exact absurd hperm.length_eq (by simp)
    | e :: l, [] => exact absurd hperm.length_eq (by simp)
    | first :: rest, first' :: rest' =>
      have hmem : first' ∈ first :: rest := hperm.subset mem_cons_self
      have hseq : first'.seq = first.seq :=
        le_antisymm (hl'.head_le _ (hperm.symm.subset mem_cons_self)) (hl.head_le _ hmem)
      have hothers : (others first.seq rest').Perm (others first.seq rest) := by
        have hfilter := hperm.filter (fun e => decide (e.seq ≠ first.seq))
        rwa [filter_cons_of_neg (by simpa using hseq),
          filter_cons_of_neg (by simp)] at hfilter
      obtain ⟨hrejected, hunique⟩ := ih _ (hn ▸ others_length_lt first.seq first rest) _ _
        (hl.others _) (hl'.others _) hothers
        (fun d hd e he => hfree d (mem_cons_of_mem _ (mem_others.mp hd).1) e
          (mem_cons_of_mem _ (mem_others.mp he).1)) rfl
      have hconflict := differs_perm (fun e => hperm.mem_iff (a := e)) hseq
      rw [splitBatch, splitBatch, groupBatch_eq false hl,
        groupBatch_eq false hl', hseq, hconflict, Bool.false_or]
      cases hc : differs first.seq first.recordHash rest with
      | true =>
        refine ⟨?_, hunique⟩
        change (⟨first'.seq, _⟩ : SyncRejection) :: _ = ⟨first.seq, _⟩ :: _
        rw [hseq, hrejected]
      | false =>
        have hhash : first'.recordHash = first.recordHash := by
          rcases mem_cons.mp hmem with rfl | hrest
          · rfl
          · by_contra hne
            exact absurd (differs_iff.mpr ⟨first', hrest, hseq, hne⟩) (by simp [hc])
        exact ⟨hrejected, List.Forall₂.cons (hfree _ hmem _ mem_cons_self hhash) hunique⟩

theorem splitBatch_sequences (l : List DecodedEnvelope) (hl : SortedBatch l) :
    ((splitBatch l).rejected.map (·.deviceSequence) ++ (splitBatch l).unique.map (·.seq)).Nodup ∧
      ∀ n, n ∈ (splitBatch l).rejected.map (·.deviceSequence) ++
        (splitBatch l).unique.map (·.seq) ↔ ∃ e ∈ l, e.seq = n := by
  induction hn : l.length using Nat.strong_induction_on generalizing l with
  | _ n ih =>
    match l with
    | [] => simp [splitBatch]
    | first :: rest =>
      obtain ⟨hnodup, hmem⟩ := ih _ (hn ▸ others_length_lt first.seq first rest) _ (hl.others _) rfl
      rw [splitBatch, groupBatch_eq false hl]
      generalize splitBatch (others first.seq rest) = batch at hnodup hmem
      have hperm (conflict : Bool) :
          ((batch.close first conflict).rejected.map (·.deviceSequence) ++
            (batch.close first conflict).unique.map (·.seq)).Perm
          (first.seq :: (batch.rejected.map (·.deviceSequence) ++ batch.unique.map (·.seq))) := by
        cases conflict with
        | true => exact List.Perm.refl _
        | false => exact perm_middle
      rw [(hperm _).nodup_iff, nodup_cons]
      simp only [(hperm _).mem_iff, mem_cons, hmem, mem_others]
      refine ⟨⟨?_, hnodup⟩, fun n => ?_⟩
      · rintro ⟨e, ⟨_, hne⟩, heq⟩
        exact hne heq
      · grind

theorem uploadOne_congr (u : Upload) {d : DecodedEnvelope} (h : SameRow identity d e) :
    uploadOne identity u d = uploadOne identity u e := by
  have hseq : d.wire.deviceSeq = e.wire.deviceSeq := congrArg EnvelopeRow.deviceSeq h
  have hhash : d.recordHash = e.recordHash := congrArg EnvelopeRow.recordHash h
  have hprev : d.previousHash = e.previousHash := congrArg EnvelopeRow.previousHash h
  have hrow (k : ℤ) : d.row identity k = e.row identity k :=
    congrArg (fun r => { r with cursor := k }) h
  simp only [uploadOne, RelayDB.insertEnvelope, hseq, hhash, hprev, hrow]

theorem uploadBatch_congr (db : RelayDB) {batch batch' : Batch}
    (hrejected : batch'.rejected = batch.rejected)
    (hunique : List.Forall₂ (SameRow identity) batch'.unique batch.unique) :
    uploadBatch identity db batch' = uploadBatch identity db batch := by
  rw [uploadBatch, uploadBatch, hrejected]
  generalize (⟨db, [], batch.rejected⟩ : Upload) = u
  generalize batch'.unique = l', batch.unique = l at hunique ⊢
  induction hunique generalizing u with
  | nil => rfl
  | cons hrow _ ih => rw [foldl_cons, foldl_cons, uploadOne_congr identity u hrow, ih]

theorem sortedBatch_sortBatch (decoded : List DecodedEnvelope) : SortedBatch (sortBatch decoded) := by
  have : Std.Total (fun a b : DecodedEnvelope => a.seq ≤ b.seq) := ⟨fun a b => le_total _ _⟩
  have : IsTrans DecodedEnvelope (fun a b => a.seq ≤ b.seq) := ⟨fun _ _ _ => le_trans⟩
  exact pairwise_insertionSort _ _

theorem validateBatch_ok_iff (wires : List WireEnvelope) (decoded : List DecodedEnvelope) :
    validateBatch c identity wires = .ok decoded ↔
      List.Forall₂ (fun w e => validateEnvelope c identity w = .ok e) wires decoded := by
  induction wires generalizing decoded with
  | nil => simp [validateBatch, eq_comm]
  | cons wire rest ih =>
    rw [validateBatch, forall₂_cons_left_iff]
    grind

variable {batch : List WireEnvelope} {decoded : List DecodedEnvelope}

theorem syncEnvelopes_perm (input : SyncRequest) (db : RelayDB) {batch' : List WireEnvelope}
    (hperm : batch'.Perm batch) (hvalid : validateBatch c identity batch = .ok decoded)
    (hfree : ∀ d ∈ decoded, ∀ e ∈ decoded, d.recordHash = e.recordHash → SameRow identity d e) :
    syncEnvelopes c identity { input with envelopes := batch' } db =
      syncEnvelopes c identity { input with envelopes := batch } db := by
  obtain ⟨decoded', hvalid', hdecoded⟩ := perm_comp_forall₂ hperm
    ((validateBatch_ok_iff c identity batch decoded).mp hvalid)
  rw [← validateBatch_ok_iff] at hvalid'
  have hsort (l : List DecodedEnvelope) : (sortBatch l).Perm l := perm_insertionSort _ l
  obtain ⟨hrejected, hunique⟩ := splitBatch_perm identity (sortBatch decoded) (sortBatch decoded')
    (sortedBatch_sortBatch decoded) (sortedBatch_sortBatch decoded')
    ((hsort decoded').trans (hdecoded.trans (hsort decoded).symm))
    (fun d hd e he => hfree d ((hsort decoded).subset hd) e ((hsort decoded).subset he))
  have hupload := uploadBatch_congr identity db hrejected hunique
  simp only [syncEnvelopes, hperm.length_eq, hvalid, hvalid', hupload]

variable {identity}

def RelayDB.lookup (db : RelayDB) (identity : DeviceIdentity) (n : ℕ) : Option EnvelopeRow :=
  (db.chain identity.accountID identity.id).find? (fun r => r.deviceSeq = n)

def RelayDB.Stores (db : RelayDB) (identity : DeviceIdentity) (e : DecodedEnvelope) : Prop :=
  ∃ r, db.lookup identity e.seq = some r ∧ r.recordHash = e.recordHash

theorem lookup_append (identity : DeviceIdentity) (h : db'.envelopes = db.envelopes ++ new)
    (n : ℕ) : ∃ more, db'.lookup identity n = (db.lookup identity n).or more := by
  rw [RelayDB.lookup, RelayDB.chain, h, filter_append, find?_append]
  exact ⟨_, rfl⟩

theorem RelayDB.Stores.append (hs : db.Stores identity e)
    (h : db'.envelopes = db.envelopes ++ new) : db'.Stores identity e := by
  obtain ⟨r, hr, hhash⟩ := hs
  obtain ⟨more, hmore⟩ := lookup_append identity h e.seq
  exact ⟨r, by rw [hmore, hr, some_or], hhash⟩

/-- What the loop makes of some envelopes of a batch: every sequence is answered, rows are new,
what is accepted is stored, and what was stored is accepted. -/
structure Uploaded (identity : DeviceIdentity) (u : Upload) (l : List DecodedEnvelope)
    (v : Upload) : Prop where
  sequences : (v.accepted ++ v.rejected.map (·.deviceSequence)).Perm
    (u.accepted ++ u.rejected.map (·.deviceSequence) ++ l.map (·.seq))
  appended : ∃ new, v.db.envelopes = u.db.envelopes ++ new ∧
    ∀ r ∈ new, u.db.lookup identity r.deviceSeq = none
  kept : u.accepted ⊆ v.accepted
  stored : ∀ n ∈ v.accepted, n ∈ u.accepted ∨ ∃ e ∈ l, e.seq = n ∧ v.db.Stores identity e
  again : ∀ e ∈ l, u.db.Stores identity e → e.seq ∈ v.accepted

theorem Uploaded.trans {u v w : Upload} {l' : List DecodedEnvelope} (h : Uploaded identity u l v)
    (h' : Uploaded identity v l' w) : Uploaded identity u (l ++ l') w := by
  obtain ⟨new, henv, hnew⟩ := h.appended
  obtain ⟨new', henv', hnew'⟩ := h'.appended
  refine ⟨?_, ⟨new ++ new', by rw [henv', henv, append_assoc], ?_⟩,
    List.Subset.trans h.kept h'.kept, ?_, ?_⟩
  · rw [map_append, ← append_assoc]
    exact h'.sequences.trans (h.sequences.append_right _)
  · intro r hr
    rcases mem_append.mp hr with hr | hr
    · exact hnew r hr
    · obtain ⟨more, hmore⟩ := lookup_append identity henv r.deviceSeq
      have hnone := hnew' r hr
      rw [hmore, or_eq_none_iff] at hnone
      exact hnone.1
  · intro n hn
    rcases h'.stored n hn with hn | ⟨e, he, hseq, hs⟩
    · rcases h.stored n hn with hn | ⟨e, he, hseq, hs⟩
      · exact .inl hn
      · exact .inr ⟨e, mem_append_left _ he, hseq, hs.append henv'⟩
    · exact .inr ⟨e, mem_append_right _ he, hseq, hs⟩
  · intro e he hs
    rcases mem_append.mp he with he | he
    · exact h'.kept (h.again e he hs)
    · exact h'.again e he (hs.append henv)

theorem uploadOne_uploaded (u : Upload) (e : DecodedEnvelope) :
    Uploaded identity u [e] (uploadOne identity u e) := by
  have haccept (v : Upload) (hv : v.accepted = u.accepted ∧ v.rejected = u.rejected) :
      ((v.accept e.seq).accepted ++ (v.accept e.seq).rejected.map (·.deviceSequence)).Perm
        (u.accepted ++ u.rejected.map (·.deviceSequence) ++ [e.seq]) := by
    rw [Upload.accept, hv.1, hv.2, append_assoc, append_assoc]
    exact (perm_append_comm).append_left _
  have hreject (code : String) (hn : ¬u.db.Stores identity e) :
      Uploaded identity u [e] (u.reject e.seq code) := by
    refine ⟨?_, ⟨[], by simp [Upload.reject], by simp⟩, List.Subset.refl _,
      fun n hn => .inl hn, ?_⟩
    · simp [Upload.reject]
    · intro d hd hs
      rw [mem_singleton.mp hd] at hs
      exact absurd hs hn
  unfold uploadOne
  dsimp only
  split
  · rename_i r hfind
    split_ifs with hhash
    · refine ⟨haccept u ⟨rfl, rfl⟩, ⟨[], by simp [Upload.accept], by simp⟩,
        subset_append_left _ _, ?_, ?_⟩
      · intro n hn
        rcases mem_append.mp hn with hn | hn
        · exact .inl hn
        · exact .inr ⟨e, mem_singleton_self e, (mem_singleton.mp hn).symm,
            r, hfind, hhash⟩
      · intro d hd _
        rw [mem_singleton.mp hd]
        exact mem_append_right _ (mem_singleton_self _)
    · apply hreject
      rintro ⟨r', hr', hsame⟩
      obtain rfl := some.inj (hfind.symm.trans hr')
      exact hhash hsame
  · rename_i hfind
    have hn : ¬u.db.Stores identity e := by
      rintro ⟨r', hr', _⟩
      exact absurd (hfind.symm.trans hr') (by simp)
    split_ifs
    · exact hreject _ hn
    · exact hreject _ hn
    · exact hreject _ hn
    · -- the row that is appended is found
      refine ⟨haccept _ ⟨rfl, rfl⟩, ⟨[e.row identity (u.db.lastCursor+1)], rfl, ?_⟩,
        subset_append_left _ _, ?_, ?_⟩
      · intro r hr
        rw [mem_singleton.mp hr]
        exact hfind
      · intro n hn
        rcases mem_append.mp hn with hn | hn
        · exact .inl hn
        · refine .inr ⟨e, mem_singleton_self e, (mem_singleton.mp hn).symm,
            e.row identity (u.db.lastCursor+1), ?_, rfl⟩
          change ((u.db.insertEnvelope identity e).chain _ _).find? _ = _
          rw [chain_insertEnvelope_own, find?_append, hfind, none_or]
          simp [DecodedEnvelope.row]
      · intro d hd hs
        rw [mem_singleton.mp hd] at hs
        exact absurd hs hn

theorem uploadBatch_uploaded (identity : DeviceIdentity) (db : RelayDB) (batch : Batch) :
    Uploaded identity ⟨db, [], batch.rejected⟩ batch.unique (uploadBatch identity db batch) := by
  unfold uploadBatch
  generalize (⟨db, [], batch.rejected⟩ : Upload) = u
  generalize batch.unique = l
  induction l generalizing u with
  | nil =>
    exact ⟨by simp, ⟨[], by simp, by simp⟩, List.Subset.refl _, fun n hn => .inl hn, by simp⟩
  | cons e rest ih => exact (uploadOne_uploaded u e).trans (ih _)

variable (identity)

theorem uploadBatch_sized {wires : List WireEnvelope}
    (hvalid : validateBatch c identity wires = .ok decoded) (h : ∀ r ∈ db.envelopes, r.Sized) :
    ∀ r ∈ (uploadBatch identity db (splitBatch (sortBatch decoded))).db.envelopes, r.Sized := by
  apply uploadBatch_induction identity (fun db => ∀ r ∈ db.envelopes, r.Sized) h
  intro db e he hd _ _ r hr
  rcases mem_append.mp hr with hr | hr
  · exact hd r hr
  · obtain ⟨wire, _, hwire⟩ := mem_batch c hvalid he
    obtain ⟨header, hv⟩ := validateEnvelope_ok c hwire
    rw [mem_singleton.mp hr]
    exact EnvelopeRow.Verified.sized (c := c) ⟨identity, wire, e, header, hv, rfl⟩

theorem syncEnvelopes_sized (input : SyncRequest) (h : ∀ r ∈ db.envelopes, r.Sized) :
    ∀ r ∈ (syncEnvelopes c identity input db).2.envelopes, r.Sized := by
  rcases syncEnvelopes_cases c identity input db with ⟨_, _, he⟩ | ⟨_, _, decoded, _, he, hserved⟩
  · rw [he]
    exact h
  · rw [he, hserved.database]
    exact uploadBatch_sized c identity hserved.validated h

theorem run_sized {s t : Relay} {actions : List RelayAction}
    (h : Runs.run (Relay.step c) s actions = some t) (hs : ∀ r ∈ s.db.envelopes, r.Sized) :
    ∀ r ∈ t.db.envelopes, r.Sized := by
  refine Runs.run_invariant (fun t => ∀ r ∈ t.db.envelopes, r.Sized) ?_ hs h
  intro s a s' hs hstep
  rcases Relay.step_envelopes c s s' a hstep with ⟨he, _⟩ | ⟨f, _, input, _, hdb⟩
  · rw [he]
    exact hs
  · rw [hdb]
    exact syncEnvelopes_sized c f.identity input hs

theorem syncEnvelopes_served (input : SyncRequest) (db : RelayDB) (decoded : List DecodedEnvelope)
    (hlength : input.envelopes.length ≤ maxUploadBatch)
    (hvalid : validateBatch c identity input.envelopes = .ok decoded)
    (hcursor : 0 ≤ input.cursor ∧ input.cursor ≤ db.accountMaxCursor identity.accountID)
    (hack : 0 ≤ input.ackCursor ∧ input.ackCursor ≤ db.accountMaxCursor identity.accountID)
    (hlimit : 0 ≤ input.limit ∧ input.limit ≤ maximumSyncLimit)
    (hsized : ∀ r ∈ db.envelopes, r.Sized) :
    ∃ response db', syncEnvelopes c identity input db = (⟨200, .sync response⟩, db') ∧
      db'.envelopes = (uploadBatch identity db (splitBatch (sortBatch decoded))).db.envelopes ∧
      response.acceptedSequences =
        (uploadBatch identity db (splitBatch (sortBatch decoded))).accepted := by
  have hupload := uploadBatch_sized c identity hvalid hsized
  have happends : db.Appends (uploadBatch identity db (splitBatch (sortBatch decoded))).db := by
    apply uploadBatch_induction identity (fun db' => db.Appends db') (.of_same rfl rfl)
    intro db' e _ hd _ _
    exact hd.trans (insertEnvelope_appends db' identity e)
  have hmax := happends.accountMaxCursor_le identity.accountID
  have hrange : ¬((if input.limit = 0 then defaultSyncLimit else input.limit) < 1 ∨
      (if input.limit = 0 then defaultSyncLimit else input.limit) > maximumSyncLimit) := by
    unfold defaultSyncLimit maximumSyncLimit at *
    split_ifs <;> omega
  unfold syncEnvelopes
  dsimp only
  rw [if_neg (by omega), if_neg hrange, hvalid]
  dsimp only
  rw [if_neg (by omega)]
  split
  · rename_i hnone
    have hpage (n : ℕ) (rows : List EnvelopeRow) (h : ∀ r ∈ rows, r.Sized) :
        cutPage n rows 0 0 ≠ none := by
      obtain ⟨page, more, hcut⟩ := cutPage_isSome n rows 0 0 h
      simp [hcut]
    exact absurd hnone (hpage _ _
      (fun r hr => hupload r (mem_of_mem_filter (mem_of_mem_take hr))))
  · exact ⟨_, _, rfl, rfl, rfl⟩

theorem batch_length {input : SyncRequest} {response : SyncResponse}
    (h : syncEnvelopes c identity { input with envelopes := batch } db =
      (⟨200, .sync response⟩, db')) : batch.length ≤ maxUploadBatch := by
  by_contra hlong
  rw [syncEnvelopes, if_pos (.inr (.inr (not_le.mp hlong)))] at h
  cases h

theorem sequences_of_valid (hvalid : validateBatch c identity batch = .ok decoded) (n : ℕ) :
    (∃ e ∈ decoded, e.seq = n) ↔ ∃ wire ∈ batch, wire.deviceSeq = n := by
  have hsent (wire : WireEnvelope) (e : DecodedEnvelope)
      (h : validateEnvelope c identity wire = .ok e) : e.wire = wire := by
    obtain ⟨header, hv⟩ := validateEnvelope_ok c h
    exact hv.sent
  have hforall := (validateBatch_ok_iff c identity batch decoded).mp hvalid
  clear hvalid
  induction hforall with
  | nil => simp
  | cons h _ ih => simp [← hsent _ _ h, ← ih]

/-- The retry of a batch: it is answered, accepts what was accepted and adds no row for it. -/
structure Absorbed (reply : Reply × RelayDB) (db : RelayDB) (accepted : List ℕ) : Prop where
  answered : ∃ response, reply.1 = ⟨200, .sync response⟩ ∧ accepted ⊆ response.acceptedSequences
  rows : ∃ new, reply.2.envelopes = db.envelopes ++ new ∧ ∀ r ∈ new, r.deviceSeq ∉ accepted

structure BatchGuarantees (c : Crypto) (identity : DeviceIdentity) (batch : List WireEnvelope)
    (decoded : List DecodedEnvelope) : Prop where
  /-- If equal record hashes come from equal records, the order of the batch is invisible. -/
  orderFree : (∀ d ∈ decoded, ∀ e ∈ decoded, d.recordHash = e.recordHash → SameRow identity d e) →
    ∀ (input : SyncRequest) db (permuted : List WireEnvelope), permuted.Perm batch →
      syncEnvelopes c identity { input with envelopes := permuted } db =
        syncEnvelopes c identity { input with envelopes := batch } db
  once : ∀ (input : SyncRequest) db response db',
    syncEnvelopes c identity { input with envelopes := batch } db =
      (⟨200, .sync response⟩, db') →
    (response.acceptedSequences ++ response.rejectedSequences.map (·.deviceSequence)).Nodup ∧
      ∀ n, n ∈ response.acceptedSequences ++ response.rejectedSequences.map (·.deviceSequence) ↔
        ∃ wire ∈ batch, wire.deviceSeq = n
  /-- Stored ciphertexts have a size the table admits; the second request comes at any later
  time and with cursors of the account. -/
  again : ∀ (input : SyncRequest) db response db', (∀ r ∈ db.envelopes, r.Sized) →
    syncEnvelopes c identity { input with envelopes := batch } db =
      (⟨200, .sync response⟩, db') →
    ∀ s actions t, s.db = db' → Runs.run (Relay.step c) s actions = some t →
    ∀ retry : SyncRequest,
      (0 ≤ retry.cursor ∧ retry.cursor ≤ t.db.accountMaxCursor identity.accountID) →
      (0 ≤ retry.ackCursor ∧ retry.ackCursor ≤ t.db.accountMaxCursor identity.accountID) →
      (0 ≤ retry.limit ∧ retry.limit ≤ maximumSyncLimit) →
      Absorbed (syncEnvelopes c identity { retry with envelopes := batch } t.db) t.db
        response.acceptedSequences

theorem upload_order_free_retry_safe (c : Crypto) (identity : DeviceIdentity)
    (batch : List WireEnvelope) (decoded : List DecodedEnvelope)
    (hvalid : validateBatch c identity batch = .ok decoded) :
    BatchGuarantees c identity batch decoded := by
  have hserved (input : SyncRequest) (db : RelayDB) (response : SyncResponse) (db' : RelayDB)
      (h : syncEnvelopes c identity { input with envelopes := batch } db =
        (⟨200, .sync response⟩, db')) :
      ∃ page, Served c identity { input with envelopes := batch } db response db' decoded page := by
    rcases syncEnvelopes_cases c identity { input with envelopes := batch } db with
      ⟨status, code, he⟩ | ⟨response', db'', decoded', page, he, hs⟩
    · rw [he] at h
      cases h
    · rw [he] at h
      cases h
      obtain rfl := Except.ok.inj (hvalid.symm.trans hs.validated)
      exact ⟨page, hs⟩
  refine ⟨?_, ?_, ?_⟩
  · intro hfree input db permuted hperm
    exact syncEnvelopes_perm c identity input db hperm hvalid hfree
  · intro input db response db' h
    obtain ⟨page, hs⟩ := hserved input db response db' h
    obtain ⟨hnodup, hmem⟩ := splitBatch_sequences _ (sortedBatch_sortBatch decoded)
    have hseq := (uploadBatch_uploaded identity db (splitBatch (sortBatch decoded))).sequences
    rw [← hs.accepted, ← hs.rejected] at hseq
    refine ⟨hseq.nodup_iff.mpr hnodup, fun n => (hseq.mem_iff.trans (hmem n)).trans ?_⟩
    rw [← sequences_of_valid c identity hvalid n]
    simp only [sortBatch, mem_insertionSort]
  · intro input db response db' hsized h s actions t hstate hrun retry hcursor hack hlimit
    obtain ⟨page, hs⟩ := hserved input db response db' h
    have hdb' : ∀ r ∈ s.db.envelopes, r.Sized := by
      rw [hstate]
      have hkeep := syncEnvelopes_sized c identity { input with envelopes := batch } hsized
      rwa [h] at hkeep
    obtain ⟨response', db'', hretry, hrows, haccepted⟩ := syncEnvelopes_served c identity
      { retry with envelopes := batch } t.db decoded (batch_length c identity h) hvalid hcursor
      hack hlimit (run_sized c hrun hdb')
    -- what was accepted is stored, then and later
    obtain ⟨later, hlater⟩ := (Relay.run_appends c s hrun).envelopes
    have hstored (n : ℕ) (hn : n ∈ response.acceptedSequences) :
        ∃ e ∈ (splitBatch (sortBatch decoded)).unique, e.seq = n ∧ t.db.Stores identity e := by
      rw [hs.accepted] at hn
      rcases (uploadBatch_uploaded identity db (splitBatch (sortBatch decoded))).stored n hn with
        hn | ⟨e, he, hseq, hfound⟩
      · cases hn
      · have henv : t.db.envelopes = (uploadBatch identity db
            (splitBatch (sortBatch decoded))).db.envelopes ++ later := by
          rw [← hlater, hstate, hs.database]
          rfl
        exact ⟨e, he, hseq, hfound.append henv⟩
    have hagain := uploadBatch_uploaded identity t.db (splitBatch (sortBatch decoded))
    rw [hretry]
    refine ⟨⟨response', rfl, ?_⟩, ?_⟩
    · intro n hn
      obtain ⟨e, he, hseq, hfound⟩ := hstored n hn
      rw [haccepted, ← hseq]
      exact hagain.again e he hfound
    · obtain ⟨new, hnew, hfresh⟩ := hagain.appended
      refine ⟨new, hrows.trans hnew, ?_⟩
      intro r hr hmem
      obtain ⟨e, _, hseq, found, hfound, _⟩ := hstored _ hmem
      rw [hseq] at hfound
      exact absurd (hfound.symm.trans (hfresh r hr)) (by simp)

/-- Two copies of an upload and the next one, in the wrong order. -/
def sampleBatch : List WireEnvelope :=
  sampleUploadNext.envelopes ++ sampleUpload.envelopes ++ sampleUpload.envelopes

theorem upload_order_free_retry_safe_sample : ∃ s decoded,
    Runs.run (Relay.step sampleCrypto) .empty sampleSetup = some s ∧
    validateBatch sampleCrypto firstIdentity sampleBatch = .ok decoded ∧
    (∀ d ∈ decoded, ∀ e ∈ decoded, d.recordHash = e.recordHash → SameRow firstIdentity d e) ∧
    BatchGuarantees sampleCrypto firstIdentity sampleBatch decoded ∧
    syncEnvelopes sampleCrypto firstIdentity
        { sampleUpload with envelopes := sampleBatch.reverse } s.db =
      syncEnvelopes sampleCrypto firstIdentity { sampleUpload with envelopes := sampleBatch } s.db ∧
    (syncEnvelopes sampleCrypto firstIdentity
        { sampleUpload with envelopes := sampleBatch } s.db).2.envelopes.map (·.deviceSeq) =
      [1, 2] := by
  obtain ⟨s, hs, hrows⟩ : ∃ s ∈ Runs.run (Relay.step sampleCrypto) .empty sampleSetup,
      (syncEnvelopes sampleCrypto firstIdentity
        { sampleUpload with envelopes := sampleBatch } s.db).2.envelopes.map (·.deviceSeq) =
      [1, 2] := by
    decide +kernel
  obtain ⟨decoded, hdecoded, hfree⟩ :
      ∃ decoded ∈ (validateBatch sampleCrypto firstIdentity sampleBatch).toOption, ∀ d ∈ decoded,
      ∀ e ∈ decoded, d.recordHash = e.recordHash → d.row firstIdentity 0 = e.row firstIdentity 0 := by
    decide +kernel
  have hvalid : validateBatch sampleCrypto firstIdentity sampleBatch = .ok decoded := by
    revert hdecoded
    cases validateBatch sampleCrypto firstIdentity sampleBatch with
    | error e => exact nofun
    | ok d => exact fun h => congrArg Except.ok (some.inj h)
  have hall := upload_order_free_retry_safe _ _ _ decoded hvalid
  exact ⟨s, decoded, hs, hvalid, hfree, hall,
    hall.orderFree hfree sampleUpload s.db _ (reverse_perm _), hrows⟩

end YunPin
