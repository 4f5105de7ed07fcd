import YunPin.RelayChain

/-! Downloading in pages. A page is cut by the number of envelopes and by their
bytes. The client asks again from the cursor it was given until no more is left,
and other requests run in between. -/
namespace YunPin
open ByteText List

def pageBytes (page : List EnvelopeRow) : ℕ := (page.map (fun r => r.ciphertext.length)).sum

def EnvelopeRow.Sized (row : EnvelopeRow) : Prop :=
  paddingBucket+16 ≤ row.ciphertext.length ∧ row.ciphertext.length ≤ maxCiphertext ∧
    (row.ciphertext.length-16)%paddingBucket = 0

theorem EnvelopeRow.Verified.sized {c : Crypto} {row : EnvelopeRow} (h : row.Verified c) :
    row.Sized := by
  obtain ⟨identity, wire, e, header, hv, hrow⟩ := h
  have hlen := decodeSized_length hv.ciphertext
  rw [hrow]
  exact ⟨hlen.1, hlen.2, hv.padding⟩

variable (limit : ℕ) (rows page : List EnvelopeRow) {db db' : RelayDB} {account : Bytes}

theorem cutPage_isSome (count bytes : ℕ) (h : ∀ r ∈ rows, r.Sized) :
    ∃ page more, cutPage limit rows count bytes = some (page, more) := by
  induction rows generalizing count bytes with
  | nil => exact ⟨[], false, rfl⟩
  | cons row rest ih =>
    obtain ⟨hlo, hhi, hmod⟩ := h row mem_cons_self
    have hok : ¬(row.ciphertext.length < paddingBucket+16 ∨
        row.ciphertext.length > maxCiphertext ∨ (row.ciphertext.length-16)%paddingBucket ≠ 0) := by
      omega
    obtain ⟨page, more, hrest⟩ := ih (count+1) (bytes+row.ciphertext.length)
      (forall_mem_cons.mp h).2
    simp only [cutPage, if_neg hok, hrest]
    split_ifs
    · exact ⟨[], true, rfl⟩
    · exact ⟨row :: page, more, rfl⟩

theorem cutPage_spec (count bytes : ℕ) (more : Bool)
    (h : cutPage limit rows count bytes = some (page, more)) (hcount : count ≤ limit)
    (hbytes : bytes ≤ maxDownloadBytes) (hfirst : count = 0 → bytes = 0) :
    count+page.length ≤ limit ∧ bytes+pageBytes page ≤ maxDownloadBytes ∧
      (more = false → page = rows) ∧ (more = true → ∃ row rest, rows = page ++ row :: rest) := by
  induction rows generalizing page count bytes more with
  | nil =>
    simp only [cutPage, Option.some.injEq, Prod.mk.injEq] at h
    obtain ⟨rfl, rfl⟩ := h
    exact ⟨hcount, hbytes, fun _ => rfl, by simp⟩
  | cons row rest ih =>
    simp only [cutPage] at h
    split_ifs at h with hbad hcut
    · simp only [Option.some.injEq, Prod.mk.injEq] at h
      obtain ⟨rfl, rfl⟩ := h
      exact ⟨hcount, hbytes, by simp, fun _ => ⟨row, rest, rfl⟩⟩
    · split at h
      · simp at h
      rename_i page' more' hrest
      simp only [Option.some.injEq, Prod.mk.injEq] at h
      obtain ⟨rfl, rfl⟩ := h
      push Not at hbad hcut
      -- The first row of a page passes whatever its size, all of which fit.
      have hfits : bytes+row.ciphertext.length ≤ maxDownloadBytes := by
        rcases Nat.eq_zero_or_pos count with hz | hpos
        · rw [hfirst hz, Nat.zero_add]
          exact hbad.2.1
        · exact hcut.2 hpos
      obtain ⟨hn, hb, hall, hmore⟩ := ih page' (count+1) (bytes+row.ciphertext.length) more' hrest
        hcut.1 hfits (by omega)
      refine ⟨?_, ?_, fun hm => by rw [hall hm], ?_⟩
      · rw [length_cons]
        omega
      · have hsum : pageBytes (row :: page') = row.ciphertext.length+pageBytes page' := by
          simp [pageBytes]
        omega
      · intro hm
        obtain ⟨r, tail, htail⟩ := hmore hm
        exact ⟨r, tail, by rw [htail, cons_append]⟩

theorem cutPage_ne_nil {more : Bool} (hlimit : 1 ≤ limit)
    (h : cutPage limit rows 0 0 = some (page, more)) (hrows : rows ≠ []) : page ≠ [] := by
  cases rows with
  | nil => exact absurd rfl hrows
  | cons row rest =>
    have hcut : ¬(0 ≥ limit ∨ (0 > 0 ∧ 0+row.ciphertext.length > maxDownloadBytes)) := by omega
    simp only [cutPage, if_neg hcut] at h
    split_ifs at h
    split at h
    · simp at h
    · simp only [Option.some.injEq, Prod.mk.injEq] at h
      rw [← h.1]
      simp

theorem le_foldl_max (l : List ℤ) (b n : ℤ) (h : n ≤ b ∨ n ∈ l) : n ≤ l.foldl max b := by
  induction l generalizing b with
  | nil => simpa using h
  | cons a rest ih =>
    apply ih
    rcases h with h | h
    · exact .inl (h.trans (le_max_left b a))
    rcases mem_cons.mp h with rfl | h
    · exact .inl (le_max_right b n)
    · exact .inr h

theorem le_accountMaxCursor {r : EnvelopeRow} (h : r ∈ db.envelopes) :
    r.cursor ≤ db.accountMaxCursor r.accountID := by
  apply le_foldl_max
  refine .inr (mem_map_of_mem ?_)
  exact mem_filter.mpr ⟨h, decide_eq_true rfl⟩

theorem RelayDB.Appends.accountMaxCursor_le (h : db.Appends db') (account : Bytes) :
    db.accountMaxCursor account ≤ db'.accountMaxCursor account := by
  obtain ⟨_, more, he, _⟩ := h
  unfold RelayDB.accountMaxCursor
  rw [he, filter_append, map_append, foldl_append]
  exact le_foldl_max _ _ _ (.inl le_rfl)

variable {cursor : ℤ}

theorem above_filter (db : RelayDB) (account : Bytes) {next : ℤ} (h : cursor ≤ next) :
    db.above account next = (db.above account cursor).filter (fun r => decide (r.cursor > next)) := by
  unfold RelayDB.above
  rw [filter_filter]
  apply filter_congr
  intro r _
  rw [← Bool.decide_and]
  apply decide_eq_decide.mpr
  constructor
  · rintro ⟨hacc, hlt⟩
    exact ⟨hlt, hacc, h.trans_lt hlt⟩
  · rintro ⟨hlt, hacc, _⟩
    exact ⟨hacc, hlt⟩

theorem above_page (h : db.CursorsOrdered) {page rest : List EnvelopeRow}
    (hrows : db.above account cursor = page ++ rest) :
    cursor ≤ nextCursor cursor page ∧ rest = db.above account (nextCursor cursor page) ∧
      (page ≠ [] → cursor < nextCursor cursor page) := by
  have hsorted : (page ++ rest).Pairwise (fun r r' => r.cursor < r'.cursor) := by
    rw [← hrows]
    exact h.sorted.sublist filter_sublist
  have habove : ∀ r ∈ page ++ rest, cursor < r.cursor := by
    intro r hr
    rw [← hrows] at hr
    exact (of_decide_eq_true (mem_filter.mp hr).2).2
  rcases eq_nil_or_concat' page with rfl | ⟨init, last, rfl⟩
  · exact ⟨le_rfl, hrows.symm, by simp⟩
  have hnext : nextCursor cursor (init ++ [last]) = last.cursor := by simp [nextCursor]
  have hlt : cursor < last.cursor := habove last (by simp)
  rw [hnext]
  refine ⟨hlt.le, ?_, fun _ => hlt⟩
  rw [above_filter db account hlt.le, hrows, filter_append]
  obtain ⟨hinit, _, hbetween⟩ := pairwise_append.mp hsorted
  -- No row of the page is above its last one, and every later row is.
  have hnone : (init ++ [last]).filter (fun r => decide (r.cursor > last.cursor)) = [] := by
    rw [filter_eq_nil_iff]
    intro r hr hgt
    have hgt := of_decide_eq_true hgt
    rcases mem_append.mp hr with hr | hr
    · have := (pairwise_append.mp hinit).2.2 r hr last (by simp)
      omega
    · rw [mem_singleton.mp hr] at hgt
      omega
  have hall : rest.filter (fun r => decide (r.cursor > last.cursor)) = rest := by
    rw [filter_eq_self]
    intro r hr
    exact decide_eq_true (hbetween last (by simp) r hr)
  rw [hnone, hall, nil_append]

def pageRequest (limit : ℤ) (ack : ℤ → ℤ) (cursor : ℤ) : SyncRequest := ⟨cursor, ack cursor, limit, []⟩

structure PageOf (db : RelayDB) (account : Bytes) (limit : ℕ) (cursor : ℤ) (response : SyncResponse)
    (page : List EnvelopeRow) : Prop where
  envelopes : response.envelopes = page.map EnvelopeRow.outgoing
  rows : db.above account cursor = page ++ db.above account response.nextCursor
  cursor_le : cursor ≤ response.nextCursor
  last : response.hasMore = false → db.above account response.nextCursor = []
  progress : response.hasMore = true → page ≠ [] ∧ cursor < response.nextCursor
  more : response.hasMore = true → db.above account response.nextCursor ≠ []
  count : page.length ≤ limit
  bytes : pageBytes page ≤ maxDownloadBytes

theorem cutPage_pageOf (h : db.CursorsOrdered) {limit : ℕ} (hlimit : 1 ≤ limit)
    {page : List EnvelopeRow} {more : Bool}
    (hcut : cutPage limit ((db.above account cursor).take (limit+1)) 0 0 = some (page, more))
    {response : SyncResponse} (henv : response.envelopes = page.map EnvelopeRow.outgoing)
    (hnext : response.nextCursor = nextCursor cursor page) (hmore : response.hasMore = more) :
    PageOf db account limit cursor response page := by
  obtain ⟨hcount, hbytes, hall, hfollowed⟩ :=
    cutPage_spec limit _ page 0 0 more hcut (Nat.zero_le _) (Nat.zero_le _) (fun _ => rfl)
  rw [Nat.zero_add] at hcount hbytes
  obtain ⟨rest, hrest⟩ : ∃ rest, db.above account cursor = page ++ rest := by
    obtain ⟨rest, hrest⟩ := (cutPage_initial _ _ _ _ _ hcut).trans ( take_prefix _ _)
    exact ⟨rest, hrest.symm⟩
  obtain ⟨hle, hrest', hlt⟩ := above_page h hrest
  rw [hrest', ← hnext] at hrest
  refine ⟨henv, hrest, hnext ▸ hle, ?_, ?_, ?_, hcount, hbytes⟩
  · intro hno
    -- The look-ahead found no row beyond the page, so the page is everything.
    have hpage := hall (hmore.symm.trans hno)
    have hlen : (db.above account cursor).length ≤ limit := by
      have := congrArg List.length hpage
      rw [length_take] at this
      omega
    rw [take_of_length_le (by omega)] at hpage
    rw [← hpage] at hrest
    exact append_right_eq_self.mp hrest.symm
  · intro hyes
    obtain ⟨row, tail, htail⟩ := hfollowed (hmore.symm.trans hyes)
    have hne := cutPage_ne_nil limit _ page hlimit hcut (by rw [htail]; simp)
    exact ⟨hne, hnext ▸ hlt hne⟩
  · intro hyes hnil
    obtain ⟨row, tail, htail⟩ := hfollowed (hmore.symm.trans hyes)
    have hsub : row ∈ db.above account cursor := by
      apply mem_of_mem_take
      rw [htail]
      simp
    rw [hnil, append_nil] at hrest
    have hlen := congrArg List.length htail
    rw [hrest, length_take, length_append, length_cons] at hlen
    omega

theorem syncEnvelopes_page (c : Crypto) {identity : DeviceIdentity} {limit : ℤ} (ack : ℤ → ℤ)
    (hordered : db.CursorsOrdered) (hsized : ∀ r ∈ db.envelopes, r.Sized)
    (hlimit : 1 ≤ limit ∧ limit ≤ 256)
    (hcursor : 0 ≤ cursor ∧ cursor ≤ db.accountMaxCursor identity.accountID)
    (hack : 0 ≤ ack cursor ∧ ack cursor ≤ cursor) :
    ∃ response db' page,
      syncEnvelopes c identity (pageRequest limit ack cursor) db = (⟨200, .sync response⟩, db') ∧
      db'.envelopes = db.envelopes ∧ db'.lastCursor = db.lastCursor ∧
      PageOf db identity.accountID limit.toNat cursor response page := by
  obtain ⟨page, more, hcut⟩ := cutPage_isSome limit.toNat
    ((db.above identity.accountID cursor).take (limit.toNat+1)) 0 0
    (fun r hr => hsized r (mem_filter.mp (mem_of_mem_take hr)).1)
  -- The checks of the handler, in its order, none of which fires.
  have hbad : ¬(cursor < 0 ∨ ack cursor < 0 ∨ ([] : List WireEnvelope).length > maxUploadBatch) := by
    simp only [length_nil]
    omega
  have hzero : ¬limit = 0 := by omega
  have hrange : ¬(limit < 1 ∨ limit > maximumSyncLimit) := by
    unfold maximumSyncLimit
    omega
  have hmax : ¬(cursor > db.accountMaxCursor identity.accountID ∨
      ack cursor > db.accountMaxCursor identity.accountID) := by omega
  have hserved : syncEnvelopes c identity (pageRequest limit ack cursor) db =
      (⟨200, .sync {
        acceptedSequences := []
        rejectedSequences := []
        envelopes := page.map EnvelopeRow.outgoing
        nextCursor := nextCursor cursor page
        hasMore := more
        currentKeyEpoch := db.currentKeyEpoch identity.accountID }⟩,
        db.acknowledge identity (ack cursor)) := by
    have habove : (db.acknowledge identity (ack cursor)).above identity.accountID cursor =
        db.above identity.accountID cursor := rfl
    have hup : uploadBatch identity db (splitBatch (sortBatch [])) = ⟨db, [], []⟩ := rfl
    unfold syncEnvelopes pageRequest
    simp only [hbad, hzero, hrange, if_false, validateBatch, hup, hmax, habove, hcut]
    rfl
  refine ⟨_, _, page, hserved, rfl, rfl, ?_⟩
  exact cutPage_pageOf hordered (by omega) hcut rfl rfl rfl

/-- Pages until no more is left. Before each further page the relay serves the next
list of requests of anyone. -/
def Relay.download (c : Crypto) (identity : DeviceIdentity) (limit : ℤ) (ack : ℤ → ℤ) :
    List (List RelayAction) → ℤ → Relay → Option (List Reply × Relay)
  | [], cursor, s =>
    let done := syncEnvelopes c identity (pageRequest limit ack cursor) s.db
    some ([done.1], { s with db := done.2 })
  | actions :: others, cursor, s =>
    let done := syncEnvelopes c identity (pageRequest limit ack cursor) s.db
    match done.1.body with
    | .sync response =>
      if response.hasMore then
        match Runs.run (Relay.step c) { s with db := done.2 } actions with
        | none => none
        | some t =>
          match Relay.download c identity limit ack others response.nextCursor t with
          | none => none
          | some (replies, t') => some (done.1 :: replies, t')
      else some ([done.1], { s with db := done.2 })
    | _ => some ([done.1], { s with db := done.2 })

def downloadBytes (envelopes : List WireEnvelope) : ℕ :=
  (envelopes.map (fun w => ((base64Decode w.ciphertext).getD []).length)).sum

theorem downloadBytes_outgoing :
    downloadBytes (page.map EnvelopeRow.outgoing) = pageBytes page := by
  unfold downloadBytes pageBytes
  rw [map_map]
  congr 1
  apply map_congr_left
  intro r _
  simp [EnvelopeRow.outgoing, base64Decode_base64Encode]

structure PageBounds (limit : ℤ) (cursor : ℤ) (response : SyncResponse) : Prop where
  count : (response.envelopes.length : ℤ) ≤ limit
  bytes : downloadBytes response.envelopes ≤ 524816
  progress : response.hasMore = true → response.envelopes ≠ [] ∧ cursor < response.nextCursor

def PagesFrom (limit : ℤ) : ℤ → List SyncResponse → Prop
  | _, [] => True
  | cursor, response :: rest =>
    PageBounds limit cursor response ∧ PagesFrom limit response.nextCursor rest

/-- What the client has after its last page, of the envelopes that are there then. -/
structure Downloaded (db : RelayDB) (account : Bytes) (limit cursor : ℤ) (rounds : ℕ)
    (responses : List SyncResponse) : Prop where
  pages : PagesFrom limit cursor responses
  ordered : (db.above account cursor).Pairwise (fun r r' => r.cursor < r'.cursor)
  complete : responses.getLast?.map (·.hasMore) = some false →
    responses.flatMap (·.envelopes) = (db.above account cursor).map EnvelopeRow.outgoing
  ends : (db.above account cursor).length ≤ rounds →
    responses.getLast?.map (·.hasMore) = some false

variable {response : SyncResponse} {rounds : ℕ}

theorem PageOf.bounds {limit : ℤ} {page : List EnvelopeRow}
    (h : PageOf db account limit.toNat cursor response page) (hlimit : 1 ≤ limit) :
    PageBounds limit cursor response := by
  have hlen : response.envelopes.length = page.length := by rw [h.envelopes, length_map]
  refine ⟨?_, ?_, ?_⟩
  · have := h.count
    omega
  · rw [h.envelopes, downloadBytes_outgoing]
    exact h.bytes
  · intro hmore
    obtain ⟨hne, hlt⟩ := h.progress hmore
    exact ⟨by rw [h.envelopes]; simpa using hne, hlt⟩

theorem RelayDB.Appends.above (h : db.Appends db') :
    ∃ more : Bytes → List EnvelopeRow, ∀ account cursor, cursor ≤ db.lastCursor →
      db'.above account cursor = db.above account cursor ++ more account := by
  obtain ⟨_, more, he, hmore⟩ := h
  refine ⟨fun account => more.filter (fun r => decide (r.accountID = account)), ?_⟩
  intro account cursor hle
  unfold RelayDB.above
  rw [he, filter_append]
  congr 1
  apply filter_congr
  intro r hr
  have hlt : r.cursor > cursor := hle.trans_lt (hmore r hr)
  simp [hlt]

theorem PageOf.downloaded {limit : ℤ} {page : List EnvelopeRow}
    (h : PageOf db account limit.toNat cursor response page) (hlimit : 1 ≤ limit)
    (hlinked : db'.Linked) (henv : db'.envelopes = db.envelopes)
    (hrounds : response.hasMore = true → rounds = 0) :
    Downloaded db' account limit cursor rounds [response] := by
  have hab : db'.above account cursor = db.above account cursor := by
    unfold RelayDB.above
    rw [henv]
  refine ⟨⟨h.bounds hlimit, trivial⟩, hlinked.ordered.sorted.sublist filter_sublist, ?_, ?_⟩
  · intro hno
    have hno : response.hasMore = false := by simpa using hno
    rw [hab, h.rows, h.last hno, append_nil, flatMap_singleton, h.envelopes]
  · intro hle
    by_contra hmore
    have hmore : response.hasMore = true := by simpa using hmore
    rw [hrounds hmore, hab, h.rows, Nat.le_zero, length_eq_zero_iff,
      append_eq_nil_iff] at hle
    exact (h.progress hmore).1 hle.1

theorem Downloaded.cons {limit : ℤ} {page : List EnvelopeRow} {responses : List SyncResponse}
    (hpage : PageOf db account limit.toNat cursor response page) (hlimit : 1 ≤ limit)
    (hmore : response.hasMore = true) (happ : db.Appends db')
    (hlast : response.nextCursor ≤ db.lastCursor) (hlinked : db'.Linked) (hne : responses ≠ [])
    (h : Downloaded db' account limit response.nextCursor rounds responses) :
    Downloaded db' account limit cursor (rounds+1) (response :: responses) := by
  -- The same new rows stand above either cursor.
  obtain ⟨more, hnew⟩ := happ.above
  have hrows : db'.above account cursor = page ++ db'.above account response.nextCursor := by
    rw [hnew account cursor (hpage.cursor_le.trans hlast), hnew account _ hlast, hpage.rows,
      append_assoc]
  have hget : (response :: responses).getLast? = responses.getLast? := by
    obtain ⟨r, rest, rfl⟩ := exists_cons_of_ne_nil hne
    exact getLast?_cons_cons
  refine ⟨⟨hpage.bounds hlimit, h.pages⟩, hlinked.ordered.sorted.sublist filter_sublist, ?_, ?_⟩
  · intro hno
    rw [hget] at hno
    rw [flatMap_cons, h.complete hno, hrows, map_append, hpage.envelopes]
  · intro hle
    rw [hget]
    apply h.ends
    have hpos : 0 < page.length := length_pos_of_ne_nil (hpage.progress hmore).1
    rw [hrows, length_append] at hle
    omega

theorem PageOf.next_le {limit : ℕ} {page : List EnvelopeRow}
    (h : PageOf db account limit cursor response page) (hmore : response.hasMore = true) :
    response.nextCursor ≤ db.accountMaxCursor account := by
  -- A row is left, and it is above the next cursor.
  obtain ⟨row, rest, hrow⟩ := exists_cons_of_ne_nil (h.more hmore)
  have hmem : row ∈ db.above account response.nextCursor := by
    rw [hrow]
    exact mem_cons_self
  obtain ⟨henv, hrow⟩ := mem_filter.mp hmem
  obtain ⟨hacc, hlt⟩ := of_decide_eq_true hrow
  have hle := le_accountMaxCursor henv
  rw [hacc] at hle
  omega

theorem download_complete {c : Crypto} {identity : DeviceIdentity} {limit : ℤ} (ack : ℤ → ℤ)
    (hlimit : 1 ≤ limit ∧ limit ≤ 256) (hack : ∀ k, 0 ≤ k → 0 ≤ ack k ∧ ack k ≤ k)
    {others : List (List RelayAction)} (cursor : ℤ) (s : Relay) (hs : s.db.Linked)
    (hv : ∀ r ∈ s.db.envelopes, r.Verified c)
    (hcursor : 0 ≤ cursor ∧ cursor ≤ s.db.accountMaxCursor identity.accountID)
    (replies : List Reply) {t : Relay}
    (h : s.download c identity limit ack others cursor = some (replies, t)) :
    t.db.Linked ∧ s.db.Appends t.db ∧ ∃ responses, responses ≠ [] ∧
      replies = responses.map (fun r => ⟨200, .sync r⟩) ∧
      Downloaded t.db identity.accountID limit cursor others.length responses := by
  induction others generalizing cursor s replies with
  | nil =>
    obtain ⟨response, db', page, hserved, henv, hlast, hpage⟩ := syncEnvelopes_page c
      ack hs.ordered (fun r hr => (hv r hr).sized) hlimit hcursor (hack cursor hcursor.1)
    simp only [Relay.download, hserved, Option.some.injEq, Prod.mk.injEq] at h
    obtain ⟨rfl, rfl⟩ := h
    have hlinked : db'.Linked := hs.same henv hlast
    exact ⟨hlinked, .of_same henv hlast, [response], by simp, rfl,
      hpage.downloaded hlimit.1 hlinked henv (fun _ => rfl)⟩
  | cons actions others ih =>
    obtain ⟨response, db', page, hserved, henv, hlast, hpage⟩ := syncEnvelopes_page c
      ack hs.ordered (fun r hr => (hv r hr).sized) hlimit hcursor (hack cursor hcursor.1)
    have hlinked : db'.Linked := hs.same henv hlast
    simp only [Relay.download, hserved] at h
    split_ifs at h with hmore
    · split at h
      · simp at h
      rename_i u hu
      split at h
      · simp at h
      rename_i replies' t' hrest
      cases h
      -- The other requests keep the tables in order and only append.
      have hulinked : u.db.Linked := RelayDB.Linked.run hlinked hu
      have huv : ∀ r ∈ u.db.envelopes, r.Verified c := verified_run c _ (by rw [henv]; exact hv) hu
      have happ : s.db.Appends u.db :=
        RelayDB.Appends.trans (.of_same henv hlast) (Relay.run_appends c _ hu)
      have hnext := hpage.next_le hmore
      obtain ⟨htlinked, hut, responses, hne, rfl, hdown⟩ := ih response.nextCursor u hulinked huv
        ⟨hcursor.1.trans hpage.cursor_le, hnext.trans (happ.accountMaxCursor_le _)⟩ replies' hrest
      refine ⟨htlinked, happ.trans hut, response :: responses, by simp, rfl, ?_⟩
      exact hdown.cons hpage hlimit.1 hmore (happ.trans hut)
        (hnext.trans (accountMaxCursor_le s.db hs.ordered)) htlinked hne
    · cases h
      exact ⟨hlinked, .of_same henv hlast, [response], by simp, rfl,
        hpage.downloaded hlimit.1 hlinked henv (fun hyes => absurd hyes hmore)⟩

/-- From any cursor of the account and with any limit, every request is answered
with a page within both limits that gets on; when the last page says so, the pages
are exactly the envelopes above the start, each once and in order, that were there
at the last request; and there are at most as many pages as envelopes. -/
theorem paging_complete (c : Crypto) (before : List RelayAction) (s : Relay)
    (hs : Runs.run (Relay.step c) .empty before = some s) (identity : DeviceIdentity)
    (limit : ℤ) (hlimit : 1 ≤ limit ∧ limit ≤ 256)
    (ack : ℤ → ℤ) (hack : ∀ k, 0 ≤ k → 0 ≤ ack k ∧ ack k ≤ k)
    (cursor : ℤ) (hcursor : 0 ≤ cursor ∧ cursor ≤ s.db.accountMaxCursor identity.accountID)
    (others : List (List RelayAction)) (replies : List Reply) (t : Relay)
    (h : s.download c identity limit ack others cursor = some (replies, t)) :
    ∃ responses, replies = responses.map (fun r => ⟨200, .sync r⟩) ∧
      Downloaded t.db identity.accountID limit cursor others.length responses := by
  have hlinked : s.db.Linked := RelayDB.Linked.empty.run hs
  have hverified : ∀ r ∈ s.db.envelopes, r.Verified c :=
    verified_run c .empty (by simp [Relay.empty, RelayDB.empty]) hs
  obtain ⟨_, _, responses, _, hreplies, hdown⟩ :=
    download_complete ack hlimit hack cursor s hlinked hverified hcursor replies h
  exact ⟨responses, hreplies, hdown⟩

def firstIdentity : DeviceIdentity :=
  ⟨firstDevice, randomID (sampleMoment 0) 0, List.replicate 32 2, List.replicate 32 3⟩

/-- Two devices have uploaded; the first page of one envelope is followed by a third
upload, and the download goes on to its end. -/
theorem paging_complete_appended : ∃ (s t : Relay) (replies : List Reply),
    Runs.run (Relay.step sampleCrypto) .empty (sampleSetup ++
      [.arrive firstHeader (.sync sampleUpload) none, .run 0 (sampleMoment 0),
        .arrive secondHeader (.sync sampleUpload) none, .run 0 (sampleMoment 0)]) = some s ∧
    s.download sampleCrypto firstIdentity 1 id
      [[.arrive firstHeader (.sync sampleUploadNext) none, .run 0 (sampleMoment 0)], [], []] 0 =
      some (replies, t) ∧
    replies.length = 3 ∧ t.db.envelopes.length = 3 ∧
    ∃ responses, replies = responses.map (fun r => ⟨200, .sync r⟩) ∧
      Downloaded t.db firstIdentity.accountID 1 0 3 responses := by
  obtain ⟨s, hs, ⟨replies, t⟩, hd, hlen, henv, hmax⟩ : ∃ s ∈ Runs.run (Relay.step sampleCrypto) .empty
      (sampleSetup ++ [.arrive firstHeader (.sync sampleUpload) none, .run 0 (sampleMoment 0),
        .arrive secondHeader (.sync sampleUpload) none, .run 0 (sampleMoment 0)]),
      ∃ d ∈ s.download sampleCrypto firstIdentity 1 id
        [[.arrive firstHeader (.sync sampleUploadNext) none, .run 0 (sampleMoment 0)], [], []] 0,
      d.1.length = 3 ∧ d.2.db.envelopes.length = 3 ∧
        0 ≤ s.db.accountMaxCursor firstIdentity.accountID := by
    decide +kernel
  exact ⟨s, t, replies, hs, hd, hlen, henv, paging_complete sampleCrypto _ s hs firstIdentity 1
    (by decide) id (fun k hk => ⟨hk, le_rfl⟩) 0 ⟨le_rfl, hmax⟩ _ replies t hd⟩

end YunPin
