import YunPin.RelayHandlers
import YunPin.Runs

/-! The relay as a machine. A request behind `requireAuth` takes two steps: the
authentication query when it arrives, and later the transaction of its handler.
Between them any number of other requests may run. -/
namespace YunPin
open ByteText List

/-- A request that has passed authentication and whose handler has not run yet.
`call` names the client request it answers, when the model follows that client. -/
structure Flight where
  identity : DeviceIdentity
  op : AuthOp
  call : Option ℕ
deriving DecidableEq

structure Relay where
  db : RelayDB
  flights : List Flight
  replies : List (ℕ × Reply)

def Relay.empty : Relay := ⟨.empty, [], []⟩

inductive RelayAction
  /-- A request reaches `requireAuth`. -/
  | arrive (header : Bytes) (op : AuthOp) (call : Option ℕ)
  /-- The handler of a request in flight runs. -/
  | run (i : ℕ) (moment : Moment)
  /-- A request to an endpoint without authentication is served. -/
  | serve (op : OpenOp) (moment : Moment)

def Relay.post (s : Relay) (call : Option ℕ) (reply : Reply) : Relay :=
  match call with
  | none => s
  | some n => { s with replies := s.replies ++ [(n, reply)] }

def Relay.step (c : Crypto) (s : Relay) (a : RelayAction) : Option Relay :=
  match a with
  | .arrive header op call =>
    match authenticate c s.db header with
    | .error reply => some (s.post call reply)
    | .ok identity => some { s with flights := s.flights ++ [⟨identity, op, call⟩] }
  | .run i moment =>
    match s.flights[i]? with
    | none => none
    | some f =>
      let done := f.op.exec c f.identity moment s.db
      some (Relay.post { s with db := done.2, flights := s.flights.eraseIdx i } f.call done.1)
  | .serve op moment => some { s with db := (op.exec c moment s.db).2 }

variable {c : Crypto} {s s' : Relay} {a : RelayAction}

@[simp] theorem Relay.post_db (s : Relay) {call : Option ℕ} {reply : Reply} :
    (s.post call reply).db = s.db := by cases call <;> rfl

@[simp] theorem Relay.post_flights (s : Relay) {call : Option ℕ} {reply : Reply} :
    (s.post call reply).flights = s.flights := by cases call <;> rfl

theorem Relay.step_cases (h : s.step c a = some s') :
    (∃ header op call, a = .arrive header op call ∧ s'.db = s.db ∧
      (s'.flights = s.flights ∨ ∃ identity, authenticate c s.db header = .ok identity ∧
        s'.flights = s.flights ++ [⟨identity, op, call⟩])) ∨
    (∃ i moment f, a = .run i moment ∧ s.flights[i]? = some f ∧
      s'.db = (f.op.exec c f.identity moment s.db).2 ∧ s'.flights = s.flights.eraseIdx i) ∨
    (∃ op moment, a = .serve op moment ∧ s'.db = (op.exec c moment s.db).2 ∧
      s'.flights = s.flights) := by
  cases a with
  | arrive header op call =>
    refine .inl ⟨header, op, call, rfl, ?_⟩
    simp only [step] at h
    split at h
    · cases h
      exact ⟨Relay.post_db _, .inl (Relay.post_flights _)⟩
    · rename_i identity hid
      cases h
      exact ⟨rfl, .inr ⟨identity, hid, rfl⟩⟩
  | run i moment =>
    simp only [step] at h
    split at h
    · simp at h
    · rename_i f hf
      cases h
      exact .inr (.inl ⟨i, moment, f, rfl, hf, Relay.post_db _, Relay.post_flights _⟩)
  | serve op moment =>
    cases h
    exact .inr (.inr ⟨op, moment, rfl, rfl, rfl⟩)

/-! Devices along a step: rows are rewritten in place, and at most one is added
under an id and a token that were not taken. -/

theorem serve_devices (c : Crypto) (op : OpenOp) (moment : Moment) (db : RelayDB) :
    ∃ added : List DeviceRow, (op.exec c moment db).2.devices = db.devices ++ added ∧
      added.length ≤ 1 ∧ ∀ r ∈ added, r.revokedAt = none ∧
        ∀ d ∈ db.devices, d.id ≠ r.id ∧ d.tokenHash ≠ r.tokenHash := by
  rcases op.exec_cases c moment db with he | ⟨accounts, row, _, hrow, hfresh, _, he⟩ |
    ⟨_, _, p, token, _, _, _, _, hfresh, he⟩ | ⟨_, _, _, _, _, he⟩
  · exact ⟨[], by rw [he, append_nil], by simp, by simp⟩
  · refine ⟨[row], by rw [he], by simp, ?_⟩
    intro r hr
    rw [mem_singleton.mp hr]
    exact ⟨hrow, hfresh⟩
  · refine ⟨[p.device c token moment.now], by rw [he]; rfl, by simp, ?_⟩
    intro r hr
    rw [mem_singleton.mp hr]
    exact ⟨rfl, hfresh⟩
  · exact ⟨[], by rw [he, append_nil]; rfl, by simp, by simp⟩

theorem Relay.step_devices (h : s.step c a = some s') :
    ∃ (g : DeviceRow → DeviceRow) (added : List DeviceRow),
      s'.db.devices = s.db.devices.map g ++ added ∧ (∀ r, (g r).fixed = r.fixed) ∧
      added.length ≤ 1 ∧ ∀ r ∈ added, ∀ d ∈ s.db.devices, d.id ≠ r.id ∧ d.tokenHash ≠ r.tokenHash := by
  rcases Relay.step_cases h with ⟨_, _, _, _, hdb, _⟩ | ⟨i, moment, f, _, _, hdb, _⟩ |
    ⟨op, moment, _, hdb, _⟩
  · exact ⟨id, [], by rw [hdb, map_id, append_nil], fun _ => rfl, by simp, by simp⟩
  · obtain ⟨g, hg, hr⟩ := f.op.exec_devices c f.identity moment s.db
    exact ⟨g, [], by rw [hdb, hg, append_nil], fun r => (hr r).1, by simp, by simp⟩
  · obtain ⟨added, he, hlen, hadded⟩ := serve_devices c op moment s.db
    exact ⟨id, added, by rw [hdb, he, map_id], fun _ => rfl, hlen, fun r hr => (hadded r hr).2⟩

structure RelayDB.UniqueDevices (db : RelayDB) : Prop where
  ids : (db.devices.map (·.id)).Nodup
  tokens : (db.devices.map (·.tokenHash)).Nodup

/-- A column that the rewriting keeps has distinct values still when at most one
row with a new value is added. -/
theorem nodup_column {ρ β : Type} (column : ρ → β) {rows added : List ρ} (g : ρ → ρ)
    (hg : ∀ r, column (g r) = column r) (hlen : added.length ≤ 1)
    (hnew : ∀ r ∈ added, ∀ d ∈ rows, column d ≠ column r) (h : (rows.map column).Nodup) :
    ((rows.map g ++ added).map column).Nodup := by
  have hsame : (rows.map g).map column = rows.map column := by
    rw [map_map]
    exact map_congr_left (fun r _ => hg r)
  rw [map_append, hsame, nodup_append]
  refine ⟨h, ?_, ?_⟩
  · match added, hlen with
    | [], _ => exact nodup_nil
    | [r], _ => exact nodup_singleton _
  · intro a ha b hb
    obtain ⟨d, hd, rfl⟩ := mem_map.mp ha
    obtain ⟨r, hr, rfl⟩ := mem_map.mp hb
    exact hnew r hr d hd

theorem uniqueDevices_step (h : s.step c a = some s') (hu : s.db.UniqueDevices) :
    s'.db.UniqueDevices := by
  obtain ⟨g, added, he, hg, hlen, hadded⟩ := Relay.step_devices h
  refine ⟨?_, ?_⟩
  · rw [he]
    exact nodup_column (·.id) g (fun r => congrArg DeviceRow.id (hg r)) hlen
      (fun r hr d hd => (hadded r hr d hd).1) hu.ids
  · rw [he]
    exact nodup_column (·.tokenHash) g (fun r => congrArg DeviceRow.tokenHash (hg r)) hlen
      (fun r hr d hd => (hadded r hr d hd).2) hu.tokens

end YunPin
