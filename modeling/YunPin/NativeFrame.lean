import YunPin.ReplayCodec

/-! The frames of the native recorder as the replay lab reads them. -/
namespace YunPin
open ByteText JsonText

namespace Replay

def nativeEventVersionV1 : Bytes := lit "yunpin.replay.native.v1"

/-- A line of the native recorder, with the zero values of Go where a member is missing. -/
structure NativeFrameV1 where
  version : Bytes := []
  monotonicUS : UInt64 := 0
  utcUnixUS : UInt64 := 0
  type : EventType := .other []
  composition : Option CompositionV1 := none
  selection : Option SelectionV1 := none
  editCount : UInt32 := 0
  dropCount : UInt64 := 0
  finalText : Bytes := []
  deriving DecidableEq, Repr

open Target (field string uint64 pointer struct)

def nativeFields : List (Target.Field NativeFrameV1) :=
  [field (lit "version") (·.version) (fun f v => { f with version := v }) string,
    field (lit "monotonic_us") (·.monotonicUS) (fun f v => { f with monotonicUS := v }) uint64,
    field (lit "utc_unix_us") (·.utcUnixUS) (fun f v => { f with utcUnixUS := v }) uint64,
    field (lit "type") (·.type.text) (fun f v => { f with type := .ofText v }) string,
    field (lit "composition") (·.composition) (fun f v => { f with composition := v })
      (pointer {} (struct compositionFields)),
    field (lit "selection") (·.selection) (fun f v => { f with selection := v })
      (pointer {} (struct selectionFields)),
    field (lit "edit_count") (·.editCount) (fun f v => { f with editCount := v })
      Target.uint32,
    field (lit "drop_count") (·.dropCount) (fun f v => { f with dropCount := v }) uint64,
    field (lit "final_text") (·.finalText) (fun f v => { f with finalText := v }) string]

namespace NativeFrameV1

def validateSelection (frame : NativeFrameV1) (selection : SelectionV1) : Except String Unit :=
  reject (∀ composition ∈ frame.composition,
      selection.inRange composition = false ∨ selection.matchesRank composition = false)
    "native selection does not match its candidate snapshot"

/-- The payload is not that of a composition snapshot. -/
def invalidPayload (frame : NativeFrameV1) : Prop :=
  frame.composition = none ∨ frame.selection ≠ none ∨ frame.editCount ≠ 0 ∨ frame.dropCount ≠ 0 ∨
    frame.finalText ≠ []

instance (frame : NativeFrameV1) : Decidable frame.invalidPayload :=
  inferInstanceAs (Decidable (_ ∨ _))

def validateEdit (frame : NativeFrameV1) : Except String Unit :=
  reject (frame.composition = none ∨ frame.selection ≠ none ∨ frame.editCount = 0 ∨
      frame.editCount.toNat > maxEditCount ∨ frame.dropCount ≠ 0 ∨ frame.finalText ≠ [])
    ("native " ++ asciiText frame.type.text ++ " has an invalid payload")

def validateType (frame : NativeFrameV1) : Except String Unit :=
  match frame.type with
  | .composition => reject frame.invalidPayload "native composition_snapshot has an invalid payload"
  | .select =>
    reject (frame.composition = none ∨ frame.selection = none ∨ frame.editCount ≠ 0 ∨
        frame.dropCount ≠ 0 ∨ frame.finalText ≠ [])
      "native select has an invalid payload"
  | .commit => do
    reject (frame.composition = none ∨ frame.selection ≠ none ∨ frame.editCount ≠ 0 ∨
        frame.dropCount ≠ 0)
      "native commit has an invalid payload"
    validateText "native final_text" frame.finalText maxCommitBytes false
  | .backspace => frame.validateEdit
  | .delete => frame.validateEdit
  | .abort => reject frame.invalidPayload "native abort has an invalid payload"
  | .dropCount =>
    reject (frame.composition ≠ none ∨ frame.selection ≠ none ∨ frame.editCount ≠ 0 ∨
        frame.dropCount = 0 ∨ frame.dropCount.toNat > maxDropCount ∨ frame.finalText ≠ [])
      "native drop_count has an invalid payload"
  | type => .error ("native frame type " ++ quoted type.text ++ " is unsupported")

def validate (frame : NativeFrameV1) : Except String Unit := do
  reject (frame.version ≠ nativeEventVersionV1)
    ("unsupported native frame version " ++ quoted frame.version)
  reject (frame.utcUnixUS = 0) "native utc_unix_us must be greater than zero"
  checkPointer (fun composition => composition.validate.mapError ("native composition: " ++ ·))
    frame.composition
  checkPointer frame.validateSelection frame.selection
  frame.validateType

end NativeFrameV1

def decodeNativeFrameV1 (line : Bytes) : Except String NativeFrameV1 :=
  if line = [] ∨ line.length > maxEventBytes then
    .error ("native frame size " ++ toString line.length ++ " is outside 1.." ++
      toString maxEventBytes)
  else
    match unmarshal {} nativeFields line with
    | none => .error "decode native frame"
    | some frame => frame.validate.map (fun _ => frame)

namespace NativeFrameV1

/-- What `Validate` accepts, check by check. -/
structure Valid (frame : NativeFrameV1) : Prop where
  version : frame.version = nativeEventVersionV1
  utc : frame.utcUnixUS ≠ 0
  composition : ∀ c ∈ frame.composition, c.Valid
  selection : ∀ s ∈ frame.selection, ∃ c, frame.composition = some c ∧
    s.inRange c = true ∧ s.matchesRank c = true
  payload : frame.validateType = .ok ()

theorem validateSelection_ok_iff (frame : NativeFrameV1) (selection : SelectionV1) :
    frame.validateSelection selection = .ok () ↔ ∃ c, frame.composition = some c ∧
      selection.inRange c = true ∧ selection.matchesRank c = true := by
  rw [validateSelection, reject_ok_iff]
  cases frame.composition with
  | none => simp
  | some c => simp

theorem validate_ok_iff (frame : NativeFrameV1) : frame.validate = .ok () ↔ frame.Valid := by
  have hcomposition : (∀ c ∈ frame.composition,
      c.validate.mapError ("native composition: " ++ ·) = .ok ()) ↔
        ∀ c ∈ frame.composition, c.Valid := by
    refine forall₂_congr (fun c _ => ?_)
    rw [mapError_ok_iff, CompositionV1.validate_ok_iff]
  rw [validate]
  simp only [bind_ok_iff, reject_ok_iff, checkPointer_ok_iff, hcomposition, not_not,
    validateSelection_ok_iff]
  refine ⟨fun h => ?_, fun h => ?_⟩
  · obtain ⟨hversion, hutc, hcomp, hselection, hpayload⟩ := h
    exact ⟨hversion, hutc, hcomp, hselection, hpayload⟩
  · exact ⟨h.version, h.utc, h.composition, h.selection, h.payload⟩

end NativeFrameV1

end Replay
end YunPin
