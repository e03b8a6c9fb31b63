import GenHeap.Diagnostics.Reading
import GenHeap.Json.Value
import GenHeap.UtcTime

/-!
Snapshots of the diagnostic fields of all heaps, and their text. A snapshot is a source itself, so
fields are read from it as from a running heap; of a field that it lists twice the first entry
counts.
-/

namespace GenHeap.Diagnostics

structure SnapshotField where
  name : String
  reading : Reading
  deriving DecidableEq, Repr

structure Snapshot where
  version : Nat
  capabilities : Capabilities
  takenAt : UtcTime
  heaps : List (List SnapshotField)
  deriving DecidableEq, Repr

namespace Snapshot

/-- A field of one heap, missing if it is not listed. -/
def readField (fields : List SnapshotField) (f : Field) : Reading :=
  ((fields.find? (·.name == f.name)).map (·.reading)).getD .missing

def source (s : Snapshot) : Source where
  version := s.version
  capabilities := s.capabilities
  heaps := s.heaps.map readField

end Snapshot

/-- The fields of one heap that the source's version has, in the order of the catalogue. -/
def Source.captureHeap (s : Source) (heap : Field → Reading) : List SnapshotField :=
  (Field.all.filter (·.isKnownIn s.version)).map fun f => ⟨f.name, s.lookUp heap f⟩

def Source.capture (s : Source) (takenAt : UtcTime) : Snapshot where
  version := s.version
  capabilities := s.capabilities
  takenAt := takenAt
  heaps := s.heaps.map s.captureHeap

/-! ## Writing -/

namespace FieldValue

def toJson : FieldValue → Json
  | missing => .string "Missing"
  | scalar n => .object [("Scalar", .natural n)]
  | flag b => .object [("Flag", .bool b)]
  | pointer a => .object [("Pointer", .natural a)]
  | array words => .object [("Array", .array (words.map .natural))]

/-- Reads one of the five cases; words are 64-bit. -/
def ofJson? (j : Json) : Option FieldValue := do
  match j with
  | .string text => if text = some "Missing" then return missing else failure
  | _ =>
    match ← j.case? with
    | ("Missing", .null) => return missing
    | ("Scalar", v) => return scalar (← v.upTo? Word.largest)
    | ("Flag", v) => return flag (← v.bool?)
    | ("Pointer", v) => return pointer (← v.upTo? Word.largest)
    | ("Array", v) => return array (← (← v.array?).mapM (Json.upTo? Word.largest))
    | _ => failure

end FieldValue

namespace Reading

def stabilityToJson (stable : Bool) : Json := .string (if stable then "Stable" else "InProgress")

def stabilityOfJson? (j : Json) : Option Bool := do
  let name ← match j with
    | .string text => text
    | _ =>
      match ← j.case? with
      | (name, .null) => some name
      | _ => failure
  match name with
  | "Stable" => return true
  | "InProgress" => return false
  | _ => failure

end Reading

namespace SnapshotField

def toJson (f : SnapshotField) : Json :=
  .object [("name", .string f.name), ("value", f.reading.value.toJson),
    ("stability", Reading.stabilityToJson f.reading.stable)]

def ofJson? (j : Json) : Option SnapshotField := do
  match ← j.fields? ["name", "value", "stability"] with
  | [name, value, stability] =>
    return ⟨← name.string?, ← FieldValue.ofJson? value, ← Reading.stabilityOfJson? stability⟩
  | _ => failure

end SnapshotField

namespace Capabilities

def toJson (c : Capabilities) : Json :=
  .object [("background_gc", .bool c.backgroundCollection), ("segments", .bool c.segments)]

def ofJson? (j : Json) : Option Capabilities := do
  match ← j.fields? ["background_gc", "segments"] with
  | [backgroundCollection, segments] => return ⟨← backgroundCollection.bool?, ← segments.bool?⟩
  | _ => failure

end Capabilities

namespace Snapshot

def heapToJson (fields : List SnapshotField) : Json :=
  .object [("fields", .array (fields.map SnapshotField.toJson))]

def heapOfJson? (j : Json) : Option (List SnapshotField) := do
  match ← j.fields? ["fields"] with
  | [fields] => (← fields.array?).mapM SnapshotField.ofJson?
  | _ => failure

def toJson (s : Snapshot) : Json :=
  .object [("version", .natural s.version), ("capabilities", s.capabilities.toJson),
    ("taken_at", .string s.takenAt.text), ("heaps", .array (s.heaps.map heapToJson))]

/-- Reads a snapshot; the version is a 32-bit number. -/
def ofJson? (j : Json) : Option Snapshot := do
  match ← j.fields? ["version", "capabilities", "taken_at", "heaps"] with
  | [version, capabilities, takenAt, heaps] =>
    return {
      version := ← version.upTo? 0xFFFFFFFF
      capabilities := ← Capabilities.ofJson? capabilities
      takenAt := ← UtcTime.ofText? (← takenAt.string?)
      heaps := ← (← heaps.array?).mapM heapOfJson? }
  | _ => failure

def text (s : Snapshot) : String := s.toJson.text

def ofText (s : String) : Except HeapError Snapshot :=
  match (Json.ofText? s).bind ofJson? with
  | some snapshot => .ok snapshot
  | none => .error (.snapshot "the text holds no snapshot")

end Snapshot

end GenHeap.Diagnostics
