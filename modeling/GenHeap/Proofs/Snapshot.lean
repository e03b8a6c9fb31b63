import GenHeap.Proofs.Board
import GenHeap.Proofs.Json.Value
import GenHeap.Proofs.Reading
import GenHeap.Proofs.UtcTime

/-!
Snapshots that are written, read again, and captured. A snapshot comes back from its own text, and a
copy of a source answers every question as the source does.
-/

namespace GenHeap

open Json (Plain)

namespace Diagnostics

variable {α β : Type} {s : Snapshot} {origin : Source} {takenAt : UtcTime}

/-! ## What words can hold -/

/-- All numbers of a value are words. -/
def FieldValue.Fits : FieldValue → Prop
  | .missing | .flag _ => True
  | .scalar n => n ≤ Word.largest
  | .pointer a => a ≤ Word.largest
  | .array words => ∀ w ∈ words, w ≤ Word.largest

/-- The version is a number of 32 bits, all others are words, and the time is one of the calendar. -/
structure Snapshot.Fits (s : Snapshot) : Prop where
  version : s.version ≤ 0xFFFFFFFF
  takenAt : s.takenAt.isValid = true
  values : ∀ fields ∈ s.heaps, ∀ f ∈ fields, f.reading.value.Fits

/-- The same of what a source answers. -/
structure Source.Fits (origin : Source) : Prop where
  version : origin.version ≤ 0xFFFFFFFF
  values : ∀ heap ∈ origin.heaps, ∀ f, (heap f).value.Fits

theorem FieldValue.fits_missing : Reading.missing.value.Fits := trivial

theorem Source.fits_lookUp {heap : Field → Reading} (hheap : ∀ f, (heap f).value.Fits) (f : Field) :
    (origin.lookUp heap f).value.Fits := by
  unfold lookUp
  split
  · exact hheap f
  · exact FieldValue.fits_missing

theorem Source.Fits.capture (horigin : origin.Fits) (hclock : takenAt.isValid = true) :
    (origin.capture takenAt).Fits := by
  refine ⟨horigin.version, hclock, fun fields hfields f hf => ?_⟩
  obtain ⟨heap, hheap, rfl⟩ := List.mem_map.1 hfields
  obtain ⟨field, _, rfl⟩ := List.mem_map.1 hf
  exact fits_lookUp (horigin.values heap hheap) field

theorem Snapshot.Fits.source (hs : s.Fits) : s.source.Fits := by
  refine ⟨hs.version, fun heap hheap f => ?_⟩
  obtain ⟨fields, hfields, rfl⟩ := List.mem_map.1 hheap
  unfold readField
  cases hfound : fields.find? (·.name == f.name) with
  | none => exact FieldValue.fits_missing
  | some field => exact hs.values fields hfields field (List.mem_of_find?_eq_some hfound)

/-- Boards answer words if they hold words. -/
theorem Source.fits_ofBoards {capabilities : Capabilities} {boards : List Board}
    (hwords : ∀ b ∈ boards, ∀ f, ∀ w ∈ b.words f, w ≤ Word.largest) :
    (Source.ofBoards capabilities boards).Fits := by
  refine ⟨Nat.le_of_ble_eq_true rfl, fun heap hheap f => ?_⟩
  obtain ⟨b, hb, rfl⟩ := List.mem_map.1 hheap
  have hfirst : (b.words f).headD 0 ≤ Word.largest := by
    cases hws : b.words f with
    | nil => exact Nat.zero_le _
    | cons w ws => exact hwords b hb f w (hws ▸ List.mem_cons_self)
  show (FieldValue.ofWords f.descriptor (b.words f)).Fits
  unfold FieldValue.ofWords
  cases f.descriptor.shape with
  | fixed n => exact hwords b hb f
  | varying n => exact hwords b hb f
  | pointer => exact hfirst
  | direct =>
    cases f.descriptor.tag <;> first | exact hfirst | trivial

/-- So do boards that nothing was published on yet. -/
theorem Source.fits_ofCapacity (capabilities : Capabilities) {b : Board} {capacity : Nat}
    (hrun : Board.ofCapacity capacity = .ok b) : (Source.ofBoards capabilities [b]).Fits := by
  apply fits_ofBoards
  intro b' hb' f w hw
  rw [List.mem_singleton.1 hb', Board.words_ofCapacity hrun, Board.blank] at hw
  have hzero : w = 0 := by
    split at hw
    · exact List.mem_singleton.1 hw
    · exact List.mem_singleton.1 hw
    · exact List.eq_of_mem_replicate hw
    · exact absurd hw List.not_mem_nil
  exact hzero ▸ Nat.zero_le _

/-! ## Values as JSON -/

theorem mapM_map {f : α → β} {g : β → Option α} {xs : List α} (h : ∀ x ∈ xs, g (f x) = some x) :
    (xs.map f).mapM g = some xs := by
  induction xs with
  | nil => rfl
  | cons x xs ih =>
    rw [List.map_cons, List.mapM_cons, h x List.mem_cons_self,
      ih fun x hx => h x (List.mem_cons_of_mem _ hx)]
    rfl

/-- What each element is read as holds of all that are read. -/
theorem forall_mem_of_mapM {f : α → Option β} {P : β → Prop} (hf : ∀ {x y}, f x = some y → P y)
    {xs : List α} {ys : List β} (hread : xs.mapM f = some ys) : ∀ y ∈ ys, P y := by
  induction xs generalizing ys with
  | nil =>
    cases hread
    exact List.forall_mem_nil P
  | cons x xs ih =>
    rw [List.mapM_cons] at hread
    simp only [Option.bind_eq_bind, Option.bind_eq_some_iff] at hread
    obtain ⟨y, hy, zs, hzs, hread⟩ := hread
    cases hread
    exact List.forall_mem_cons.2 ⟨hf hy, ih hzs⟩

theorem upTo?_natural {largest n : Nat} (hn : n ≤ largest) :
    (Json.natural n).upTo? largest = some n := if_pos hn

theorem le_of_upTo? {largest n : Nat} {j : Json} (hread : j.upTo? largest = some n) :
    n ≤ largest := by
  cases j <;> simp only [Json.upTo?, reduceCtorEq] at hread
  split at hread
  · cases hread
    assumption
  · cases hread

namespace FieldValue

theorem plain_toJson (v : FieldValue) : Plain v.toJson := by
  have hcase {name : String} {j : Json} (hj : Plain j) : Plain (.object [(some name, j)]) := by
    refine .object (fun e he => ?_) fun e he => ?_
    · rw [List.mem_singleton.1 he]
      rfl
    · rw [List.mem_singleton.1 he]
      exact hj
  cases v with
  | missing => exact .string _
  | scalar n => exact hcase (.natural n)
  | flag b => exact hcase (.bool b)
  | pointer a => exact hcase (.natural a)
  | array words =>
    refine hcase (.array fun j hj => ?_)
    obtain ⟨w, _, rfl⟩ := List.mem_map.1 hj
    exact .natural w

theorem ofJson?_toJson {v : FieldValue} (hv : v.Fits) : ofJson? v.toJson = some v := by
  cases v with
  | missing => rfl
  | flag b => rfl
  | scalar n =>
    show ((Json.natural n).upTo? Word.largest).bind _ = _
    rw [upTo?_natural hv]
    rfl
  | pointer a =>
    show ((Json.natural a).upTo? Word.largest).bind _ = _
    rw [upTo?_natural hv]
    rfl
  | array words =>
    show ((words.map Json.natural).mapM (Json.upTo? Word.largest)).bind _ = _
    rw [mapM_map fun w hw => upTo?_natural (hv w hw)]
    rfl

/-- No larger number is read than a word holds. -/
theorem fits_of_ofJson? {v : FieldValue} {j : Json} (hread : ofJson? j = some v) : v.Fits := by
  unfold ofJson? at hread
  split at hread
  · split at hread <;> cases hread
    trivial
  · obtain ⟨named, -, hread⟩ := Option.bind_eq_some_iff.1 hread
    split at hread
    case h_1 =>
      cases hread
      trivial
    case h_2 | h_4 =>
      obtain ⟨n, hn, hread⟩ := Option.bind_eq_some_iff.1 hread
      cases hread
      exact le_of_upTo? hn
    case h_3 =>
      obtain ⟨b, -, hread⟩ := Option.bind_eq_some_iff.1 hread
      cases hread
      trivial
    case h_5 =>
      obtain ⟨values, -, hread⟩ := Option.bind_eq_some_iff.1 hread
      obtain ⟨words, hwords, hread⟩ := Option.bind_eq_some_iff.1 hread
      cases hread
      exact forall_mem_of_mapM le_of_upTo? hwords
    case h_6 => cases hread

end FieldValue

theorem Reading.plain_stabilityToJson (stable : Bool) : Plain (stabilityToJson stable) := by
  cases stable <;> exact .string _

theorem Reading.stabilityOfJson?_stabilityToJson (stable : Bool) :
    stabilityOfJson? (stabilityToJson stable) = some stable := by
  cases stable <;> rfl

namespace SnapshotField

theorem plain_toJson (f : SnapshotField) : Plain f.toJson := by
  unfold toJson
  refine .object (by simp) fun e he => ?_
  simp only [List.mem_cons, List.not_mem_nil, or_false] at he
  rcases he with rfl | rfl | rfl
  · exact .string _
  · exact f.reading.value.plain_toJson
  · exact Reading.plain_stabilityToJson _

theorem ofJson?_toJson {f : SnapshotField} (hf : f.reading.value.Fits) :
    ofJson? f.toJson = some f := by
  show (FieldValue.ofJson? f.reading.value.toJson).bind _ = _
  rw [FieldValue.ofJson?_toJson hf]
  show (Reading.stabilityOfJson? (Reading.stabilityToJson f.reading.stable)).bind _ = _
  rw [Reading.stabilityOfJson?_stabilityToJson]
  rfl

theorem fits_of_ofJson? {f : SnapshotField} {j : Json} (hread : ofJson? j = some f) :
    f.reading.value.Fits := by
  obtain ⟨values, -, hread⟩ := Option.bind_eq_some_iff.1 hread
  split at hread
  · obtain ⟨name, -, hread⟩ := Option.bind_eq_some_iff.1 hread
    obtain ⟨value, hvalue, hread⟩ := Option.bind_eq_some_iff.1 hread
    obtain ⟨stable, -, hread⟩ := Option.bind_eq_some_iff.1 hread
    cases hread
    exact FieldValue.fits_of_ofJson? hvalue
  · cases hread

end SnapshotField

namespace Capabilities

theorem plain_toJson (c : Capabilities) : Plain c.toJson := by
  unfold toJson
  refine .object (by simp) fun e he => ?_
  simp only [List.mem_cons, List.not_mem_nil, or_false] at he
  rcases he with rfl | rfl <;> exact .bool _

theorem ofJson?_toJson (c : Capabilities) : ofJson? c.toJson = some c := rfl

end Capabilities

namespace Snapshot

theorem plain_heapToJson (fields : List SnapshotField) : Plain (heapToJson fields) := by
  unfold heapToJson
  refine .object (by simp) fun e he => ?_
  rw [List.mem_singleton.1 he]
  refine .array fun j hj => ?_
  obtain ⟨f, _, rfl⟩ := List.mem_map.1 hj
  exact f.plain_toJson

theorem heapOfJson?_heapToJson {fields : List SnapshotField}
    (hfields : ∀ f ∈ fields, f.reading.value.Fits) :
    heapOfJson? (heapToJson fields) = some fields := by
  show (fields.map SnapshotField.toJson).mapM SnapshotField.ofJson? = _
  exact mapM_map fun f hf => SnapshotField.ofJson?_toJson (hfields f hf)

theorem fits_of_heapOfJson? {fields : List SnapshotField} {j : Json}
    (hread : heapOfJson? j = some fields) : ∀ f ∈ fields, f.reading.value.Fits := by
  obtain ⟨values, -, hread⟩ := Option.bind_eq_some_iff.1 hread
  split at hread
  · obtain ⟨listed, -, hread⟩ := Option.bind_eq_some_iff.1 hread
    exact forall_mem_of_mapM SnapshotField.fits_of_ofJson? hread
  · cases hread

theorem plain_toJson (s : Snapshot) : Plain s.toJson := by
  unfold toJson
  refine .object (by simp) fun e he => ?_
  simp only [List.mem_cons, List.not_mem_nil, or_false] at he
  rcases he with rfl | rfl | rfl | rfl
  · exact .natural _
  · exact s.capabilities.plain_toJson
  · exact .string _
  · refine .array fun j hj => ?_
    obtain ⟨fields, _, rfl⟩ := List.mem_map.1 hj
    exact plain_heapToJson fields

theorem fields?_toJson (s : Snapshot) :
    s.toJson.fields? ["version", "capabilities", "taken_at", "heaps"] =
      some [.natural s.version, s.capabilities.toJson, .string s.takenAt.text,
        .array (s.heaps.map heapToJson)] := rfl

theorem Fits.ofJson?_toJson (hs : s.Fits) : ofJson? s.toJson = some s := by
  have hheaps : (s.heaps.map heapToJson).mapM heapOfJson? = some s.heaps :=
    mapM_map fun fields hfields => heapOfJson?_heapToJson (hs.values fields hfields)
  unfold ofJson?
  simp only [fields?_toJson, Option.bind_eq_bind, Option.bind_some, upTo?_natural hs.version,
    Capabilities.ofJson?_toJson, Json.string?, Json.array?, UtcTime.ofText?_text hs.takenAt, hheaps]
  rfl

/-- What is written is read again. -/
theorem Fits.ofText_text (hs : s.Fits) : ofText s.text = .ok s := by
  unfold ofText text
  rw [Json.ofText?_text s.plain_toJson, Option.bind_some, hs.ofJson?_toJson]

theorem fits_of_ofJson? {j : Json} (hread : ofJson? j = some s) : s.Fits := by
  obtain ⟨values, -, hread⟩ := Option.bind_eq_some_iff.1 hread
  split at hread
  · obtain ⟨version, hversion, hread⟩ := Option.bind_eq_some_iff.1 hread
    obtain ⟨capabilities, -, hread⟩ := Option.bind_eq_some_iff.1 hread
    obtain ⟨time, -, hread⟩ := Option.bind_eq_some_iff.1 hread
    obtain ⟨takenAt, htakenAt, hread⟩ := Option.bind_eq_some_iff.1 hread
    obtain ⟨listed, -, hread⟩ := Option.bind_eq_some_iff.1 hread
    obtain ⟨heaps, hheaps, hread⟩ := Option.bind_eq_some_iff.1 hread
    cases hread
    exact ⟨le_of_upTo? hversion, UtcTime.isValid_of_ofText? htakenAt,
      forall_mem_of_mapM fits_of_heapOfJson? hheaps⟩
  · cases hread

theorem fits_of_ofText {text : String} (hread : ofText text = .ok s) : s.Fits := by
  unfold ofText at hread
  split at hread
  · next hs =>
    cases hread
    obtain ⟨j, -, hread⟩ := Option.bind_eq_some_iff.1 hs
    exact fits_of_ofJson? hread
  · cases hread

/-- A snapshot that a program can hold: one that is read from a text, or captured from a source
whose numbers are words. -/
inductive Obtained : Snapshot → Prop where
  | read {text : String} {s : Snapshot} (hread : ofText text = .ok s) : Obtained s
  | captured {origin : Source} {takenAt : UtcTime} (horigin : origin.Fits)
    (hclock : takenAt.isValid = true) : Obtained (origin.capture takenAt)

theorem Obtained.fits (hs : s.Obtained) : s.Fits := by
  cases hs with
  | read hread => exact fits_of_ofText hread
  | captured horigin hclock => exact horigin.capture hclock

/-- A snapshot is restored from its own text, and answers every question as before. -/
theorem restored_from_text (hs : s.Obtained) :
    ofText s.text = .ok s ∧
      ∀ restored, ofText s.text = .ok restored → ∀ heap,
        (∀ name expected,
          restored.source.read heap name expected = s.source.read heap name expected) ∧
        restored.source.outOfMemoryEvents heap = s.source.outOfMemoryEvents heap := by
  have hrestored := hs.fits.ofText_text
  refine ⟨hrestored, fun restored hread heap => ?_⟩
  rw [hrestored] at hread
  cases hread
  exact ⟨fun _ _ => rfl, rfl⟩

/-- The first snapshot is read from another text than its own: the records are arrays, and the time is
one of the year 10000 by clocks that are ahead. It has a name with a quote, a backslash and a
control character, an empty array, the largest word, a leap second, and a heap without fields. The
second one is captured from a board on which nothing was published yet. -/
theorem restored_from_text_odd :
    (let s : Snapshot := {
      version := 0xFFFFFFFF
      capabilities := ⟨true, false⟩
      takenAt := ⟨9999, 12, 31, 23, 59, 60, 500000000⟩
      heaps := [[⟨"\"\\\x00é", ⟨.array [], false⟩⟩, ⟨"", ⟨.scalar 0xFFFFFFFFFFFFFFFF, true⟩⟩], []] }
    s.Obtained ∧ ofText s.text = .ok s) ∧
    ∃ b, Board.ofCapacity 4 = .ok b ∧
      let s := (Source.ofBoards ⟨true, true⟩ [b]).capture ⟨2024, 2, 29, 12, 30, 0, 1000⟩
      s.Obtained ∧ ofText s.text = .ok s := by
  constructor
  · exact
      have hread : ofText ("[4294967295,[true,false],\"+10000-01-01t00:59:60.5+01:00\",[[[" ++
          "[\"\\\"\\\\\\u0000é\",\x7b\"Array\":[]\x7d,\"InProgress\"]," ++
          "[\"\",\x7b\"Scalar\":18446744073709551615\x7d,\"Stable\"]]],\x7b\"fields\":[]\x7d]]") =
          .ok _ := by decide +kernel
      ⟨.read hread, (restored_from_text (.read hread)).1⟩
  · have hboard : Board.ofCapacity 4 = .ok _ := rfl
    have hclock : UtcTime.isValid ⟨2024, 2, 29, 12, 30, 0, 1000⟩ = true := rfl
    have hcaptured := Obtained.captured (Source.fits_ofCapacity ⟨true, true⟩ hboard) hclock
    exact ⟨_, hboard, hcaptured, (restored_from_text hcaptured).1⟩

end Snapshot

end Diagnostics

end GenHeap
