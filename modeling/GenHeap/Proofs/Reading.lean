import GenHeap.Diagnostics.Snapshot
import GenHeap.Proofs.Effect

/-!
Reading fields by name. A snapshot that is captured from a source answers every question as the
source does.
-/

namespace GenHeap.Diagnostics

variable {f g : Field} {i : Nat} {heap : Field → Reading} {s : Source}

theorem Field.name_inj (hname : f.name = g.name) : f = g := by
  have hfound := ofName?_name f
  rw [hname, ofName?_name g] at hfound
  exact (Option.some.inj hfound).symm

namespace Source

/-- A field of the catalogue, asked for by its name and as what it is. -/
theorem read_eq (hheap : s.heaps[i]? = some heap) (f : Field) :
    s.read i f.name f.descriptor.tag = .ok (s.lookUp heap f) := by
  unfold read
  simp only [Field.ofName?_name, hheap, ne_eq, not_true_eq_false, if_false]

theorem lookUp_eq (hknown : f.isKnownIn s.version = true)
    (havailable : f.isAvailable s.capabilities = true) : s.lookUp heap f = heap f := by
  unfold lookUp
  rw [hknown, havailable]
  rfl

theorem readField_captureHeap (hknown : f.isKnownIn s.version = true) :
    Snapshot.readField (s.captureHeap heap) f = s.lookUp heap f := by
  have hsame (g : Field) :
      decide (g.isKnownIn s.version = true ∧ (g.name == f.name) = true) = (g.name == f.name) := by
    rw [Bool.decide_and, Bool.decide_eq_true, Bool.decide_eq_true]
    cases hname : g.name == f.name with
    | false => rw [Bool.and_false]
    | true => rw [Field.name_inj (eq_of_beq hname), hknown, Bool.true_and]
  have hfound : (Field.all.filter (·.isKnownIn s.version)).find? (·.name == f.name) = some f := by
    rw [List.find?_filter]
    simp only [hsame]
    exact Field.ofName?_name f
  unfold Snapshot.readField captureHeap
  rw [List.find?_map]
  have hfind : (Field.all.filter (·.isKnownIn s.version)).find?
      ((fun x : SnapshotField => x.name == f.name) ∘ fun g => ⟨g.name, s.lookUp heap g⟩) = some f :=
    hfound
  rw [hfind]
  rfl

/-- What a version does not know or a configuration does not have is missing on both sides, whatever
the snapshot lists for it. -/
theorem lookUp_capture (s : Source) (takenAt : UtcTime) (heap : Field → Reading) (f : Field) :
    (s.capture takenAt).source.lookUp (Snapshot.readField (s.captureHeap heap)) f =
      s.lookUp heap f := by
  cases hasked : f.isKnownIn s.version && f.isAvailable s.capabilities with
  | true =>
    obtain ⟨hknown, havailable⟩ := Bool.and_eq_true_iff.1 hasked
    have hcopied : (s.capture takenAt).source.lookUp (Snapshot.readField (s.captureHeap heap)) f =
        Snapshot.readField (s.captureHeap heap) f := lookUp_eq hknown havailable
    rw [hcopied, readField_captureHeap hknown]
  | false =>
    unfold lookUp
    simp only [Snapshot.source, capture, hasked, Bool.false_eq_true, if_false]

theorem heaps_capture (s : Source) (takenAt : UtcTime) (i : Nat) :
    (s.capture takenAt).source.heaps[i]? =
      s.heaps[i]?.map fun heap => Snapshot.readField (s.captureHeap heap) := by
  unfold Snapshot.source capture
  rw [List.getElem?_map, List.getElem?_map, Option.map_map]
  rfl

/-- A captured snapshot gives the same reading as its source or the same error, whatever heap, name
and type are asked for. -/
theorem read_capture (s : Source) (takenAt : UtcTime) (i : Nat) (name : String)
    (expected : TypeTag) :
    (s.capture takenAt).source.read i name expected = s.read i name expected := by
  unfold read
  cases Field.ofName? name with
  | none => rfl
  | some f =>
    simp only [heaps_capture]
    cases s.heaps[i]? with
    | none => rfl
    | some heap => simp only [Option.map_some, lookUp_capture]

/-- A captured snapshot reads like its source and lists the same allocation failures. The source may
show the boards of a running heap, or be a snapshot that was read, of any version and with any
fields. -/
theorem capture_answers_alike (s : Source) (takenAt : UtcTime) (i : Nat) :
    (∀ name expected,
      (s.capture takenAt).source.read i name expected = s.read i name expected) ∧
    (s.capture takenAt).source.outOfMemoryEvents i = s.outOfMemoryEvents i := by
  have hread := s.read_capture takenAt i
  refine ⟨hread, ?_⟩
  simp only [outOfMemoryEvents, hread]

end Source

end GenHeap.Diagnostics
