import GenHeap.HeapCheck
import GenHeap.Proofs.Crew

/-!
The analysis of a heap follows all references from the roots, also those to no object, and remembers
the addresses it has seen, where a full marking sets marks on objects. Both meet the same objects and
count each of them once, and the analysis succeeds where every address it meets names an object.
-/

namespace GenHeap

open ObjectSpace (SameButMarks)
open Worklist (Reached Search Empties)

namespace HeapAnalysis

variable {s : ObjectSpace} {a : Nat} {roots : List Nat}

/-- The addresses seen so far, and what is known of them. -/
abbrev Progress := Std.TreeSet Nat × HeapAnalysis

/-- The seen objects are counted, and success means that all that was seen are objects. -/
structure Counted (s : ObjectSpace) (p : Progress) : Prop where
  tally : s.Tally p.1.contains p.2.reachableObjects p.2.reachableBytes
  success_iff : p.2.success = true ↔ ∀ a, p.1.contains a = true → s.contains a = true

theorem contains_insert (seen : Std.TreeSet Nat) (a b : Nat) :
    (seen.insert a).contains b = (seen.contains b || b == a) := by
  rw [Std.TreeSet.contains_insert, Bool.or_comm]
  congr 1
  grind

/-- An address without an object makes the analysis fail. -/
theorem Counted.missing {seen : Std.TreeSet Nat} {h : HeapAnalysis} (hp : Counted s (seen, h))
    (ha : s.get? a = none) :
    Counted s (seen.insert a, { h with success := false, dangling := some a }) := by
  have hno : ¬ s.contains a = true := by
    rintro hin
    obtain ⟨r, hr⟩ := ObjectSpace.contains_iff.1 hin
    cases ha.symm.trans hr
  constructor
  · refine hp.tally.congr (.refl s) fun b hb => ?_
    have hne : b ≠ a := fun heq => hno (heq ▸ hb)
    rw [contains_insert, beq_eq_false_iff_ne.2 hne, Bool.or_false]
  · refine ⟨nofun, fun hall => absurd (hall a ?_) hno⟩
    rw [contains_insert, beq_self_eq_true, Bool.or_true]

/-- An object that was not seen before is counted. -/
theorem Counted.found {seen : Std.TreeSet Nat} {h : HeapAnalysis} {r : Record}
    (hp : Counted s (seen, h)) (hr : s.get? a = some r) (hnew : seen.contains a = false) :
    Counted s (seen.insert a, { h with
      reachableObjects := h.reachableObjects + 1, reachableBytes := h.reachableBytes + r.size }) := by
  constructor
  · exact hp.tally.insert hr hnew (contains_insert seen a)
  · refine hp.success_iff.trans ⟨fun hall b hb => ?_, fun hall b hb => hall b ?_⟩
    · rw [contains_insert, Bool.or_eq_true, beq_iff_eq] at hb
      rcases hb with hb | rfl
      · exact hall b hb
      · exact ObjectSpace.contains_iff.2 ⟨r, hr⟩
    · rw [contains_insert, hb, Bool.true_or]

theorem visit_seen {p : Progress} (hseen : p.1.contains a = true) : visit s p a = (p, []) := by
  unfold visit
  exact if_pos hseen

/-- A visit to an address that was not seen yet sees it, and finds what the object there, if there
is one, refers to. -/
theorem visit_fresh {p : Progress} (hp : Counted s p) (hnew : ¬ p.1.contains a = true) :
    Counted s (visit s p a).1 ∧ (visit s p a).1.1 = p.1.insert a ∧
      (visit s p a).2 = s.references a := by
  obtain ⟨seen, h⟩ := p
  have hseen : seen.contains a = false := (Bool.not_eq_true _).mp hnew
  unfold visit ObjectSpace.references
  simp only [hseen, Bool.false_eq_true, if_false]
  cases hr : s.get? a with
  | none => exact ⟨hp.missing hr, rfl, rfl⟩
  | some r => exact ⟨hp.found hr hseen, rfl, rfl⟩

/-- Visits see every address once, whether it names an object or not. -/
theorem search (s : ObjectSpace) :
    Search (visit s) (fun _ => True) s.references (fun p a => p.1.contains a = true)
      (fun p => s.slotsLeft p.1.contains) (Counted s) := by
  refine ⟨?_, ?_, ?_, ?_, ?_⟩
  · intro p a hp _ hnew
    exact (visit_fresh hp hnew).1
  · intro p a hp _ hnew
    exact (visit_fresh hp hnew).2.2
  · intro p a b hp _ hnew _
    rw [(visit_fresh hp hnew).2.1, contains_insert, Bool.or_eq_true, beq_iff_eq]
  · intro p a hp _ hnew
    have hmono (b : Nat) (hb : p.1.contains b = true) : (p.1.insert a).contains b = true := by
      rw [contains_insert, hb, Bool.true_or]
    rw [(visit_fresh hp hnew).2.1]
    cases hr : s.get? a with
    | none =>
      have hno : s.references a = [] := by rw [ObjectSpace.references, hr, Option.elim_none]
      rw [hno, List.length_nil, Nat.add_zero]
      exact ObjectSpace.slotsLeft_anti hmono
    | some r =>
      rw [ObjectSpace.references_eq hr]
      apply ObjectSpace.slotsLeft_add_le hr hmono ((Bool.not_eq_true _).mp hnew)
      rw [contains_insert, beq_self_eq_true, Bool.or_true]
  · intro p a _ hold
    exact visit_seen (hold trivial)

/-! ## What is met -/

theorem counted_start (s : ObjectSpace) (h : HeapAnalysis) (hobjects : h.reachableObjects = 0)
    (hbytes : h.reachableBytes = 0) (hsuccess : h.success = true) : Counted s (∅, h) := by
  constructor
  · rw [hobjects, hbytes]
    exact .empty fun a _ => Std.TreeSet.contains_emptyc
  · refine ⟨fun _ a ha => ?_, fun _ => hsuccess⟩
    rw [Std.TreeSet.contains_emptyc] at ha
    cases ha

/-- The search of an analysis ends with nothing left to visit; what it has seen then is what the
roots reach. -/
theorem exists_seen (s : ObjectSpace) (roots : List Nat) (limit : Nat) : ∃ seen h,
    Empties (visit s) (∅, { roots := roots.take limit, rootCount := roots.length })
      (Worklist.add [] roots) (seen, h) ∧
    ofRoots s roots limit = { h with unreachableObjects := s.count - h.reachableObjects } ∧
    Counted s (seen, h) ∧
    ∀ a, seen.contains a = true ↔ Reached (fun _ => True) s.references (· ∈ roots) a := by
  have hstart := counted_start s { roots := roots.take limit, rootCount := roots.length } rfl rfl rfl
  have hempties := (search s).empties (roots.length + s.slotCount) (Worklist.add [] roots) hstart (by
    have hslots := s.slotsLeft_le (∅ : Std.TreeSet Nat).contains
    simp only [Worklist.add, List.append_nil, List.length_reverse]
    omega)
  have hdrained := (search s).drained hstart hempties
  refine ⟨_, _, hempties, rfl, hdrained.keeps, fun a => ?_⟩
  have hnone (b : Nat) : ¬ (∅ : Std.TreeSet Nat).contains b = true := by
    rw [Std.TreeSet.contains_emptyc]
    exact Bool.false_ne_true
  have hroots : (· ∈ Worklist.add [] roots) = (· ∈ roots) := by
    funext b
    rw [Worklist.add, List.append_nil, List.mem_reverse]
  rw [hdrained.done_iff (fun b _ _ hb => absurd hb (hnone b)) trivial, or_iff_right (hnone a), hroots]

/-- Only objects lead on, so an object that is met is met through objects. -/
theorem reached_iff : Reached (s.contains · = true) s.references (· ∈ roots) a ↔
    Reached (fun _ => True) s.references (· ∈ roots) a ∧ s.contains a = true := by
  constructor
  · intro h
    exact ⟨h.widen fun _ _ => trivial, h.within⟩
  · rintro ⟨h, ha⟩
    induction h with
    | seed hroot _ => exact .seed hroot ha
    | @step b t _ ht _ ih =>
      obtain ⟨r, hr, _⟩ := ObjectSpace.mem_references.1 ht
      exact .step (ih (ObjectSpace.contains_iff.2 ⟨r, hr⟩)) ht ha

/-- All that is met are objects exactly if the roots and the slots of reached objects name objects. -/
theorem forall_reached_iff :
    (∀ a, Reached (fun _ => True) s.references (· ∈ roots) a → s.contains a = true) ↔
      (∀ a ∈ roots, s.contains a = true) ∧
      ∀ a r t, Reached (s.contains · = true) s.references (· ∈ roots) a → s.get? a = some r →
        t ∈ r.slots → t ≠ 0 → s.contains t = true := by
  constructor
  · intro h
    refine ⟨fun a ha => h a (.seed ha trivial), ?_⟩
    intro a r t ha hr ht hne
    exact h t (.step (ha.widen fun _ _ => trivial) (ObjectSpace.mem_references.2 ⟨r, hr, ht, hne⟩)
      trivial)
  · rintro ⟨hroots, hslots⟩ a ha
    induction ha with
    | seed hroot _ => exact hroots _ hroot
    | @step b t hb ht _ ih =>
      obtain ⟨r, hr, hin, hne⟩ := ObjectSpace.mem_references.1 ht
      exact hslots b r t (reached_iff.2 ⟨hb, ih⟩) hr hin hne

end HeapAnalysis

/-- A full marking takes no seeds but the roots. -/
theorem Marking.mark_gen2 (workers threshold : Nat) (s : ObjectSpace) (roots : List Nat)
    (cards : CardTable) (ranges : List (Nat × Nat)) :
    mark workers threshold s roots .gen2 cards ranges
      = .ok (trace workers threshold .gen2 s.clearMarks roots, {}) := by
  show Except.ok (trace workers threshold .gen2 s.clearMarks (roots ++ []), ({} : CardScan)) = _
  rw [List.append_nil]

/-- The analysis of a heap and a full marking from the same roots agree. The search ends with nothing
left to visit; it counts the objects and bytes that the marking marks, all other objects count as
unreachable, and it succeeds exactly if no root and no slot of a reached object names an address
without an object. -/
theorem ofRoots_agrees_mark (workers threshold limit : Nat) (s : ObjectSpace) (roots : List Nat)
    (cards : CardTable) (ranges : List (Nat × Nat)) :
    let h := HeapAnalysis.ofRoots s roots limit
    (∃ seen h', Empties (HeapAnalysis.visit s)
        (∅, { roots := roots.take limit, rootCount := roots.length }) (Worklist.add [] roots)
        (seen, h') ∧ h = { h' with unreachableObjects := h.unreachableObjects }) ∧
    (∃ p, Marking.mark workers threshold s roots .gen2 cards ranges = .ok (p, {}) ∧
      h.reachableObjects = p.objects ∧ h.reachableBytes = p.bytes) ∧
    h.reachableObjects + h.unreachableObjects = s.count ∧
    (h.success = true ↔ (∀ a ∈ roots, s.contains a = true) ∧
      ∀ a r t, Reached (s.contains · = true) s.references (· ∈ roots) a → s.get? a = some r →
        t ∈ r.slots → t ≠ 0 → s.contains t = true) := by
  obtain ⟨seen, h', hempties, hofRoots, hcounted, hseen⟩ := HeapAnalysis.exists_seen s roots limit
  intro h
  have hh : h = { h' with unreachableObjects := s.count - h'.reachableObjects } := hofRoots
  have hsame := s.sameButMarks_clearMarks
  have hexact := Marking.exact_trace workers threshold .gen2 roots s.not_marked_clearMarks
  have hmarked : ∀ a, s.contains a = true → seen.contains a
      = (Marking.trace workers threshold .gen2 s.clearMarks roots).space.isMarked a := by
    intro a ha
    rw [Bool.eq_iff_iff, hseen, ObjectSpace.isMarked_iff, hexact.marked_iff, hsame.condemned_eq,
      hsame.references, ObjectSpace.condemned_gen2, HeapAnalysis.reached_iff, and_iff_left ha]
  have htally := hcounted.tally.congr (hsame.trans hexact.same) hmarked
  refine ⟨⟨seen, h', hempties, by rw [hh]⟩, ⟨_, Marking.mark_gen2 .., ?_, ?_⟩, ?_, ?_⟩
  · rw [hh, hexact.objects_eq, ← ObjectSpace.among_isMarked]
    exact htally.objects_eq
  · rw [hh, hexact.bytes_eq, ← ObjectSpace.among_isMarked]
    exact htally.bytes_eq
  · have := hcounted.tally.le_count
    rw [hh]
    exact Nat.add_sub_cancel' this
  · rw [hh, ← HeapAnalysis.forall_reached_iff]
    simp only [← hseen]
    exact hcounted.success_iff

end GenHeap
