import GenHeap.Proofs.ArenaProgress
import GenHeap.Proofs.Compaction

/-!
Planning and applying a compaction do not fault. A plan moves no more bytes than the segments it
was made for have, and no more objects than bytes.
-/

namespace GenHeap.CompactionPlan

open Checked (Runs)
open ObjectSpace (InLine weight)

variable {p : CompactionPlan} {space : ObjectSpace} {s : Segment} {n limit cursor lo : Nat}
  {movable : Nat → Record → Bool} {objects : List (Nat × Record)} {segments : List Segment}

/-- The plan moves at most `n` bytes. -/
structure Moves (p : CompactionPlan) (n : Nat) : Prop where
  bytes : p.movedBytes ≤ n
  objects : p.movedObjects ≤ p.movedBytes

theorem moves_empty : Moves {} 0 where
  bytes := Nat.le_refl 0
  objects := Nat.le_of_eq Std.TreeMap.size_emptyc

theorem Moves.mono (h : p.Moves n) (hle : n ≤ limit) : p.Moves limit where
  bytes := Nat.le_trans h.bytes hle
  objects := h.objects

theorem Moves.move (h : p.Moves n) (a target : Nat) {size : Nat} (hpos : 0 < size)
    (hroom : n + size < Word.count) :
    ∃ p', p.move a size target = .ok p' ∧ p'.Moves (n + size) := by
  have hbytes := h.bytes
  have hobjects := h.objects
  have hadd := Word.add_eq_ok_iff.2 ⟨(by omega : p.movedBytes + size < Word.count), rfl⟩
  refine ⟨⟨p.forwarding.insert a target, p.movedBytes + size⟩, ?_, ?_, ?_⟩
  · simp only [CompactionPlan.move, hadd]
    rfl
  · dsimp only
    omega
  · have hsize := Std.TreeMap.size_insert_le (t := p.forwarding) (k := a) (v := target)
    unfold movedObjects at hobjects ⊢
    dsimp only
    omega

/-- Sliding objects that follow each other from some place on keeps the cursor below them. -/
theorem Moves.slide (h : p.Moves n) (movable : Nat → Record → Bool) (hline : InLine lo objects)
    (hcursor : cursor ≤ lo) (hstop : ∀ x ∈ objects, x.1 + x.2.size < Word.count)
    (hpos : ∀ x ∈ objects, 0 < x.2.size)
    (hroom : n + weight objects < Word.count) :
    ∃ p', slide movable cursor p objects = .ok p' ∧ p'.Moves (n + weight objects) := by
  induction objects generalizing p n cursor lo with
  | nil => exact ⟨p, rfl, h⟩
  | cons x objects ih =>
    obtain ⟨a, r⟩ := x
    rw [List.forall_mem_cons] at hstop hpos
    rw [ObjectSpace.weight_cons] at hroom ⊢
    have hle := hline.1
    have hword := hstop.1
    dsimp only at hroom hword ⊢
    have hrest {q : CompactionPlan} {start : Nat} (hq : q.Moves (n + r.size))
        (hstart : start ≤ a + r.size) :
        ∃ p', CompactionPlan.slide movable start q objects = .ok p' ∧
          p'.Moves (n + (r.size + weight objects)) := by
      rw [← Nat.add_assoc] at hroom ⊢
      exact ih hq hline.2 hstart hstop.2 hpos.2 hroom
    rw [CompactionPlan.slide]
    cases movable a r with
    | true =>
      have hadd := Word.add_eq_ok_iff.2 ⟨(by omega : cursor + r.size < Word.count), rfl⟩
      by_cases hlt : cursor < a
      · obtain ⟨q, hq, hmoves⟩ := h.move a cursor hpos.1
          (by omega : n + r.size < Word.count)
        obtain ⟨p', hp', hmoves'⟩ := hrest hmoves (by omega : cursor + r.size ≤ a + r.size)
        refine ⟨p', ?_, hmoves'⟩
        simp only [if_true, hlt, hq, hadd]
        exact hp'
      · obtain ⟨p', hp', hmoves'⟩ := hrest (h.mono (Nat.le_add_right n r.size))
          (by omega : cursor + r.size ≤ a + r.size)
        refine ⟨p', ?_, hmoves'⟩
        simp only [if_true, hlt, if_false, hadd]
        exact hp'
    | false =>
      have hadd := Word.add_eq_ok_iff.2 ⟨hword, rfl⟩
      obtain ⟨p', hp', hmoves'⟩ := hrest (h.mono (Nat.le_add_right n r.size)) (Nat.le_refl _)
      refine ⟨p', ?_, hmoves'⟩
      simp only [Bool.false_eq_true, if_false, hadd]
      exact hp'

/-- A segment whose objects end below its allocation pointer. -/
structure Closed (space : ObjectSpace) (s : Segment) : Prop where
  start_le : s.start ≤ s.allocated
  allocated_le : s.allocated ≤ s.range.start + s.range.size
  stop_lt : s.range.start + s.range.size < Word.count
  inside : ∀ a r, space.get? a = some r → s.start ≤ a → a < s.allocated → a + r.size ≤ s.allocated

theorem Moves.addSegment (h : p.Moves n) (hspace : space.Spread) (hs : Closed space s)
    (movable : Nat → Record → Bool) (hroom : n + s.range.size < Word.count) :
    ∃ p', p.addSegment s space movable = .ok p' ∧ p'.Moves (n + s.range.size) := by
  have hstart := hs.start_le
  have hallocated := hs.allocated_le
  have hword := hs.stop_lt
  obtain ⟨objects, hobjects⟩ := space.runs_startingIn hstart
  have hmem (x : Nat × Record) (hx : x ∈ objects) :
      x.1 + x.2.size ≤ s.allocated ∧ 0 < x.2.size := by
    obtain ⟨hr, hlo, hhi⟩ := (ObjectSpace.mem_startingIn hobjects).1 hx
    exact ⟨hs.inside x.1 x.2 hr hlo hhi, hspace.size_pos hr⟩
  have hline := hspace.inLine hobjects
  have hweight := hline.weight_le hstart fun x hx => (hmem x hx).1
  have hlow : s.range.start = s.start := rfl
  obtain ⟨p', hp', hmoves⟩ := h.slide movable hline (Nat.le_refl s.start)
    (fun x hx => by have := (hmem x hx).1; omega) (fun x hx => (hmem x hx).2) (by omega)
  refine ⟨p', ?_, hmoves.mono (by omega)⟩
  rw [CompactionPlan.addSegment, hobjects]
  exact hp'

theorem Moves.addSegments (h : p.Moves n) (hspace : space.Spread)
    (hs : ∀ s ∈ segments, Closed space s) (movable : Nat → Record → Bool)
    (hlimit : n + Word.total (segments.map (·.range.size)) ≤ limit) (hroom : limit < Word.count) :
    ∃ p', segments.foldlM (fun p s => p.addSegment s space movable) p = .ok p' ∧
      p'.Moves limit := by
  let Q (rest : List Segment) (p : CompactionPlan) : Prop :=
    (∀ s ∈ rest, Closed space s) ∧ ∃ k, p.Moves k ∧ k + Word.total (rest.map (·.range.size)) ≤ limit
  have hstep (x : Segment) (rest : List Segment) (p : CompactionPlan) (hQ : Q (x :: rest) p) :
      ∃ p', p.addSegment x space movable = .ok p' ∧ Q rest p' := by
    obtain ⟨hall, k, hk, hle⟩ := hQ
    rw [List.forall_mem_cons] at hall
    rw [List.map_cons, Word.total_cons] at hle
    obtain ⟨p₁, hp₁, hmoves⟩ := hk.addSegment hspace hall.1 movable (by omega)
    exact ⟨p₁, hp₁, hall.2, _, hmoves, by omega⟩
  obtain ⟨p', hp', -, k, hk, hle⟩ := Checked.exists_foldlM_rest Q hstep ⟨hs, n, h, hlimit⟩
  exact ⟨p', hp', hk.mono (Nat.le_trans (Nat.le_add_right _ _) hle)⟩

/-! ## Applying a plan -/

theorem runs_foldlM_insert {moves : List (Nat × Nat × Record)}
    (hroom : space.totalBytes + Word.total (moves.map (·.2.2.size)) < Word.count) :
    Runs (moves.foldlM (fun s x => s.insert x.2.1 x.2.2) space) := by
  induction moves generalizing space with
  | nil => exact Checked.runs_pure _
  | cons x moves ih =>
    rw [List.map_cons, Word.total_cons] at hroom
    rw [List.foldlM_cons, Checked.runs_bind]
    constructor
    · have hadd : space.totalBytes + x.2.2.size < Word.count := by omega
      simp [ObjectSpace.insert, hadd]
    · intro moved hmoved
      simp only [ObjectSpace.insert, Checked.bind_eq_ok, Word.add_eq_ok_iff,
        Checked.pure_eq_ok] at hmoved
      obtain ⟨_, ⟨_, rfl⟩, rfl⟩ := hmoved
      apply ih
      dsimp only
      omega

/-- The objects that move weigh with those that stay what all objects weigh. -/
theorem weight_moves_add_le (p : CompactionPlan) (space : ObjectSpace) :
    Word.total ((p.moves space).map (·.2.2.size)) +
      weight ((p.moves space).foldl (fun s x => s.erase x.1) space).entries ≤
      weight space.entries := by
  have hkeys := (Std.TreeMap.ordered_keys_toList (t := p.forwarding)).imp Nat.compare_eq_lt.1
  have hnodup : ((p.moves space).map fun x => (x.1, x.2.2)).Nodup := by
    unfold moves List.Nodup
    rw [List.pairwise_map, List.pairwise_filterMap]
    apply hkeys.imp
    intro x y hlt b hb b' hb' he
    obtain ⟨r, hr, rfl⟩ := Option.map_eq_some_iff.1 hb
    obtain ⟨r', hr', rfl⟩ := Option.map_eq_some_iff.1 hb'
    exact absurd (congrArg Prod.fst he) (Nat.ne_of_lt hlt)
  have hstay {a : Nat} {r : Record}
      (hr : (a, r) ∈ ((p.moves space).foldl (fun s x => s.erase x.1) space).entries) :
      (∀ x ∈ p.moves space, x.1 ≠ a) ∧ space.get? a = some r := by
    rw [ObjectSpace.mem_entries, get?_foldl_erase] at hr
    split at hr
    · cases hr
    next hnot => exact ⟨fun x hx he => hnot ⟨x, hx, he⟩, hr⟩
  have hparts := List.nodup_append.2 ⟨hnodup, ObjectSpace.entries_nodup _, by
    rintro x hx _ hy rfl
    obtain ⟨y, hmoves, rfl⟩ := List.mem_map.1 hx
    exact (hstay hy).1 y hmoves rfl⟩
  have hsub : ((p.moves space).map fun x => (x.1, x.2.2)) ++
      ((p.moves space).foldl (fun s x => s.erase x.1) space).entries ⊆ space.entries := by
    intro x hx
    rcases List.mem_append.1 hx with hx | hx
    · obtain ⟨y, hy, rfl⟩ := List.mem_map.1 hx
      exact ObjectSpace.mem_entries.2 (mem_moves.1 hy).2
    · exact ObjectSpace.mem_entries.2 (hstay hx).2
  have hle := ObjectSpace.weight_le_of_subset hparts hsub
  rw [ObjectSpace.weight_append] at hle
  unfold weight at hle ⊢
  rwa [List.map_map] at hle

theorem weight_foldlM_insert_le {moves : List (Nat × Nat × Record)} {moved : ObjectSpace}
    (hrun : moves.foldlM (fun s x => s.insert x.2.1 x.2.2) space = .ok moved) :
    weight moved.entries ≤ Word.total (moves.map (·.2.2.size)) + weight space.entries := by
  induction moves generalizing space with
  | nil =>
    cases hrun
    exact Nat.le_add_left ..
  | cons x moves ih =>
    rw [List.foldlM_cons, Checked.bind_eq_ok] at hrun
    obtain ⟨first, hfirst, hrest⟩ := hrun
    have hone := ObjectSpace.weight_insert_le hfirst
    have hrest := ih hrest
    rw [List.map_cons, Word.total_cons]
    omega

/-- An object may land on another one, so the objects that are left may weigh less, but never more. -/
theorem weight_apply_le {space' : ObjectSpace} (hrun : p.apply space = .ok space') :
    weight space'.entries ≤ weight space.entries := by
  unfold CompactionPlan.apply at hrun
  split at hrun
  · cases hrun
    exact Nat.le_refl _
  · simp only [Checked.bind_eq_ok, Checked.pure_eq_ok] at hrun
    obtain ⟨moved, hmoved, rfl⟩ := hrun
    have hredirected : weight (moved.mapRecords fun _ r =>
        { r with slots := r.slots.map p.forward }).entries = weight moved.entries :=
      ObjectSpace.weight_mapRecords fun _ _ => rfl
    rw [hredirected]
    exact Nat.le_trans (weight_foldlM_insert_le hmoved) (weight_moves_add_le p space)

/-- The count of bytes never passes what it was before: all objects that move leave first. -/
theorem runs_apply (p : CompactionPlan) (h : space.Weighed) (hroom : weight space.entries < Word.count) :
    Runs (p.apply space) := by
  have hvacated := h.foldl_erase (p.moves space)
  have hmoves := weight_moves_add_le p space
  rw [apply_eq, Checked.runs_ite]
  constructor
  · intro _
    exact Checked.runs_pure _
  · intro _
    rw [Checked.runs_bind]
    constructor
    · apply runs_foldlM_insert
      rw [ObjectSpace.Weighed] at hvacated
      omega
    · intro _ _
      exact Checked.runs_pure _

end GenHeap.CompactionPlan
