import GenHeap.Heap.Reclaim
import GenHeap.Proofs.Weight

/-!
Object spaces that differ in their marks only. Whatever sweeping, segments, promotion, cards and the
heap check read off a space, they read the same off both.
-/

namespace GenHeap

/-- An object and its address, without its mark. -/
def unmarked (x : Nat × Record) : Nat × Record := (x.1, { x.2 with marked := false })

theorem eq_of_unmarked {x y : Nat × Record} (h : unmarked y = unmarked x) :
    ∃ marked, y = (x.1, { x.2 with marked }) := by
  obtain ⟨a, r⟩ := x
  obtain ⟨b, q⟩ := y
  refine ⟨q.marked, ?_⟩
  cases r
  cases q
  simp only [unmarked, Prod.mk.injEq, Record.mk.injEq] at h ⊢
  simpa using h

/-- The same objects in the same order, of which other ones may be marked. -/
def AlikeObjects (xs ys : List (Nat × Record)) : Prop := ys.map unmarked = xs.map unmarked

namespace AlikeObjects

variable {xs ys : List (Nat × Record)}

theorem length (h : AlikeObjects xs ys) : ys.length = xs.length := by
  have hlength := congrArg List.length h
  rwa [List.length_map, List.length_map] at hlength

/-- What is read off all of an object but its mark. -/
theorem map {α : Type} (h : AlikeObjects xs ys) {f : Nat × Record → α}
    (hf : ∀ x, f (unmarked x) = f x) : ys.map f = xs.map f := by
  have hread (zs : List (Nat × Record)) : zs.map f = (zs.map unmarked).map f := by
    rw [List.map_map]
    exact List.map_congr_left fun x _ => (hf x).symm
  rw [hread ys, hread xs, h]

theorem filter (h : AlikeObjects xs ys) {p : Nat × Record → Bool}
    (hp : ∀ x, p (unmarked x) = p x) : AlikeObjects (xs.filter p) (ys.filter p) := by
  have hread (zs : List (Nat × Record)) :
      (zs.filter p).map unmarked = (zs.map unmarked).filter p := by
    rw [List.filter_map]
    exact congrArg _ (List.filter_congr fun x _ => (hp x).symm)
  unfold AlikeObjects
  rw [hread, hread, h]

theorem countP (h : AlikeObjects xs ys) {p : Nat × Record → Bool}
    (hp : ∀ x, p (unmarked x) = p x) : ys.countP p = xs.countP p := by
  rw [List.countP_eq_length_filter, List.countP_eq_length_filter, (h.filter hp).length]

theorem cons {a : Nat} {r : Record} (h : AlikeObjects ((a, r) :: xs) ys) :
    ∃ marked zs, ys = (a, { r with marked }) :: zs ∧ AlikeObjects xs zs := by
  cases ys with
  | nil => cases h
  | cons y ys =>
    obtain ⟨hy, hys⟩ := List.cons.inj h
    obtain ⟨marked, rfl⟩ := eq_of_unmarked hy
    exact ⟨marked, ys, rfl, hys⟩

theorem nil (h : AlikeObjects [] ys) : ys = [] := List.map_eq_nil_iff.1 h

theorem bytesOf (h : AlikeObjects xs ys) (g : Generation) :
    Survival.bytesOf ys g = Survival.bytesOf xs g :=
  congrArg Word.total ((h.filter fun _ => rfl).map fun _ => rfl)

end AlikeObjects

namespace ObjectSpace

/-- The same objects, other ones of which may be marked, and the same count of bytes. -/
structure Alike (s s' : ObjectSpace) : Prop where
  objects : SameButMarks s s'
  totalBytes : s'.totalBytes = s.totalBytes
  touched : s'.touched = s.touched

variable {s s' s'' : ObjectSpace} {a : Nat} {r : Record}

theorem Alike.refl (s : ObjectSpace) : Alike s s := ⟨.refl s, rfl, rfl⟩

theorem Alike.symm (h : Alike s s') : Alike s' s :=
  ⟨h.objects.symm, h.totalBytes.symm, h.touched.symm⟩

theorem Alike.trans (h : Alike s s') (h' : Alike s' s'') : Alike s s'' :=
  ⟨h.objects.trans h'.objects, h'.totalBytes.trans h.totalBytes, h'.touched.trans h.touched⟩

theorem Alike.entries (h : Alike s s') : AlikeObjects s.entries s'.entries := by
  have hsorted (s : ObjectSpace) : (s.entries.map unmarked).Pairwise (·.1 < ·.1) := by
    rw [List.pairwise_map]
    exact entries_pairwise s
  refine (entries_congr h.objects).eq_of_pairwise ?_ (hsorted s') (hsorted s)
  intro x y _ _ hxy hyx
  exact absurd hxy (Nat.lt_asymm hyx)

theorem Alike.contains (h : Alike s s') (a : Nat) : s'.contains a = s.contains a :=
  Bool.eq_iff_iff.2 h.objects.contains_iff

/-- What is read off an object but its mark. -/
theorem Alike.any (h : Alike s s') {p : Record → Bool}
    (hp : ∀ r, p { r with marked := false } = p r) (a : Nat) :
    (s'.get? a).any p = (s.get? a).any p := by
  have hread (q : Option Record) : q.any p = (q.map ({ · with marked := false })).any p := by
    cases q with
    | none => rfl
    | some r => exact (hp r).symm
  rw [hread (s'.get? a), hread (s.get? a), h.objects a]

theorem Alike.update (h : Alike s s') {f : Record → Record}
    (hf : ∀ r, f { r with marked := false } = { f r with marked := false }) (a : Nat) :
    Alike (s.update a f) (s'.update a f) := by
  refine ⟨fun b => ?_, h.totalBytes, h.touched⟩
  have hread (q : Option Record) : (q.map f).map ({ · with marked := false }) =
      (q.map ({ · with marked := false })).map f := by
    rw [Option.map_map, Option.map_map]
    exact congrArg (Option.map · q) (funext fun r => (hf r).symm)
  rw [get?_update, get?_update]
  split
  · rw [hread, hread, h.objects b]
  · exact h.objects b

/-- Without the objects of which the same is true. -/
theorem Alike.removeWhere (h : Alike s s') {p p' : Nat → Record → Bool}
    (hp : ∀ a, (s'.get? a).any (p' a) = (s.get? a).any (p a)) :
    AlikeObjects (s.removeWhere p).1 (s'.removeWhere p').1 ∧
      Alike (s.removeWhere p).2 (s'.removeWhere p').2 := by
  have hby (s : ObjectSpace) (p : Nat → Record → Bool) : (s.removeWhere p).1 =
      s.entries.filter fun x => (s.get? x.1).any (p x.1) :=
    List.filter_congr fun x hx => by rw [mem_entries.1 hx, Option.any_some]
  have hgone : AlikeObjects (s.removeWhere p).1 (s'.removeWhere p').1 := by
    rw [hby, hby]
    simp only [hp]
    exact h.entries.filter fun _ => rfl
  refine ⟨hgone, fun a => ?_, ?_, h.touched⟩
  · have ha := h.objects a
    have hpa := hp a
    rw [get?_removeWhere, get?_removeWhere]
    cases hr : s.get? a with
    | none =>
      rw [hr, Option.map_none, Option.map_eq_none_iff] at ha
      rw [ha]
      rfl
    | some r =>
      obtain ⟨marked, hr'⟩ := h.objects.get? hr
      rw [hr, hr', Option.any_some, Option.any_some] at hpa
      rw [hr', Option.filter_some, Option.filter_some, hpa]
      split <;> rfl
  · show s'.totalBytes - _ = s.totalBytes - _
    rw [h.totalBytes]
    exact congrArg (s.totalBytes - Word.total ·) (hgone.map fun _ => rfl)

/-- Both have the same objects in a range, or neither can be looked at. -/
theorem Alike.startingIn (h : Alike s s') {start stop : Nat} {objects : List (Nat × Record)}
    (hrun : s.startingIn start stop = .ok objects) :
    ∃ objects', s'.startingIn start stop = .ok objects' ∧ AlikeObjects objects objects' := by
  unfold ObjectSpace.startingIn at hrun ⊢
  rw [h.touched]
  split at hrun
  · cases hrun
  next hrange =>
    cases hrun
    exact ⟨_, if_neg hrange, h.entries.filter fun _ => rfl⟩

end ObjectSpace

open ObjectSpace (Alike)

variable {s s' : ObjectSpace}

/-! ## Segments -/

theorem Segment.sweepObjects_alike {xs ys : List (Nat × Record)} (h : AlikeObjects xs ys)
    (cursor : Nat) : sweepObjects cursor ys = sweepObjects cursor xs := by
  induction xs generalizing ys cursor with
  | nil => rw [h.nil]
  | cons x xs ih =>
    obtain ⟨marked, zs, rfl, hrest⟩ := h.cons
    simp only [sweepObjects, ih hrest]

theorem Segment.rebuild_alike (h : Alike s s') {t : Segment} {x : SweepPlan × Segment}
    (hrun : t.rebuild s = .ok x) : t.rebuild s' = .ok x := by
  simp only [rebuild, sweepPlan, Checked.bind_eq_ok] at hrun ⊢
  obtain ⟨plan, ⟨objects, hobjects, hplan⟩, hreset⟩ := hrun
  obtain ⟨objects', hobjects', halike⟩ := h.startingIn hobjects
  exact ⟨plan, ⟨objects', hobjects', (sweepObjects_alike halike _).trans hplan⟩, hreset⟩

theorem SegmentTable.rebuild_alike (h : Alike s s') {t t' : SegmentTable}
    (hrun : t.rebuild s = .ok t') : t.rebuild s' = .ok t' := by
  simp only [rebuild, Checked.bind_eq_ok] at hrun ⊢
  obtain ⟨slots, hslots, hrun⟩ := hrun
  refine ⟨slots, Checked.mapM_mono (fun x y hxy => ?_) hslots, hrun⟩
  cases x with
  | none => exact hxy
  | some t =>
    simp only [Checked.bind_eq_ok] at hxy ⊢
    obtain ⟨swept, hswept, hxy⟩ := hxy
    exact ⟨swept, Segment.rebuild_alike h hswept, hxy⟩

theorem SegmentArena.holdsObject_alike (h : Alike s s') {t : Segment} {x : Bool}
    (hrun : holdsObject t s = .ok x) : holdsObject t s' = .ok x := by
  simp only [holdsObject, Checked.bind_eq_ok, Checked.pure_eq_ok] at hrun ⊢
  obtain ⟨stop, hstop, objects, hobjects, rfl⟩ := hrun
  obtain ⟨objects', hobjects', halike⟩ := h.startingIn hobjects
  refine ⟨stop, hstop, objects', hobjects', ?_⟩
  cases objects with
  | nil => rw [halike.nil]
  | cons x xs =>
    obtain ⟨_, zs, rfl, _⟩ := halike.cons
    rfl

theorem SegmentArena.decommitIfEmpty_alike (h : Alike s s') {id : Nat} {a : SegmentArena}
    {x : Except HeapError Bool × SegmentArena} (hrun : decommitIfEmpty id s a = .ok x) :
    decommitIfEmpty id s' a = .ok x := by
  unfold decommitIfEmpty at hrun ⊢
  rw [Effect.get_bind] at hrun ⊢
  split at hrun
  next heph =>
    rw [if_pos heph]
    exact hrun
  next heph =>
    rw [if_neg heph]
    rw [Transition.ofExcept_bind] at hrun ⊢
    cases ht : a.table.fetch id with
    | error e =>
      rw [ht] at hrun
      exact hrun
    | ok t =>
      simp only [ht, Effect.lift_bind, Checked.bind_eq_ok] at hrun ⊢
      obtain ⟨holds, hholds, hrun⟩ := hrun
      exact ⟨holds, holdsObject_alike h hholds, hrun⟩

/-! ## Cards -/

theorem Heap.isYounger_alike (h : Alike s s') (g : Generation) (target : Nat) :
    isYounger s' g target = isYounger s g target := by
  unfold isYounger
  rw [h.any fun _ => rfl]

theorem Heap.markYounger_alike (h : Alike s s') (cards : CardTable) (a : Nat) (r : Record)
    (marked : Bool) :
    markYounger s' cards a { r with marked } = markYounger s cards a r := by
  simp only [markYounger, isYounger_alike h]

theorem Heap.markYoungerAll_alike (h : Alike s s') {cards : CardTable}
    {xs ys : List (Nat × Record)} (hobjects : AlikeObjects xs ys) :
    markYoungerAll s' cards ys = markYoungerAll s cards xs := by
  unfold markYoungerAll
  induction xs generalizing ys cards with
  | nil =>
    rw [hobjects.nil]
    rfl
  | cons x xs ih =>
    obtain ⟨a, r⟩ := x
    obtain ⟨marked, zs, rfl, hrest⟩ := hobjects.cons
    rw [List.foldlM_cons, List.foldlM_cons]
    show markYounger s' cards a { r with marked } >>= _ = markYounger s cards a r >>= _
    rw [markYounger_alike h]
    exact congrArg (_ >>= ·) (funext fun _ => ih hrest)

/-! ## The heap check -/

theorem HeapCheck.object_alike (h : Alike s s') (tables : List SegmentTable) (previousEnd a : Nat)
    (r : Record) (marked : Bool) :
    object s' tables previousEnd a { r with marked } = object s tables previousEnd a r := by
  have hreferences : ({ r with marked } : Record).references = r.references := rfl
  simp only [object, hreferences, h.contains]

theorem HeapCheck.verify_alike (h : Alike s s') (tables : List SegmentTable) :
    verify s' tables = verify s tables := by
  have hall {xs ys : List (Nat × Record)} (hobjects : AlikeObjects xs ys) (previousEnd : Nat) :
      objects s' tables previousEnd ys = objects s tables previousEnd xs := by
    induction xs generalizing ys previousEnd with
    | nil =>
      rw [hobjects.nil]
      rfl
    | cons x xs ih =>
      obtain ⟨marked, zs, rfl, hrest⟩ := hobjects.cons
      simp only [objects, object_alike h, ih hrest]
  exact hall h.entries 0

end GenHeap
