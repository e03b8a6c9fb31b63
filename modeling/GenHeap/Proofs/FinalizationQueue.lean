import GenHeap.FinalizationQueue
import Mathlib.Data.List.Nodup
import Mathlib.Data.List.Perm.Basic

/-!
The view of a finalization queue: the entries of each bucket, and the ready and running objects,
after each operation. No object waits twice, and none is ready or running twice.
-/

namespace GenHeap

namespace FinalizationQueue

variable {q : FinalizationQueue} {e : FinalizableEntry} {g condemned : Generation} {a object : Nat}
  {live : Nat → Bool}

theorem mem_roots : a ∈ q.roots ↔ (∃ e ∈ q.ready, e.object = a) ∨ a ∈ q.running := by
  simp only [roots, List.mem_append, List.mem_map]

theorem mem_pending_register {g' : Generation} : e ∈ (q.register object g').pending.get g ↔
    e ∈ q.pending.get g ∨ (g = g' ∧ e = ⟨object, g'⟩) := by
  unfold register
  by_cases hg : g = g'
  · subst hg
    simp only [PerGeneration.get_modify_self, List.mem_append, List.mem_singleton, true_and]
  · simp only [PerGeneration.get_modify_of_ne _ _ hg, hg, false_and, or_false]

theorem mem_pending_of_suppress (h : e ∈ (q.suppress object).pending.get g) :
    e ∈ q.pending.get g := by
  unfold suppress at h
  split at h
  · exact h
  next g' _ =>
    by_cases hg : g = g'
    · subst hg
      simp only [PerGeneration.get_modify_self] at h
      exact List.mem_of_mem_eraseP h
    · simpa only [PerGeneration.get_modify_of_ne _ _ hg] using h

theorem ready_suppress : (q.suppress object).ready = q.ready := by
  unfold suppress
  split <;> rfl

theorem running_suppress : (q.suppress object).running = q.running := by
  unfold suppress
  split <;> rfl

theorem registered_suppress : (q.suppress object).registered = q.registered := by
  unfold suppress
  split <;> rfl

theorem roots_suppress : (q.suppress object).roots = q.roots := by
  rw [roots, roots, ready_suppress, running_suppress]

theorem mem_unreachable : e ∈ q.unreachable condemned live ↔
    ∃ g, g.condemnedBy condemned = true ∧ e ∈ q.pending.get g ∧ live e.object = false := by
  have hall : ∀ g : Generation, g ∈ Generation.all := fun g => by cases g <;> decide
  simp only [unreachable, List.mem_flatMap, List.mem_filter, Bool.not_eq_true', hall, true_and]

theorem mem_pending_scanUnreachable : e ∈ (q.scanUnreachable condemned live).pending.get g ↔
    e ∈ q.pending.get g ∧ (g.condemnedBy condemned = true → live e.object = true) := by
  simp only [scanUnreachable, PerGeneration.get_ofFn]
  split
  next hg => simp only [List.mem_filter, hg, true_implies]
  next hg => simp only [hg, Bool.false_eq_true, false_implies, and_true]

theorem ready_scanUnreachable : (q.scanUnreachable condemned live).ready =
    q.ready ++ q.unreachable condemned live := rfl

theorem running_scanUnreachable : (q.scanUnreachable condemned live).running = q.running := rfl

theorem mem_roots_of_scanUnreachable (h : a ∈ (q.scanUnreachable condemned live).roots) :
    a ∈ q.roots ∨ ∃ g, ∃ e ∈ q.pending.get g, e.object = a := by
  rw [mem_roots, ready_scanUnreachable, running_scanUnreachable] at h
  rcases h with ⟨e, he, rfl⟩ | ha
  · rcases List.mem_append.1 he with he | he
    · exact .inl (mem_roots.2 (.inl ⟨e, he, rfl⟩))
    · obtain ⟨g, _, he, _⟩ := mem_unreachable.1 he
      exact .inr ⟨g, e, he, rfl⟩
  · exact .inl (mem_roots.2 (.inr ha))

/-- Sorting puts the entry of a live object into the bucket of the object's generation. -/
theorem mem_pending_syncGenerations {generationOf : Nat → Option Generation} :
    e ∈ (q.syncGenerations generationOf).pending.get g ↔ e.generation = g ∧
      ∃ g' e', e' ∈ q.pending.get g' ∧
        e = { e' with generation := (generationOf e'.object).getD e'.generation } := by
  have hall : ∀ g : Generation, g ∈ sortOrder := fun g => by cases g <;> decide
  simp only [syncGenerations, PerGeneration.get_ofFn, List.mem_filter, List.mem_map,
    List.mem_flatMap, beq_iff_eq, hall, true_and]
  constructor
  · rintro ⟨⟨e', ⟨g', he'⟩, rfl⟩, hg⟩
    exact ⟨hg, g', e', he', rfl⟩
  · rintro ⟨hg, g', e', he', rfl⟩
    exact ⟨⟨e', ⟨g', he'⟩, rfl⟩, hg⟩

theorem mem_pending_relocate {f : Nat → Nat} : e ∈ (q.relocate f).pending.get g ↔
    ∃ e' ∈ q.pending.get g, e = { e' with object := f e'.object } := by
  simp only [relocate, PerGeneration.get_map, List.mem_map, eq_comm (a := e)]

theorem mem_roots_of_takeReady {limit : Nat} (h : a ∈ (q.takeReady limit).2.roots) :
    a ∈ q.roots := by
  rw [mem_roots] at *
  simp only [takeReady, List.mem_append, List.mem_map] at h
  rcases h with ⟨e, he, rfl⟩ | ha | ⟨e, he, rfl⟩
  · exact .inl ⟨e, List.mem_of_mem_drop he, rfl⟩
  · exact .inr ha
  · exact .inl ⟨e, List.mem_of_mem_take he, rfl⟩

/-- At most one running occurrence of the object is forgotten. -/
theorem roots_finishRunning (q : FinalizationQueue) (object : Nat) :
    (q.finishRunning object).roots = q.roots ∨
    q.roots.Perm (object :: (q.finishRunning object).roots) := by
  unfold finishRunning
  cases hi : q.running.idxOf? object with
  | none => exact .inl rfl
  | some i =>
    obtain ⟨hlt, he, _⟩ := List.idxOf?_eq_some_iff.1 hi
    have hget : q.running[i]? = some object := List.getElem?_eq_some_iff.2 ⟨hlt, he⟩
    exact .inr (((perm_cons_swapErase hget).append_left _).trans List.perm_middle)

theorem mem_roots_of_finishRunning (h : a ∈ (q.finishRunning object).roots) : a ∈ q.roots := by
  rcases roots_finishRunning q object with he | hperm
  · exact he ▸ h
  · exact hperm.mem_iff.2 (List.mem_cons_of_mem _ h)

theorem pending_finishRunning : (q.finishRunning object).pending = q.pending := by
  unfold finishRunning
  split <;> rfl

theorem ready_finishRunning : (q.finishRunning object).ready = q.ready := by
  unfold finishRunning
  split <;> rfl

theorem registered_finishRunning : (q.finishRunning object).registered = q.registered := by
  unfold finishRunning
  split <;> rfl

/-! ## Each object once -/

/-- The objects that wait, bucket by bucket. -/
def waiting (q : FinalizationQueue) : List Nat :=
  (Generation.all.flatMap q.pending.get).map (·.object)

theorem mem_waiting : a ∈ q.waiting ↔ ∃ g, ∃ e ∈ q.pending.get g, e.object = a := by
  simp only [waiting, List.mem_map, List.mem_flatMap, Generation.mem_all, true_and]
  constructor
  · rintro ⟨e, ⟨g, he⟩, rfl⟩
    exact ⟨g, e, he, rfl⟩
  · rintro ⟨g, e, he, rfl⟩
    exact ⟨e, ⟨g, he⟩, rfl⟩

/-- Entries know their bucket, and no object waits twice, or is ready or running twice. -/
structure Tidy (q : FinalizationQueue) : Prop where
  labelled : ∀ g, ∀ e ∈ q.pending.get g, e.generation = g
  waiting : q.waiting.Nodup
  roots : q.roots.Nodup

theorem tidy_empty : ({} : FinalizationQueue).Tidy := by
  refine ⟨fun g e he => ?_, List.nodup_nil, List.nodup_nil⟩
  cases g <;> cases he

/-- Changing one bucket changes all that waits by what it changes there. -/
theorem perm_modify (t : PerGeneration (List FinalizableEntry)) (g : Generation)
    (f : List FinalizableEntry → List FinalizableEntry) :
    (Generation.all.flatMap (t.modify g f).get ++ t.get g).Perm
      (Generation.all.flatMap t.get ++ f (t.get g)) := by
  rw [List.perm_iff_count]
  intro e
  cases g <;> simp only [Generation.all, List.flatMap_cons, List.flatMap_nil, List.count_append,
    List.count_nil, PerGeneration.modify, PerGeneration.get] <;> omega

/-! ### Registering -/

theorem isRegistered_iff : q.isRegistered object = true ↔ object ∈ q.waiting := by
  simp only [isRegistered, bucketOf?, List.find?_isSome, Generation.mem_all, true_and, List.any_eq_true,
    beq_iff_eq, mem_waiting]

theorem waiting_register : (q.register object g).waiting.Perm (object :: q.waiting) := by
  have h := perm_modify q.pending g (· ++ [⟨object, g⟩])
  have hcons : (Generation.all.flatMap (q.register object g).pending.get).Perm
      (⟨object, g⟩ :: Generation.all.flatMap q.pending.get) := by
    refine (List.perm_append_right_iff (q.pending.get g)).1 (h.trans ?_)
    rw [← List.append_assoc]
    exact (List.perm_append_singleton ..).trans (.refl _)
  exact hcons.map _

theorem Tidy.register (h : q.Tidy) (ha : object ∉ q.waiting) : (q.register object g).Tidy where
  labelled g' e he := by
    rcases mem_pending_register.1 he with he | ⟨rfl, rfl⟩
    · exact h.labelled g' e he
    · rfl
  waiting := waiting_register.nodup_iff.2 (List.nodup_cons.2 ⟨ha, h.waiting⟩)
  roots := h.roots

/-- How a registration is taken back: the object has none, or the first one in some bucket goes. -/
inductive Suppresses (q : FinalizationQueue) (object : Nat) : FinalizationQueue → Prop where
  | none (hno : object ∉ q.waiting) : Suppresses q object q
  | found {g : Generation} {e : FinalizableEntry} {front back : List FinalizableEntry}
      (hobject : e.object = object) (hfront : ∀ p ∈ front, p.object ≠ object)
      (hget : q.pending.get g = front ++ e :: back) : Suppresses q object { q with
        pending := q.pending.set g (front ++ back)
        suppressed := q.suppressed + 1 }

theorem suppress_suppresses (q : FinalizationQueue) (object : Nat) :
    Suppresses q object (q.suppress object) := by
  unfold suppress
  cases hb : q.bucketOf? object with
  | none =>
    refine .none fun hmem => ?_
    have hreg := isRegistered_iff.2 hmem
    rw [isRegistered, hb] at hreg
    cases hreg
  | some g =>
    have hany := List.find?_some (p := fun g => (q.pending.get g).any (·.object == object)) hb
    obtain ⟨e, he, hobject⟩ := List.any_eq_true.1 hany
    obtain ⟨e, front, back, hfront, hobject, hget, herase⟩ :=
      List.exists_of_eraseP (p := (·.object == object)) he hobject
    have hset : q.pending.modify g (·.eraseP (·.object == object)) =
        q.pending.set g (front ++ back) := by
      rw [PerGeneration.modify_eq_set, herase]
    dsimp only
    rw [hset]
    exact .found (eq_of_beq hobject) (fun p hp => by simpa using hfront p hp) hget

/-- Suppressing an object that does not wait changes nothing; else it takes one entry away. -/
theorem suppress_cases (q : FinalizationQueue) (object : Nat) :
    (object ∉ q.waiting ∧ q.suppress object = q) ∨
    q.waiting.Perm (object :: (q.suppress object).waiting) := by
  generalize hq : q.suppress object = q'
  cases hq ▸ suppress_suppresses q object with
  | none hno => exact .inl ⟨hno, rfl⟩
  | @found g e front back hobject hfront hget =>
    have h := perm_modify q.pending g fun _ => front ++ back
    rw [hget] at h
    have hcons : (Generation.all.flatMap q.pending.get).Perm
        (e :: Generation.all.flatMap (q.pending.set g (front ++ back)).get) := by
      refine (List.perm_append_right_iff (front ++ back)).1 (h.symm.trans ?_)
      exact (List.perm_middle.append_left _).trans List.perm_middle
    exact .inr (hobject ▸ hcons.map _)

theorem mem_waiting_suppress (h : q.Tidy) :
    a ∈ (q.suppress object).waiting ↔ a ∈ q.waiting ∧ a ≠ object := by
  rcases suppress_cases q object with ⟨hno, he⟩ | hperm
  · rw [he]
    refine ⟨fun ha => ⟨ha, ?_⟩, fun ha => ha.1⟩
    rintro rfl
    exact hno ha
  · have hnodup := List.nodup_cons.1 (hperm.nodup_iff.1 h.waiting)
    rw [hperm.mem_iff, List.mem_cons]
    constructor
    · intro ha
      refine ⟨.inr ha, ?_⟩
      rintro rfl
      exact hnodup.1 ha
    · rintro ⟨ha, hne⟩
      exact ha.resolve_left hne

theorem Tidy.suppress (h : q.Tidy) : (q.suppress object).Tidy where
  labelled g e he := h.labelled g e (mem_pending_of_suppress he)
  waiting := by
    rcases suppress_cases q object with ⟨_, he⟩ | hperm
    · exact he.symm ▸ h.waiting
    · exact (List.nodup_cons.1 (hperm.nodup_iff.1 h.waiting)).2
  roots := by
    rw [roots_suppress]
    exact h.roots

/-! ### Collections -/

/-- What is made ready, with the buckets that are not condemned as empty ones. -/
theorem unreachable_eq : q.unreachable condemned live = Generation.all.flatMap fun g =>
    if g.condemnedBy condemned then (q.pending.get g).filter (!live ·.object) else [] := by
  unfold unreachable
  induction Generation.all with
  | nil => rfl
  | cons g gs ih =>
    rw [List.filter_cons, List.flatMap_cons, ← ih]
    split <;> rfl

theorem perm_scanUnreachable (q : FinalizationQueue) (condemned : Generation) (live : Nat → Bool) :
    (Generation.all.flatMap q.pending.get).Perm
    (Generation.all.flatMap (q.scanUnreachable condemned live).pending.get ++
      q.unreachable condemned live) := by
  rw [unreachable_eq]
  refine .trans (.flatMap_left _ fun g _ => ?_) (List.flatMap_append_perm ..).symm
  simp only [scanUnreachable, PerGeneration.get_ofFn]
  split
  · exact (List.filter_append_perm ..).symm
  · rw [List.append_nil]

theorem Tidy.scanUnreachable (h : q.Tidy) (hlive : ∀ a ∈ q.roots, live a = true) :
    (q.scanUnreachable condemned live).Tidy := by
  have hsplit := (perm_scanUnreachable q condemned live).map FinalizableEntry.object
  rw [List.map_append] at hsplit
  obtain ⟨hwaiting, hdead, _⟩ := List.nodup_append.1 (hsplit.nodup_iff.1 h.waiting)
  refine ⟨fun g e he => h.labelled g e (mem_pending_scanUnreachable.1 he).1, hwaiting, ?_⟩
  have hperm : (q.scanUnreachable condemned live).roots.Perm
      (q.roots ++ (q.unreachable condemned live).map (·.object)) := by
    simp only [FinalizationQueue.roots, ready_scanUnreachable, running_scanUnreachable,
      List.map_append, List.append_assoc]
    exact List.perm_append_comm.append_left _
  refine hperm.nodup_iff.2 (List.nodup_append.2 ⟨h.roots, hdead, ?_⟩)
  rintro a ha _ hb rfl
  obtain ⟨e, he, rfl⟩ := List.mem_map.1 hb
  obtain ⟨_, _, _, hn⟩ := mem_unreachable.1 he
  rw [hlive _ ha] at hn
  cases hn

theorem mem_waiting_scanUnreachable : a ∈ (q.scanUnreachable condemned live).waiting ↔
    ∃ g, (g.condemnedBy condemned = true → live a = true) ∧
      ∃ e ∈ q.pending.get g, e.object = a := by
  simp only [mem_waiting, mem_pending_scanUnreachable]
  constructor
  · rintro ⟨g, e, ⟨he, hl⟩, rfl⟩
    exact ⟨g, hl, e, he, rfl⟩
  · rintro ⟨g, hl, e, he, rfl⟩
    exact ⟨g, e, ⟨he, hl⟩, rfl⟩

/-- Sorting a list into the buckets keeps its entries. -/
theorem perm_sorted (es : List FinalizableEntry) :
    (Generation.all.flatMap fun g => es.filter (·.generation == g)).Perm es := by
  rw [List.perm_iff_count]
  intro e
  have hbucket (g : Generation) : List.count e (es.filter (·.generation == g)) =
      if e.generation = g then List.count e es else 0 := by
    split
    next hg => exact List.count_filter (beq_iff_eq.2 hg)
    next hg =>
      refine List.count_eq_zero.2 fun he => hg ?_
      exact eq_of_beq (List.mem_filter.1 he).2
  simp only [Generation.all, List.flatMap_cons, List.flatMap_nil, List.count_append, hbucket,
    List.count_nil]
  cases e.generation <;> simp

theorem waiting_syncGenerations {generationOf : Nat → Option Generation} :
    (q.syncGenerations generationOf).waiting.Perm q.waiting := by
  have horder : sortOrder.Perm Generation.all := by decide
  have h := (perm_sorted ((sortOrder.flatMap q.pending.get).map fun e =>
    { e with generation := (generationOf e.object).getD e.generation })).map FinalizableEntry.object
  rw [List.map_map] at h
  refine .trans ?_ (h.trans ((horder.flatMap_right _).map _))
  simp only [waiting, syncGenerations]
  exact .of_eq (congrArg (List.map _ <| Generation.all.flatMap ·) (funext fun g =>
    PerGeneration.get_ofFn ..))

theorem Tidy.syncGenerations (h : q.Tidy) (generationOf : Nat → Option Generation) :
    (q.syncGenerations generationOf).Tidy where
  labelled _ _ he := (mem_pending_syncGenerations.1 he).1
  waiting := waiting_syncGenerations.nodup_iff.2 h.waiting
  roots := h.roots

theorem waiting_relocate {f : Nat → Nat} : (q.relocate f).waiting = q.waiting.map f := by
  simp only [waiting, relocate, List.map_flatMap, PerGeneration.get_map, List.map_map]
  rfl

theorem roots_relocate {f : Nat → Nat} : (q.relocate f).roots = q.roots.map f := by
  simp only [roots, relocate, List.map_append, List.map_map]
  rfl

theorem Tidy.relocate (h : q.Tidy) {f : Nat → Nat} {kept : Nat → Prop}
    (hinj : ∀ a b, kept a → kept b → f a = f b → a = b) (hwaiting : ∀ a ∈ q.waiting, kept a)
    (hroots : ∀ a ∈ q.roots, kept a) : (q.relocate f).Tidy := by
  refine ⟨fun g e he => ?_, ?_, ?_⟩
  · obtain ⟨e', he', rfl⟩ := mem_pending_relocate.1 he
    exact h.labelled g e' he'
  · rw [waiting_relocate]
    exact h.waiting.map_on fun a ha b hb => hinj a b (hwaiting a ha) (hwaiting b hb)
  · rw [roots_relocate]
    exact h.roots.map_on fun a ha b hb => hinj a b (hroots a ha) (hroots b hb)

/-! ### Running finalizers -/

theorem roots_takeReady {limit : Nat} : (q.takeReady limit).2.roots.Perm q.roots := by
  simp only [roots, takeReady]
  have hsplit : q.ready.map (·.object) = (q.ready.take limit).map (·.object) ++
      (q.ready.drop limit).map (·.object) := by
    rw [← List.map_append, List.take_append_drop]
  rw [hsplit, ← List.append_assoc]
  exact List.perm_append_comm.trans (List.append_assoc .. ▸ .refl _)

theorem Tidy.takeReady (h : q.Tidy) (limit : Nat) : (q.takeReady limit).2.Tidy :=
  ⟨h.labelled, h.waiting, roots_takeReady.nodup_iff.2 h.roots⟩

theorem Tidy.finishRunning (h : q.Tidy) : (q.finishRunning object).Tidy := by
  refine ⟨?_, ?_, ?_⟩
  · rw [pending_finishRunning]
    exact h.labelled
  · rw [FinalizationQueue.waiting, pending_finishRunning]
    exact h.waiting
  · rcases roots_finishRunning q object with he | hperm
    · exact he ▸ h.roots
    · exact (List.nodup_cons.1 (hperm.nodup_iff.1 h.roots)).2

end FinalizationQueue

end GenHeap
