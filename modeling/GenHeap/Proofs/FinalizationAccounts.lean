import GenHeap.Proofs.Books
import GenHeap.Proofs.FinalizationQueue

/-!
The accounts of a finalization queue. Whatever is done with it, and however often an object is
registered, each registration was suppressed, waits in a bucket, is ready or was taken, and the queue
counts them right. What an operation does to the entries is said in full: scanning parts buckets,
sorting moves entries between them, and a relocation changes addresses only.
-/

namespace GenHeap.FinalizationQueue

/-- What is done with a queue. Which objects live, where they live and where they have moved to is
up to the caller. -/
inductive Operation where
  | register (object : Nat) (g : Generation)
  | suppress (object : Nat)
  | scanUnreachable (condemned : Generation) (live : Nat → Bool)
  | syncGenerations (generationOf : Nat → Option Generation)
  | relocate (forward : Nat → Nat)
  | takeReady (limit : Nat)
  | finishRunning (object : Nat)

/-- The entries that are taken, and the queue after it. -/
def Operation.apply (q : FinalizationQueue) :
    Operation → List FinalizableEntry × FinalizationQueue
  | register object g => ([], q.register object g)
  | suppress object => ([], q.suppress object)
  | scanUnreachable condemned live => ([], q.scanUnreachable condemned live)
  | syncGenerations generationOf => ([], q.syncGenerations generationOf)
  | relocate forward => ([], q.relocate forward)
  | takeReady limit => q.takeReady limit
  | finishRunning object => ([], q.finishRunning object)

/-- All entries taken on the way, and the queue at the end. -/
def run (q : FinalizationQueue) : List Operation → List FinalizableEntry × FinalizationQueue
  | [] => ([], q)
  | op :: ops =>
    let (taken, q₁) := op.apply q
    let (later, q₂) := run q₁ ops
    (taken ++ later, q₂)

variable {q q' : FinalizationQueue} {e : FinalizableEntry} {g condemned : Generation} {object : Nat}
  {live : Nat → Bool} {generationOf : Nat → Option Generation} {f : Nat → Nat}
  {taken : List FinalizableEntry}

/-! ## What the operations do -/

/-- How many entries were ever registered, suppressed and made ready. -/
def counts (q : FinalizationQueue) : Nat × Nat × Nat := (q.registered, q.suppressed, q.madeReady)

/-- The entry with the generation in which its object is now; an object of none keeps its own. -/
def relabel (generationOf : Nat → Option Generation) (e : FinalizableEntry) : FinalizableEntry :=
  { e with generation := (generationOf e.object).getD e.generation }

/-- A list parted into what is picked and what is left, both in the order that there was. -/
structure Parted (p : FinalizableEntry → Prop) (whole picked left : List FinalizableEntry) : Prop where
  picked_sublist : picked.Sublist whole
  left_sublist : left.Sublist whole
  perm : whole.Perm (picked ++ left)
  of_mem_picked : ∀ e ∈ picked, p e
  of_mem_left : ∀ e ∈ left, ¬ p e

/-- The dead of the condemned buckets go to the end of the ready list, bucket by bucket. -/
structure Scans (q : FinalizationQueue) (condemned : Generation) (live : Nat → Bool)
    (q' : FinalizationQueue) : Prop where
  moved : ∃ dead : Generation → List FinalizableEntry,
    q'.ready = q.ready ++ Generation.all.flatMap dead ∧
    q'.counts = (q.registered, q.suppressed, q.madeReady + (Generation.all.flatMap dead).length) ∧
    ∀ g, Parted (fun e => g.condemnedBy condemned = true ∧ live e.object = false)
      (q.pending.get g) (dead g) (q'.pending.get g)
  running_eq : q'.running = q.running

/-- All entries are there, each in the bucket of its generation, and those that stay together keep
their order. -/
structure Sorts (q : FinalizationQueue) (generationOf : Nat → Option Generation)
    (q' : FinalizationQueue) : Prop where
  perm : (Generation.all.flatMap q'.pending.get).Perm
    ((Generation.all.flatMap q.pending.get).map (relabel generationOf))
  generation_eq : ∀ g, ∀ e ∈ q'.pending.get g, e.generation = g
  sublist : ∀ g k, (((q.pending.get g).map (relabel generationOf)).filter (·.generation == k)).Sublist
    (q'.pending.get k)
  ready_eq : q'.ready = q.ready
  running_eq : q'.running = q.running
  counts_eq : q'.counts = q.counts

/-- Entries stay where they are and keep their generations; their objects have moved. -/
structure Relocates (q : FinalizationQueue) (f : Nat → Nat) (q' : FinalizationQueue) : Prop where
  generations : ∀ g, (q'.pending.get g).map (·.generation) = (q.pending.get g).map (·.generation)
  objects : ∀ g, (q'.pending.get g).map (·.object) = ((q.pending.get g).map (·.object)).map f
  ready_generations : q'.ready.map (·.generation) = q.ready.map (·.generation)
  ready_objects : q'.ready.map (·.object) = (q.ready.map (·.object)).map f
  running_eq : q'.running = q.running.map f
  counts_eq : q'.counts = q.counts

/-- How an object ends to run: it does not run, or one of its occurrences goes. -/
inductive Finishes (q : FinalizationQueue) (object : Nat) : FinalizationQueue → Prop where
  | none (hno : object ∉ q.running) : Finishes q object q
  | found {running : List Nat} (hperm : q.running.Perm (object :: running)) :
      Finishes q object { q with running }

/-- What an operation takes from a queue and makes of it. -/
def Operation.Does (q : FinalizationQueue) (taken : List FinalizableEntry) (q' : FinalizationQueue) :
    Operation → Prop
  | register object g => taken = [] ∧ q' = { q with
      pending := q.pending.set g (q.pending.get g ++ [⟨object, g⟩])
      registered := q.registered + 1 }
  | suppress object => taken = [] ∧ Suppresses q object q'
  | scanUnreachable condemned live => taken = [] ∧ Scans q condemned live q'
  | syncGenerations generationOf => taken = [] ∧ Sorts q generationOf q'
  | relocate forward => taken = [] ∧ Relocates q forward q'
  | takeReady limit => taken.length = min limit q.ready.length ∧ ∃ rest, q.ready = taken ++ rest ∧
      q' = { q with ready := rest, running := q.running ++ taken.map (·.object) }
  | finishRunning object => taken = [] ∧ Finishes q object q'

theorem parted_filter (p : FinalizableEntry → Bool) (whole : List FinalizableEntry) :
    Parted (fun e => p e = true) whole (whole.filter p) (whole.filter (!p ·)) where
  picked_sublist := List.filter_sublist
  left_sublist := List.filter_sublist
  perm := (List.filter_append_perm p whole).symm
  of_mem_picked _ he := (List.mem_filter.1 he).2
  of_mem_left _ he := by simpa using (List.mem_filter.1 he).2

theorem parted_nil (whole : List FinalizableEntry) : Parted (fun _ => False) whole [] whole :=
  ⟨List.nil_sublist _, .refl _, .refl _, fun _ he => absurd he List.not_mem_nil, fun _ _ => id⟩

theorem Parted.congr {p p' : FinalizableEntry → Prop} {whole picked left : List FinalizableEntry}
    (h : Parted p whole picked left) (hp : ∀ e, p' e ↔ p e) : Parted p' whole picked left :=
  ⟨h.picked_sublist, h.left_sublist, h.perm, fun e he => (hp e).2 (h.of_mem_picked e he),
    fun e he hpe => h.of_mem_left e he ((hp e).1 hpe)⟩

theorem scanUnreachable_scans : Scans q condemned live (q.scanUnreachable condemned live) := by
  refine ⟨⟨fun g => if g.condemnedBy condemned then (q.pending.get g).filter (!live ·.object) else [],
    ?_, ?_, fun g => ?_⟩, rfl⟩
  · rw [ready_scanUnreachable, unreachable_eq]
  · rw [← unreachable_eq]
    rfl
  · simp only [scanUnreachable, PerGeneration.get_ofFn]
    split
    next hg =>
      have hparted := parted_filter (!live ·.object) (q.pending.get g)
      simp only [Bool.not_not] at hparted
      exact hparted.congr fun e => by simp [hg]
    next hg => exact (parted_nil _).congr fun e => by simp [hg]

theorem syncGenerations_sorts : Sorts q generationOf (q.syncGenerations generationOf) where
  perm := by
    have horder : sortOrder.Perm Generation.all := by decide
    have hsorted := perm_sorted ((sortOrder.flatMap q.pending.get).map (relabel generationOf))
    refine .trans (.of_eq ?_) (hsorted.trans ((horder.flatMap_right _).map _))
    exact List.flatMap_congr fun g _ => PerGeneration.get_ofFn ..
  generation_eq _ _ he := (mem_pending_syncGenerations.1 he).1
  sublist g k := by
    have hg : g ∈ sortOrder := by cases g <;> decide
    obtain ⟨front, back, horder⟩ := List.append_of_mem hg
    have hwhole : (q.pending.get g).Sublist (sortOrder.flatMap q.pending.get) := by
      rw [horder, List.flatMap_append, List.flatMap_cons]
      exact .trans (List.sublist_append_left ..) (List.sublist_append_right ..)
    rw [syncGenerations, PerGeneration.get_ofFn]
    exact (hwhole.map (relabel generationOf)).filter _
  ready_eq := rfl
  running_eq := rfl
  counts_eq := rfl

theorem relocate_relocates : Relocates q f (q.relocate f) where
  generations g := by
    rw [relocate, PerGeneration.get_map, List.map_map]
    rfl
  objects g := by
    rw [relocate, PerGeneration.get_map, List.map_map, List.map_map]
    rfl
  ready_generations := by
    rw [relocate, List.map_map]
    rfl
  ready_objects := by
    rw [relocate, List.map_map, List.map_map]
    rfl
  running_eq := rfl
  counts_eq := rfl

theorem finishRunning_finishes : Finishes q object (q.finishRunning object) := by
  unfold finishRunning
  cases hi : q.running.idxOf? object with
  | none => exact .none (List.idxOf?_eq_none_iff.1 hi)
  | some i =>
    obtain ⟨hlt, he, _⟩ := List.idxOf?_eq_some_iff.1 hi
    exact .found (perm_cons_swapErase (List.getElem?_eq_some_iff.2 ⟨hlt, he⟩))

theorem Operation.does_apply (op : Operation) (q : FinalizationQueue) :
    op.Does q (op.apply q).1 (op.apply q).2 := by
  cases op with
  | register object g =>
    refine ⟨rfl, ?_⟩
    show q.register object g = _
    rw [FinalizationQueue.register, PerGeneration.modify_eq_set]
  | suppress object => exact ⟨rfl, suppress_suppresses q object⟩
  | scanUnreachable condemned live => exact ⟨rfl, scanUnreachable_scans⟩
  | syncGenerations generationOf => exact ⟨rfl, syncGenerations_sorts⟩
  | relocate forward => exact ⟨rfl, relocate_relocates⟩
  | takeReady limit =>
    exact ⟨List.length_take, q.ready.drop limit, (List.take_append_drop limit q.ready).symm, rfl⟩
  | finishRunning object => exact ⟨rfl, finishRunning_finishes⟩

/-! ## The accounts -/

/-- Where the registrations are, if `taken` are all that were ever taken. -/
structure Accounted (q : FinalizationQueue) (taken : List FinalizableEntry) : Prop where
  registered_eq : q.registered = q.suppressed + q.madeReady + q.totalPending
  madeReady_eq : q.madeReady = q.readyCount + taken.length

variable {before : List FinalizableEntry}

theorem totalPending_eq : q.totalPending = (Generation.all.flatMap q.pending.get).length := by
  simp only [totalPending, PerGeneration.toList, Generation.all, List.flatMap_cons, List.flatMap_nil,
    List.length_append, List.length_nil, List.map_cons, List.map_nil, Word.total_cons,
    Word.total_nil, PerGeneration.get]

/-- One bucket was changed: the total changes by as much. -/
theorem totalPending_set (q q' : FinalizationQueue) {entries : List FinalizableEntry}
    (hpending : q'.pending = q.pending.set g entries) :
    q'.totalPending + (q.pending.get g).length = q.totalPending + entries.length := by
  have h := (perm_modify q.pending g fun _ => entries).length_eq
  rw [List.length_append, List.length_append, ← totalPending_eq] at h
  rwa [totalPending_eq, hpending]

theorem accounted_empty : ({} : FinalizationQueue).Accounted [] := ⟨rfl, rfl⟩

theorem Accounted.register (h : q.Accounted before) :
    { q with
      pending := q.pending.set g (q.pending.get g ++ [e])
      registered := q.registered + 1 }.Accounted before := by
  obtain ⟨hregistered, hmade⟩ := h
  refine ⟨?_, hmade⟩
  have htotal := totalPending_set q { q with
    pending := q.pending.set g (q.pending.get g ++ [e])
    registered := q.registered + 1 } rfl
  rw [List.length_append, List.length_singleton] at htotal
  show q.registered + 1 = q.suppressed + q.madeReady + _
  omega

theorem Suppresses.accounted (hdoes : Suppresses q object q') (h : q.Accounted before) :
    q'.Accounted before := by
  cases hdoes with
  | none => exact h
  | @found g e front back _ _ hget =>
    obtain ⟨hregistered, hmade⟩ := h
    refine ⟨?_, hmade⟩
    have htotal := totalPending_set q { q with
      pending := q.pending.set g (front ++ back)
      suppressed := q.suppressed + 1 } rfl
    rw [hget, List.length_append, List.length_append, List.length_cons] at htotal
    show q.registered = q.suppressed + 1 + q.madeReady + _
    omega

theorem Scans.accounted (hdoes : Scans q condemned live q') (h : q.Accounted before) :
    q'.Accounted before := by
  obtain ⟨hregistered, hmade⟩ := h
  obtain ⟨dead, hready, hcounts, hparted⟩ := hdoes.moved
  have hsplit := (List.Perm.flatMap_left Generation.all fun g _ => (hparted g).perm).trans
    (List.flatMap_append_perm ..).symm
  have htotal := hsplit.length_eq
  rw [List.length_append, ← totalPending_eq, ← totalPending_eq] at htotal
  have hcount : q'.readyCount = q.readyCount + (Generation.all.flatMap dead).length := by
    rw [readyCount, hready, List.length_append, readyCount]
  simp only [counts, Prod.mk.injEq] at hcounts
  constructor <;> omega

/-- The accounts are of numbers: it is all the same which entries are where. -/
theorem Accounted.of_counts (h : q.Accounted before) (hcounts : q'.counts = q.counts)
    (hpending : q'.totalPending = q.totalPending) (hready : q'.readyCount = q.readyCount) :
    q'.Accounted before := by
  obtain ⟨hregistered, hmade⟩ := h
  simp only [counts, Prod.mk.injEq] at hcounts
  constructor <;> omega

theorem Sorts.accounted (hdoes : Sorts q generationOf q') (h : q.Accounted before) :
    q'.Accounted before := by
  refine h.of_counts hdoes.counts_eq ?_ (congrArg List.length hdoes.ready_eq)
  rw [totalPending_eq, hdoes.perm.length_eq, List.length_map, totalPending_eq]

theorem Relocates.accounted (hdoes : Relocates q f q') (h : q.Accounted before) :
    q'.Accounted before := by
  refine h.of_counts hdoes.counts_eq ?_ ?_
  · have hlength (g : Generation) : (q'.pending.get g).length = (q.pending.get g).length := by
      simpa only [List.length_map] using congrArg List.length (hdoes.generations g)
    simp only [totalPending_eq, List.length_flatMap, hlength]
  · simpa only [List.length_map, readyCount] using congrArg List.length hdoes.ready_generations

theorem Finishes.accounted (hdoes : Finishes q object q') (h : q.Accounted before) :
    q'.Accounted before := by
  cases hdoes with
  | none => exact h
  | found => exact h.of_counts rfl rfl rfl

theorem Accounted.of_nil (h : q.Accounted before) (htaken : taken = []) :
    q.Accounted (before ++ taken) := by
  rwa [htaken, List.append_nil]

/-- What an operation takes is all that is missing from the accounts after it. -/
theorem Accounted.step {op : Operation} (h : q.Accounted before) (hdoes : op.Does q taken q') :
    q'.Accounted (before ++ taken) := by
  cases op with
  | register object g =>
    obtain ⟨htaken, rfl⟩ := hdoes
    exact h.register.of_nil htaken
  | suppress object => exact (hdoes.2.accounted h).of_nil hdoes.1
  | scanUnreachable condemned live => exact (hdoes.2.accounted h).of_nil hdoes.1
  | syncGenerations generationOf => exact (hdoes.2.accounted h).of_nil hdoes.1
  | relocate forward => exact (hdoes.2.accounted h).of_nil hdoes.1
  | finishRunning object => exact (hdoes.2.accounted h).of_nil hdoes.1
  | takeReady limit =>
    obtain ⟨_, rest, hready, rfl⟩ := hdoes
    obtain ⟨hregistered, hmade⟩ := h
    refine ⟨hregistered, hmade.trans ?_⟩
    show q.ready.length + before.length = rest.length + (before ++ taken).length
    rw [hready, List.length_append, List.length_append]
    omega

theorem Accounted.run (h : q.Accounted before) (ops : List Operation) :
    (run q ops).2.Accounted (before ++ (run q ops).1) := by
  induction ops generalizing q before with
  | nil => exact h.of_nil rfl
  | cons op ops ih =>
    have hlater := ih (h.step (op.does_apply q))
    rwa [List.append_assoc] at hlater

/-- After any run, the accounts of the queue are right, and the next operation moves just the entries
that it has to. -/
theorem entries_conserved (ops : List Operation) :
    (run {} ops).2.Accounted (run {} ops).1 ∧
      ∀ op : Operation, op.Does (run {} ops).2 (op.apply (run {} ops).2).1 (op.apply (run {} ops).2).2 :=
  ⟨accounted_empty.run ops, fun op => op.does_apply _⟩

/-- Registered twice, an object can be suppressed once and still be made ready and taken. -/
example : (run {} [.register 8 .gen0, .register 8 .gen0, .suppress 8,
    .scanUnreachable .gen0 fun _ => false, .takeReady 5]).1 = [⟨8, .gen0⟩] := by decide

end GenHeap.FinalizationQueue
