import GenHeap.Proofs.Census

/-!
Tracing by several workers on one space. A worker pops an address off its own stack, tests and sets
the mark of the object there, and pushes the references of an object whose mark it was the first to
set. The steps of different workers come in any order. However they come, the workers stop, and
then they have marked what the seeds reach and counted each marked object once, exactly as a single
worker that is given all seeds.
-/

namespace GenHeap.Marking

open ObjectSpace (SameButMarks)
open Worklist (Reached Underway Empties)

/-! ## What has been marked and counted -/

/-- The marks were set one by one, on condemned objects, and were counted as they were set. -/
structure Recorded (s : ObjectSpace) (c : Generation) (s' : ObjectSpace) (objects bytes : Nat) :
    Prop where
  same : SameButMarks s s'
  condemned : ∀ a, s'.Marked a → s.Condemned c a
  tally : s.Tally s'.isMarked objects bytes

/-- From no marks at all, exactly what the seeds reach was marked, and that is what was counted. -/
structure Exact (s : ObjectSpace) (c : Generation) (seeds : List Nat) (s' : ObjectSpace)
    (objects bytes : Nat) : Prop where
  same : SameButMarks s s'
  marked_iff : ∀ a, s'.Marked a ↔ Reached (s.Condemned c) s.references (· ∈ seeds) a
  objects_eq : objects = (s'.entries.filter (·.2.marked)).length
  bytes_eq : bytes = ObjectSpace.weight (s'.entries.filter (·.2.marked))

section Recorded

variable {s s' s'' : ObjectSpace} {c : Generation} {seeds : List Nat} {a : Nat}
  {objects objects' bytes bytes' : Nat} {r : Record} {p : Progress}

theorem Recorded.start (h : ∀ a, ¬ s.Marked a) : Recorded s c s 0 0 where
  same := .refl s
  condemned a ha := absurd ha (h a)
  tally := .empty fun a _ => by rw [← Bool.not_eq_true, ObjectSpace.isMarked_iff]; exact h a

theorem Recorded.mark (h : Recorded s c s' objects bytes) (hr : s'.get? a = some r)
    (hc : r.generation.condemnedBy c = true) (hm : r.marked = false) :
    Recorded s c (s'.update a ({ · with marked := true })) (objects + 1) (bytes + r.size) := by
  obtain ⟨m, hq⟩ := h.same.symm.get? hr
  refine ⟨h.same.trans (ObjectSpace.sameButMarks_update _ _), ?_, ?_⟩
  · intro b hb
    rcases (ObjectSpace.marked_update hr b).1 hb with hb | rfl
    · exact h.condemned b hb
    · exact ⟨_, hq, hc⟩
  · refine h.tally.insert (r := { r with marked := m }) hq ?_ fun b => ?_
    · rw [ObjectSpace.isMarked, hr, Option.any_some, hm]
    · rw [Bool.eq_iff_iff, Bool.or_eq_true, beq_iff_eq, ObjectSpace.isMarked_iff,
        ObjectSpace.isMarked_iff, ObjectSpace.marked_update hr]

theorem Recorded.exact (h : Recorded s c s' objects bytes)
    (hmarked : ∀ a, s.Condemned c a →
      (s'.Marked a ↔ Reached (s.Condemned c) s.references (· ∈ seeds) a)) :
    Exact s c seeds s' objects bytes := by
  have htally := h.tally.congr h.same fun _ _ => rfl
  refine ⟨h.same, fun a => ⟨fun ha => ?_, fun ha => (hmarked a ha.within).2 ha⟩, ?_, ?_⟩
  · exact (hmarked a (h.condemned a ha)).1 ha
  · rw [htally.objects_eq, ObjectSpace.among_isMarked]
  · rw [htally.bytes_eq, ObjectSpace.among_isMarked]

/-- Two traces from the same seeds agree in everything. -/
theorem Exact.unique (h : Exact s c seeds s' objects bytes)
    (h' : Exact s c seeds s'' objects' bytes') :
    objects' = objects ∧ bytes' = bytes ∧ ∀ a, s''.get? a = s'.get? a := by
  have hsame := h.same.symm.trans h'.same
  have hmarked (a : Nat) : s''.Marked a ↔ s'.Marked a := (h'.marked_iff a).trans (h.marked_iff a).symm
  have hmarks : ∀ a, s'.contains a = true → s'.isMarked a = s''.isMarked a := fun a _ => by
    rw [Bool.eq_iff_iff, ObjectSpace.isMarked_iff, ObjectSpace.isMarked_iff, hmarked]
  have htally : s'.Tally s'.isMarked objects bytes := by
    refine ⟨?_, ?_⟩
    · rw [ObjectSpace.among_isMarked, h.objects_eq]
    · rw [ObjectSpace.among_isMarked, h.bytes_eq]
  have htally' := htally.congr hsame hmarks
  refine ⟨?_, ?_, hsame.get?_eq hmarked⟩
  · rw [htally'.objects_eq, ObjectSpace.among_isMarked, h'.objects_eq]
  · rw [htally'.bytes_eq, ObjectSpace.among_isMarked, h'.bytes_eq]

theorem Recorded.visit (h : Recorded s c p.space p.objects p.bytes) (a : Nat) :
    Recorded s c (visit c p a).1.space (visit c p a).1.objects (visit c p a).1.bytes := by
  rcases visit_cases c p a with ⟨r, hr, hc, hm, hvisit⟩ | ⟨hvisit, _⟩
  · rw [hvisit]
    exact h.mark hr hc hm
  · rw [hvisit]
    exact h

end Recorded

/-! ## The crew -/

/-- Where a worker is in its visits. -/
inductive Stage
  | ready
  /-- with an address off its stack, whose object is still to be looked at -/
  | holding (a : Nat)
  /-- with the references that its last visit found, which are not on its stack yet -/
  | pushing (found : List Nat)
  deriving DecidableEq, Repr

structure Worker where
  stack : List Nat
  stage : Stage := .ready
  /-- the objects that it was the first to mark, and their bytes -/
  objects : Nat := 0
  bytes : Nat := 0
  deriving DecidableEq, Repr

/-- The space that the workers share, and what each has for itself. -/
structure Crew where
  space : ObjectSpace
  workers : List Worker

/-- One step of one worker. Of all that other workers change, only the test of a mark, which sets it
at once, sees anything. -/
inductive Acts (c : Generation) : ObjectSpace → Worker → ObjectSpace → Worker → Prop
  | pop {s a stack objects bytes} :
      Acts c s ⟨a :: stack, .ready, objects, bytes⟩ s ⟨stack, .holding a, objects, bytes⟩
  | look {s a stack objects bytes p found} : visit c ⟨s, objects, bytes⟩ a = (p, found) →
      Acts c s ⟨stack, .holding a, objects, bytes⟩
        p.space ⟨stack, .pushing found, p.objects, p.bytes⟩
  | push {s stack found objects bytes} :
      Acts c s ⟨stack, .pushing found, objects, bytes⟩
        s ⟨Worklist.add stack found, .ready, objects, bytes⟩

/-- A step of any worker of the crew. -/
inductive Step (c : Generation) : Crew → Crew → Prop
  | act {s s' w w' front back} : Acts c s w s' w' →
      Step c ⟨s, front ++ w :: back⟩ ⟨s', front ++ w' :: back⟩

/-- So many steps, in any order of the workers. -/
inductive Run (c : Generation) : Nat → Crew → Crew → Prop
  | start {m} : Run c 0 m m
  | step {k m m' m''} : Run c k m m' → Step c m' m'' → Run c (k + 1) m m''

/-- What a worker has still to visit. -/
def Worker.pending (w : Worker) : List Nat :=
  match w.stage with
  | .ready => w.stack
  | .holding a => a :: w.stack
  | .pushing found => found ++ w.stack

section Pending

variable {stack found : List Nat} {a objects bytes : Nat}

@[simp] theorem pending_ready :
    (Worker.mk stack .ready objects bytes).pending = stack := rfl

@[simp] theorem pending_holding :
    (Worker.mk stack (.holding a) objects bytes).pending = a :: stack := rfl

@[simp] theorem pending_pushing :
    (Worker.mk stack (.pushing found) objects bytes).pending = found ++ stack := rfl

end Pending

/-- A bound on the steps that a worker takes without marking anything more: three for an address,
and one to push. -/
def Worker.effort (w : Worker) : Nat :=
  3 * w.stack.length + match w.stage with
    | .ready => 0
    | .holding _ => 2
    | .pushing found => 1 + 3 * found.length

/-- A worker has come to its end. -/
def Worker.Idle (w : Worker) : Prop := w.stage = .ready ∧ w.stack = []

namespace Crew

/-- A worker for each share of the seeds. -/
def start (s : ObjectSpace) (shares : List (List Nat)) : Crew :=
  ⟨s, shares.map fun seeds => { stack := Worklist.add [] seeds }⟩

def objects (m : Crew) : Nat := Word.total (m.workers.map (·.objects))

def bytes (m : Crew) : Nat := Word.total (m.workers.map (·.bytes))

def Pending (m : Crew) (a : Nat) : Prop := ∃ w ∈ m.workers, a ∈ w.pending

def Idle (m : Crew) : Prop := ∀ w ∈ m.workers, w.Idle

variable {s s' : ObjectSpace} {w w' : Worker} {front back : List Worker} {a : Nat}

theorem pending_iff : (Crew.mk s (front ++ w :: back)).Pending a ↔
    a ∈ w.pending ∨ ∃ v ∈ front ++ back, a ∈ v.pending := by
  simp only [Pending, List.mem_append, List.mem_cons]
  constructor
  · rintro ⟨v, hv | rfl | hv, ha⟩
    · exact .inr ⟨v, .inl hv, ha⟩
    · exact .inl ha
    · exact .inr ⟨v, .inr hv, ha⟩
  · rintro (ha | ⟨v, hv | hv, ha⟩)
    · exact ⟨w, .inr (.inl rfl), ha⟩
    · exact ⟨v, .inl hv, ha⟩
    · exact ⟨v, .inr (.inr hv), ha⟩

/-- What is summed up over the workers, apart from one of them. -/
theorem total_workers (f : Worker → Nat) (front back : List Worker) (w : Worker) :
    Word.total ((front ++ w :: back).map f) = f w + Word.total ((front ++ back).map f) := by
  simp only [List.map_append, List.map_cons, Word.total_append, Word.total_cons]
  omega

end Crew

/-! ## What a step keeps -/

/-- What holds of a crew at any time: what is marked is counted, and no address is forgotten. -/
structure Going (s : ObjectSpace) (c : Generation) (seeds : List Nat) (m : Crew) : Prop where
  recorded : Recorded s c m.space m.objects m.bytes
  underway : Underway (s.Condemned c) s.references (· ∈ seeds) m.space.Marked m.Pending

section Going

variable {s k : ObjectSpace} {c : Generation} {seeds stack found : List Nat} {m m' : Crew}
  {w w' : Worker} {front back : List Worker} {a objects bytes : Nat}

theorem pending_start {shares : List (List Nat)} :
    (Crew.start s shares).Pending a ↔ a ∈ shares.flatten := by
  simp only [Crew.Pending, Crew.start, List.mem_map, List.mem_flatten]
  constructor
  · rintro ⟨_, ⟨seeds, hseeds, rfl⟩, ha⟩
    rw [pending_ready, Worklist.add, List.append_nil, List.mem_reverse] at ha
    exact ⟨seeds, hseeds, ha⟩
  · rintro ⟨seeds, hseeds, ha⟩
    refine ⟨_, ⟨seeds, hseeds, rfl⟩, ?_⟩
    rwa [pending_ready, Worklist.add, List.append_nil, List.mem_reverse]

theorem total_start (f : Worker → Nat) (shares : List (List Nat))
    (hf : ∀ stack, f { stack } = 0) : Word.total ((Crew.start s shares).workers.map f) = 0 := by
  unfold Crew.start
  rw [List.map_map]
  induction shares with
  | nil => rfl
  | cons x rest ih => rw [List.map_cons, Word.total_cons, ih, Function.comp_apply, hf]

theorem going_start (shares : List (List Nat)) (hclear : ∀ a, ¬ s.Marked a) :
    Going s c shares.flatten (Crew.start s shares) := by
  constructor
  · rw [Crew.objects, Crew.bytes, total_start _ _ fun _ => rfl, total_start _ _ fun _ => rfl]
    exact .start hclear
  · exact .start hclear fun a => pending_start

/-- A worker that only moves addresses about leaves everything as it was. -/
theorem Going.shuffle (h : Going s c seeds ⟨k, front ++ w :: back⟩)
    (hobjects : w'.objects = w.objects) (hbytes : w'.bytes = w.bytes)
    (hpending : ∀ a, a ∈ w'.pending ↔ a ∈ w.pending) :
    Going s c seeds ⟨k, front ++ w' :: back⟩ := by
  have heq : (Crew.mk k (front ++ w' :: back)).Pending = (Crew.mk k (front ++ w :: back)).Pending :=
    funext fun a => propext (by rw [Crew.pending_iff, Crew.pending_iff, hpending])
  constructor
  · have hr := h.recorded
    unfold Crew.objects Crew.bytes at hr ⊢
    rw [Crew.total_workers, Crew.total_workers] at hr ⊢
    rwa [hobjects, hbytes]
  · rw [heq]
    exact h.underway

/-- A look at an object wins it, or finds it marked or not condemned, or finds none. -/
theorem Going.look (h : Going s c seeds ⟨k, front ++ ⟨stack, .holding a, objects, bytes⟩ :: back⟩)
    {p : Progress} (hvisit : visit c ⟨k, objects, bytes⟩ a = (p, found)) :
    Going s c seeds ⟨p.space, front ++ ⟨stack, .pushing found, p.objects, p.bytes⟩ :: back⟩ := by
  have hsame := h.recorded.same
  rcases visit_cases c ⟨k, objects, bytes⟩ a with ⟨r, hr, hc, hm, hfresh⟩ | ⟨hskip, hold⟩
  · cases hvisit.symm.trans hfresh
    have ha : s.Condemned c a := hsame.condemned_iff.1 ⟨r, hr, hc⟩
    have hreferences : s.references a = r.references := by
      rw [← hsame.references]
      exact ObjectSpace.references_eq hr
    constructor
    · have hmark := h.recorded.mark hr hc hm
      unfold Crew.objects Crew.bytes at hmark ⊢
      rw [Crew.total_workers, Crew.total_workers] at hmark ⊢
      rwa [Nat.add_right_comm, Nat.add_right_comm bytes]
    · refine h.underway.enter ha (ObjectSpace.marked_update hr) (fun t => ?_) ?_
      · rw [Crew.pending_iff, Crew.pending_iff, hreferences]
        simp only [pending_holding, pending_pushing, List.mem_cons, List.mem_append (s := r.references)]
        grind
      · exact Crew.pending_iff.2 (.inl List.mem_cons_self)
  · cases hvisit.symm.trans hskip
    constructor
    · have hr := h.recorded
      unfold Crew.objects Crew.bytes at hr ⊢
      rw [Crew.total_workers, Crew.total_workers] at hr ⊢
      exact hr
    · refine h.underway.drop (a := a) ?_ fun t => ?_
      · exact fun ha => hold (hsame.condemned_iff.2 ha)
      · rw [Crew.pending_iff, Crew.pending_iff]
        simp only [pending_holding, pending_pushing, List.mem_cons, List.nil_append, or_assoc]

/-- The step lemma: whichever worker acts, whatever it does. -/
theorem Going.step (h : Going s c seeds m) (hstep : Step c m m') : Going s c seeds m' := by
  cases hstep with
  | act hacts =>
    cases hacts with
    | pop => exact h.shuffle rfl rfl fun _ => Iff.rfl
    | look hvisit => exact h.look hvisit
    | push =>
      refine h.shuffle rfl rfl fun t => ?_
      simp only [pending_ready, pending_pushing, Worklist.Search.mem_add, List.mem_append]

theorem Going.run {n : Nat} (h : Going s c seeds m) (hrun : Run c n m m') : Going s c seeds m' := by
  induction hrun with
  | start => exact h
  | step _ hstep ih => exact (ih h).step hstep

theorem Going.exact (h : Going s c seeds m) (hidle : m.Idle) :
    Exact s c seeds m.space m.objects m.bytes := by
  have hnone (a : Nat) : ¬ m.Pending a := by
    rintro ⟨w, hw, ha⟩
    obtain ⟨hstage, hstack⟩ := hidle w hw
    rw [Worker.pending, hstage] at ha
    rw [hstack] at ha
    cases ha
  exact h.recorded.exact fun a _ => h.underway.done_iff hnone

end Going

/-! ## Termination -/

section Termination

variable {s k k' : ObjectSpace} {c : Generation} {seeds : List Nat} {m m' : Crew} {w w' : Worker}

/-- What is left to do: the references that may still be found, and the effort of the workers. -/
def Crew.measure (s : ObjectSpace) (m : Crew) : Nat :=
  3 * s.slotsLeft m.space.isMarked + Word.total (m.workers.map Worker.effort)

theorem Acts.effort_lt (hsame : SameButMarks s k) (h : Acts c k w k' w') :
    3 * s.slotsLeft k'.isMarked + w'.effort < 3 * s.slotsLeft k.isMarked + w.effort := by
  cases h with
  | pop =>
    simp only [Worker.effort, List.length_cons]
    omega
  | @look a _ objects bytes p found hvisit =>
    simp only [Worker.effort]
    by_cases hnew : s.Condemned c a ∧ ¬ k.Marked a
    · have hcosts := (search s c).costs (s := ⟨k, objects, bytes⟩) hsame hnew.1 hnew.2
      have hfinds := (search s c).finds (s := ⟨k, objects, bytes⟩) hsame hnew.1 hnew.2
      rw [← hfinds, hvisit] at hcosts
      dsimp only at hcosts
      omega
    · have hold : s.Condemned c a → k.Marked a := fun ha =>
        Classical.byContradiction fun hn => hnew ⟨ha, hn⟩
      have hskips := (search s c).skips (s := ⟨k, objects, bytes⟩) hsame hold
      cases hvisit.symm.trans hskips
      simp only [List.length_nil]
      omega
  | push =>
    simp only [Worker.effort, Worklist.add, List.length_append, List.length_reverse]
    omega

theorem Step.measure_lt (hsame : SameButMarks s m.space) (h : Step c m m') :
    m'.measure s < m.measure s := by
  cases h with
  | act hacts =>
    dsimp only at hsame
    have hlt := hacts.effort_lt hsame
    simp only [Crew.measure, Crew.total_workers]
    omega

theorem Going.run_le {n : Nat} (h : Going s c seeds m) (hrun : Run c n m m') :
    n + m'.measure s ≤ m.measure s := by
  induction hrun with
  | start => exact Nat.le_of_eq (Nat.zero_add _)
  | step hrun hstep ih =>
    have hlt := hstep.measure_lt (h.run hrun).recorded.same
    have := ih h
    omega

theorem measure_start_le (s : ObjectSpace) (shares : List (List Nat)) :
    (Crew.start s shares).measure s ≤ 3 * (shares.flatten.length + s.slotCount) := by
  have hshares : Word.total ((Crew.start s shares).workers.map Worker.effort)
      = 3 * shares.flatten.length := by
    unfold Crew.start
    induction shares with
    | nil => rfl
    | cons x rest ih =>
      rw [List.map_cons, List.map_cons, Word.total_cons, ih, List.flatten_cons, List.length_append]
      simp only [Worker.effort, Worklist.add, List.append_nil, List.length_reverse]
      omega
  have hslots := s.slotsLeft_le (Crew.start s shares).space.isMarked
  unfold Crew.measure
  omega

/-- A worker that has not come to its end can act, whatever the others have done. -/
theorem exists_acts (hw : ¬ w.Idle) : ∃ k' w', Acts c k w k' w' := by
  obtain ⟨stack, stage, objects, bytes⟩ := w
  cases stage with
  | ready =>
    cases stack with
    | nil => exact absurd ⟨rfl, rfl⟩ hw
    | cons a stack => exact ⟨_, _, .pop⟩
  | holding a => exact ⟨_, _, .look rfl⟩
  | pushing found => exact ⟨_, _, .push⟩

theorem exists_step (hm : ¬ m.Idle) : ∃ m', Step c m m' := by
  obtain ⟨k, workers⟩ := m
  simp only [Crew.Idle, Classical.not_forall] at hm
  obtain ⟨w, hw, hbusy⟩ := hm
  obtain ⟨front, back, rfl⟩ := List.append_of_mem hw
  obtain ⟨k', w', hacts⟩ := exists_acts (c := c) (k := k) hbusy
  exact ⟨_, .act hacts⟩

/-- Wherever the crew has come to, it can go on to its end. -/
theorem Going.exists_idle {n : Nat} {m' : Crew} (h : Going s c seeds m) (hrun : Run c n m m') :
    ∃ n' m'', Run c n' m m'' ∧ m''.Idle := by
  by_cases hidle : m'.Idle
  · exact ⟨n, m', hrun, hidle⟩
  · obtain ⟨m₁, hstep⟩ := exists_step (c := c) hidle
    have hlt := hstep.measure_lt (h.run hrun).recorded.same
    exact h.exists_idle (hrun.step hstep)
  termination_by m'.measure s

end Termination

/-! ## The trace -/

section Trace

variable {workers threshold : Nat} {s : ObjectSpace} {c : Generation} {seeds : List Nat}

/-- What each worker is given: one piece of the seeds if there are enough workers and seeds. -/
def shares (workers threshold : Nat) (seeds : List Nat) : List (List Nat) :=
  if workers ≤ 1 ∨ seeds.length < max threshold 2 then [seeds]
  else chunks (Word.pieces seeds.length workers - 1) seeds

theorem flatten_shares (workers threshold : Nat) (seeds : List Nat) :
    (shares workers threshold seeds).flatten = seeds := by
  unfold shares
  split
  · rw [List.flatten_cons, List.flatten_nil, List.append_nil]
  · exact flatten_chunks _ _

theorem trace_eq_foldl : trace workers threshold c s seeds
    = (shares workers threshold seeds).foldl (traceSerial c) { space := s } := by
  unfold trace shares
  split
  · rw [List.foldl_cons, List.foldl_nil]
  · rfl

theorem recorded_traceSerial {p : Progress} (h : Recorded s c p.space p.objects p.bytes)
    (seeds : List Nat) : Recorded s c (traceSerial c p seeds).space
      (traceSerial c p seeds).objects (traceSerial c p seeds).bytes :=
  Worklist.drain_induct (fun p : Progress => Recorded s c p.space p.objects p.bytes)
    (fun _ a hp => hp.visit a) _ _ h

theorem recorded_trace (hclear : ∀ a, ¬ s.Marked a) :
    Recorded s c (trace workers threshold c s seeds).space
      (trace workers threshold c s seeds).objects (trace workers threshold c s seeds).bytes := by
  rw [trace_eq_foldl]
  generalize shares workers threshold seeds = pieces
  have hstart : Recorded s c (Progress.mk s 0 0).space (Progress.mk s 0 0).objects
      (Progress.mk s 0 0).bytes := .start hclear
  generalize Progress.mk s 0 0 = p at hstart ⊢
  induction pieces generalizing p with
  | nil => exact hstart
  | cons x rest ih => exact ih _ (recorded_traceSerial hstart x)

theorem exact_trace (workers threshold : Nat) (c : Generation) (seeds : List Nat)
    (hclear : ∀ a, ¬ s.Marked a) :
    Exact s c seeds (trace workers threshold c s seeds).space
      (trace workers threshold c s seeds).objects (trace workers threshold c s seeds).bytes := by
  have htraced : Traced s c (· ∈ seeds) (trace workers threshold c s seeds).space :=
    traced_trace workers threshold fun a _ _ ha _ _ => absurd ha (hclear a)
  refine (recorded_trace hclear).exact fun a ha => ?_
  rw [htraced.marked_iff a ha, or_iff_right (hclear a)]

theorem empties_traceSerial (c : Generation) (p : Progress) (seeds : List Nat) :
    Empties (visit c) p (Worklist.add [] seeds) (traceSerial c p seeds) := by
  refine (search p.space c).empties _ _ (SameButMarks.refl p.space) ?_
  have := p.space.slotsLeft_le p.space.isMarked
  simp only [Worklist.add, List.append_nil, List.length_reverse]
  omega

end Trace

/-- Tracing is exact and does not depend on the workers. From no marks, the trace marks exactly the
condemned objects that the seeds reach through condemned objects and counts what it marked; one
worker with all seeds answers the same, and stops with nothing left to visit. The workers, in
whatever order their steps come, stop after three steps for each seed and slot at most, never all
wait while one has work, and leave the same marks and counts behind. -/
theorem trace_exact (workers threshold : Nat) (c : Generation) (s : ObjectSpace) (seeds : List Nat)
    (hclear : ∀ a, ¬ s.Marked a) :
    let p := trace workers threshold c s seeds
    let q := traceSerial c { space := s } seeds
    Exact s c seeds p.space p.objects p.bytes ∧
    (p.objects = q.objects ∧ p.bytes = q.bytes ∧ ∀ a, p.space.get? a = q.space.get? a) ∧
    Empties (visit c) { space := s } (Worklist.add [] seeds) q ∧
    (∃ n m, Run c n (Crew.start s (shares workers threshold seeds)) m ∧ m.Idle) ∧
    ∀ n m, Run c n (Crew.start s (shares workers threshold seeds)) m →
      n ≤ 3 * (seeds.length + s.slotCount) ∧
      (m.Idle → Exact s c seeds m.space m.objects m.bytes ∧
        m.objects = q.objects ∧ m.bytes = q.bytes ∧ ∀ a, m.space.get? a = q.space.get? a) ∧
      (¬ m.Idle → ∃ m', Step c m m') := by
  intro p q
  have hserial : q = trace 1 0 c s seeds := by
    unfold trace
    rw [if_pos (.inl (Nat.le_refl 1))]
  have hq : Exact s c seeds q.space q.objects q.bytes := by
    rw [hserial]
    exact exact_trace 1 0 c seeds hclear
  have hp := exact_trace workers threshold c seeds hclear
  have hgoing := going_start (c := c) (shares workers threshold seeds) hclear
  have hbound := measure_start_le s (shares workers threshold seeds)
  rw [flatten_shares] at hgoing hbound
  refine ⟨hp, hq.unique hp, empties_traceSerial c _ seeds, hgoing.exists_idle .start, ?_⟩
  intro n m hrun
  refine ⟨?_, fun hidle => ?_, exists_step⟩
  · have := hgoing.run_le hrun
    omega
  · have hm := (hgoing.run hrun).exact hidle
    exact ⟨hm, hq.unique hm⟩

/-- Objects in a cycle with a shared one, a reference to no object, and an old object that alone
leads to the object at 160. -/
def knot : ObjectSpace where
  objects := Std.TreeMap.ofList (β := Record) [
    (64, { size := 32, generation := .gen0, heap := 0, segment := 1, slots := [96, 128] }),
    (96, { size := 32, generation := .gen1, heap := 0, segment := 1, slots := [64, 0] }),
    (128, { size := 24, generation := .gen0, heap := 0, segment := 1, slots := [96, 512] }),
    (160, { size := 24, generation := .gen0, heap := 0, segment := 1, slots := [] }),
    (192, { size := 40, generation := .gen2, heap := 0, segment := 2, slots := [160] })]
  totalBytes := 152
  touched := true

/-- Two workers share the cycle, another has a seed that names no object. -/
theorem trace_exact_knot : (∀ a, ¬ knot.clearMarks.Marked a) ∧
    Exact knot.clearMarks .gen1 [64, 64, 128, 192, 512]
      (trace 4 2 .gen1 knot.clearMarks [64, 64, 128, 192, 512]).space 3 88 := by
  have hclear := ObjectSpace.not_marked_clearMarks knot
  have hcounts : (trace 4 2 .gen1 knot.clearMarks [64, 64, 128, 192, 512]).objects = 3 ∧
      (trace 4 2 .gen1 knot.clearMarks [64, 64, 128, 192, 512]).bytes = 88 := by decide +kernel
  have h := (trace_exact 4 2 .gen1 knot.clearMarks [64, 64, 128, 192, 512] hclear).1
  rw [hcounts.1, hcounts.2] at h
  exact ⟨hclear, h⟩

end GenHeap.Marking
