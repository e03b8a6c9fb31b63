import Mathlib.Data.List.Flatten
import GenHeap.Proofs.Heap.Advances

/-!
A journal of all registrations for finalization along a run. What is still to be delivered is in the
queues, each entry once, and its object is there; what is over was suppressed, or handed out once,
after a collection that did not reach the object from the roots.
-/

namespace GenHeap

open Memory (Registered)

/-- All registrations in the order in which they were made, and the numbers of those handed out. One
that is over keeps the last address of its object, which may be another object's by now. -/
structure Journal where
  entries : List Registration := []
  delivered : List Nat := []

namespace Journal

/-- What is still to be delivered is what the queues hold, no registration twice. -/
structure Agrees (j : Journal) (m : Memory) : Prop where
  lists : ∀ {x : Registration}, x.outstanding = true → (x ∈ j.entries ↔ m.Lists x)
  once : ∀ {n k : Nat} {x : Registration}, j.entries[n]? = some x → j.entries[k]? = some x →
    x.outstanding = true → n = k

/-- How an operation that leads from `h` to `h'` and moves objects by `f` continues a journal. -/
structure Next (op : Operation) (f : Nat → Nat) (h h' : Heap) (j j' : Journal) : Prop where
  retains : Heap.Retains op f h h'
  steps : ∀ {n : Nat} {x : Registration}, j.entries[n]? = some x →
    ∃ y, j'.entries[n]? = some y ∧ x.Step op h h' f y
  made : ∀ {n : Nat} {y : Registration}, j.entries[n]? = none → j'.entries[n]? = some y →
    y.stage = .pending ∧ op.registers h h' y
  accepted : ∀ {y : Registration}, op.registers h h' y → y.stage = .pending → y ∈ j'.entries
  delivers : ∃ numbers, j'.delivered = j.delivered ++ numbers ∧
    numbers.map (j.entries[·]?) = (op.delivers h).map fun (i, e) => some ⟨i, e.object, .ready⟩
  agrees : j'.Agrees h'.memory

/-- The journal's side of an operation. -/
def advance (f : Nat → Nat) (g : Nat → Stage → Stage) (new : List Registration)
    (batch : List (Nat × FinalizableEntry)) (j : Journal) : Journal where
  entries := j.entries.map (·.turn f g) ++ new
  delivered := j.delivered ++ batch.map fun (i, e) => j.entries.idxOf ⟨i, e.object, .ready⟩

variable {j j' : Journal} {h h' : Heap} {m m' : Memory} {op : Operation} {f : Nat → Nat}
  {g : Nat → Stage → Stage} {new : List Registration} {batch : List (Nat × FinalizableEntry)}
  {n k : Nat} {x y : Registration}

theorem agrees_empty (hm : ∀ x, ¬ m.Lists x) : Agrees {} m where
  lists {x} _ := ⟨fun hx => absurd hx List.not_mem_nil, fun hx => absurd hx (hm x)⟩
  once hn := nomatch hn

theorem getElem?_advance (hx : j.entries[n]? = some x) :
    (j.advance f g new batch).entries[n]? = some (x.turn f g) := by
  have hn : n < (j.entries.map (·.turn f g)).length := by
    rw [List.length_map]
    exact (List.getElem?_eq_some_iff.1 hx).1
  rw [advance, List.getElem?_append_left hn, List.getElem?_map, hx]
  rfl

theorem getElem?_advance_new (hn : j.entries[n]? = none) :
    (j.advance f g new batch).entries[n]? = new[n - j.entries.length]? := by
  rw [advance, List.getElem?_append_right, List.length_map]
  rw [List.length_map]
  exact List.getElem?_eq_none_iff.1 hn

/-- An entry afterwards is one of before or new. -/
theorem getElem?_advance_cases (hy : (j.advance f g new batch).entries[n]? = some y) :
    (∃ x, j.entries[n]? = some x ∧ x.turn f g = y) ∨ j.entries[n]? = none ∧ y ∈ new := by
  cases hx : j.entries[n]? with
  | some x =>
    rw [getElem?_advance hx] at hy
    exact .inl ⟨x, rfl, Option.some.inj hy⟩
  | none =>
    rw [getElem?_advance_new hx] at hy
    exact .inr ⟨rfl, List.mem_of_getElem? hy⟩

namespace Agrees

theorem listed (hj : j.Agrees m) (hx : j.entries[n]? = some x) (hout : x.outstanding = true) :
    m.Lists x :=
  (hj.lists hout).1 (List.mem_of_getElem? hx)

theorem mem_advance {m₁ : Memory} (hj : j.Agrees m) (hs : m.Evolves f g m₁)
    (hy : y.outstanding = true) : y ∈ (j.advance f g new batch).entries ↔ m₁.Lists y ∨ y ∈ new := by
  rw [advance, List.mem_append, List.mem_map, hs.lists hy]
  refine or_congr_left ⟨?_, ?_⟩
  · rintro ⟨x, hx, rfl⟩
    exact ⟨x, (hj.lists (hs.outstanding hy)).1 hx, rfl⟩
  · rintro ⟨x, hx, rfl⟩
    exact ⟨x, (hj.lists hx.outstanding).2 hx, rfl⟩

/-- The journal keeps up with the queues. -/
theorem advance {m₁ : Memory} (hj : j.Agrees m) (hs : m.Evolves f g m₁)
    (hlists : ∀ {y}, m'.Lists y ↔ m₁.Lists y ∨ y ∈ new) (hnew : ∀ y ∈ new, ¬ m₁.Lists y)
    (honce : new.length ≤ 1) : (j.advance f g new batch).Agrees m' := by
  refine ⟨fun hy => (hj.mem_advance hs hy).trans hlists.symm, ?_⟩
  have hold {n : Nat} {x y : Registration} (hx : j.entries[n]? = some x) (hy : x.turn f g = y)
      (hout : y.outstanding = true) : m.Lists x ∧ m₁.Lists y := by
    subst hy
    have hx := hj.listed hx (hs.outstanding hout)
    exact ⟨hx, (hs.lists hout).2 ⟨x, hx, rfl⟩⟩
  intro n k y hn hk hout
  -- two old ones have not become one, a new one is not listed yet, and there is one new one at most
  rcases getElem?_advance_cases hn with ⟨x, hx, hxy⟩ | ⟨hn', hmem⟩
  · rcases getElem?_advance_cases hk with ⟨z, hz, hzy⟩ | ⟨hk', hmem⟩
    · obtain ⟨hlx, _⟩ := hold hx hxy hout
      obtain ⟨hlz, _⟩ := hold hz hzy hout
      have hsame : x = z := hs.injective hlx hlz (hxy ▸ hout) (hxy.trans hzy.symm)
      exact hj.once hx (hsame ▸ hz) hlx.outstanding
    · exact absurd (hold hx hxy hout).2 (hnew y hmem)
  · rcases getElem?_advance_cases hk with ⟨z, hz, hzy⟩ | ⟨hk', _⟩
    · exact absurd (hold hz hzy hout).2 (hnew y hmem)
    · rw [getElem?_advance_new hn'] at hn
      rw [getElem?_advance_new hk'] at hk
      have := (List.getElem?_eq_some_iff.1 hn).1
      have := (List.getElem?_eq_some_iff.1 hk).1
      have := List.getElem?_eq_none_iff.1 hn'
      have := List.getElem?_eq_none_iff.1 hk'
      omega

end Agrees

end Journal

/-! ## What is handed out -/

namespace Heap

variable {h h' : Heap} {op : Operation}

theorem mem_takeReady {i : Nat} {e : FinalizableEntry} :
    (i, e) ∈ h.takeReady.1 ↔ ∃ l, h.heaps[i]? = some l ∧ e ∈ l.finalization.ready := by
  simp only [takeReady, List.mem_flatten, List.mem_mapIdx]
  constructor
  · rintro ⟨_, ⟨k, hk, rfl⟩, hmem⟩
    obtain ⟨e', he, heq⟩ := List.mem_map.1 hmem
    cases heq
    exact ⟨_, List.getElem?_eq_getElem hk, he⟩
  · rintro ⟨l, hl, he⟩
    obtain ⟨hi, rfl⟩ := List.getElem?_eq_some_iff.1 hl
    exact ⟨_, ⟨i, hi, rfl⟩, List.mem_map_of_mem he⟩

/-- All ready entries are handed out. -/
theorem lists_ready {i a : Nat} :
    h.memory.Lists ⟨i, a, .ready⟩ ↔ ∃ e, (i, e) ∈ h.takeReady.1 ∧ e.object = a := by
  simp only [Memory.Lists, memory_queues, Option.map_eq_some_iff, mem_takeReady]
  constructor
  · rintro ⟨_, ⟨l, hl, rfl⟩, ha⟩
    obtain ⟨e, he, rfl⟩ := List.mem_map.1 ha
    exact ⟨e, ⟨l, hl, he⟩, rfl⟩
  · rintro ⟨e, ⟨l, hl, he⟩, rfl⟩
    exact ⟨_, ⟨l, hl, rfl⟩, List.mem_map_of_mem he⟩

theorem lists_of_delivers {i : Nat} {e : FinalizableEntry} (he : (i, e) ∈ op.delivers h) :
    h.memory.Lists ⟨i, e.object, .ready⟩ := by
  cases op with
  | takeReady => exact lists_ready.2 ⟨e, he, rfl⟩
  | _ => cases he

/-- No two entries of a kind name the same object, in one queue or in two. -/
theorem nodup_named (hr : h.memory.Registered) {named : FinalizationQueue → List Nat}
    (hsub : ∀ q, named q ⊆ q.waiting ++ q.roots) (hnodup : ∀ q, q.Tidy → (named q).Nodup) :
    (h.heaps.flatMap fun l => named l.finalization).Nodup := by
  refine List.nodup_flatMap.2 ⟨fun l hl => hnodup _ (hr.tidy (List.mem_map_of_mem hl)), ?_⟩
  rw [List.pairwise_iff_getElem]
  intro i k hi hk hlt a hai hak
  have howner {i : Nat} (hi : i < h.heaps.length) (ha : a ∈ named h.heaps[i].finalization) :
      ∃ r, h.space.get? a = some r ∧ r.heap = i := by
    apply hr.owned _ (hsub _ ha)
    rw [memory_queues, List.getElem?_eq_getElem hi]
    rfl
  obtain ⟨r, hget, hheap⟩ := howner hi hai
  obtain ⟨r', hget', hheap'⟩ := howner hk hak
  cases hget.symm.trans hget'
  omega

theorem nodup_waiting (hr : h.memory.Registered) :
    (h.heaps.flatMap (·.finalization.waiting)).Nodup :=
  nodup_named hr (fun _ => List.subset_append_left ..) fun _ ht => ht.waiting

theorem nodup_roots (hr : h.memory.Registered) :
    (h.heaps.flatMap (·.finalization.roots)).Nodup :=
  nodup_named hr (fun _ => List.subset_append_right ..) fun _ ht => ht.roots

/-- No object is handed out twice at once. -/
theorem nodup_takeReady (hr : h.memory.Registered) :
    (h.takeReady.1.map (·.2.object)).Nodup := by
  have hobjects : h.takeReady.1.map (·.2.object) =
      h.heaps.flatMap fun l => l.finalization.ready.map (·.object) := by
    rw [takeReady, List.map_flatten, List.flatMap_def]
    apply congrArg
    apply List.ext_getElem?
    intro i
    rw [List.getElem?_map, List.getElem?_mapIdx, List.getElem?_map, Option.map_map]
    apply congrFun
    apply congrArg
    funext l
    exact List.map_map ..
  rw [hobjects]
  apply List.Nodup.sublist _ (nodup_roots hr)
  exact .flatMap_right _ fun _ _ => List.sublist_append_left ..

end Heap

namespace Journal

variable {j j' : Journal} {h h' : Heap} {op : Operation} {f : Nat → Nat} {g : Nat → Stage → Stage}
  {new : List Registration} {ops : List Operation} {n : Nat} {x y : Registration}

/-- Every operation continues the journal. -/
theorem Agrees.next (hj : j.Agrees h.memory) (ha : Heap.Advances op f g new h h') :
    Next op f h h' j (j.advance f g new (op.delivers h)) := by
  obtain ⟨m, hs, hlists, hnew⟩ := ha.turned
  have hagrees : (j.advance f g new (op.delivers h)).Agrees h'.memory :=
    hj.advance hs hlists hnew ha.once
  constructor
  · exact ha.toRetains
  · intro n x hx
    refine ⟨_, getElem?_advance hx, ?_⟩
    cases hout : x.outstanding with
    | true => exact ha.steps (hj.listed hx hout)
    | false =>
      have hstage : g x.object x.stage = x.stage := hs.final hout
      rw [Registration.turn, hstage]
      apply Registration.Step.stay
      · intro hready
        rw [Registration.outstanding, hready] at hout
        cases hout
      · intro hpending
        rw [Registration.outstanding, hpending] at hout
        cases hout
  · intro n y hn hy
    rcases getElem?_advance_cases hy with ⟨x, hx, _⟩ | ⟨_, hy⟩
    · cases hn.symm.trans hx
    · exact ha.made y hy
  · intro y hy hstage
    have hout : y.outstanding = true := by rw [Registration.outstanding, hstage]; rfl
    exact (hagrees.lists hout).2 (ha.accepted hy hstage)
  · refine ⟨_, rfl, ?_⟩
    rw [List.map_map]
    apply List.map_congr_left
    rintro ⟨i, e⟩ he
    apply List.getElem?_idxOf
    exact (hj.lists rfl).2 (Heap.lists_of_delivers he)
  · exact hagrees

/-- A run from one heap to another, with its journal. -/
inductive Chronicle : Heap → Journal → List Operation → Heap → Journal → Prop where
  | nil {h : Heap} {j : Journal} : Chronicle h j [] h j
  | cons {op : Operation} {f : Nat → Nat} {ops : List Operation} {h h₁ h' : Heap}
      {j j₁ j' : Journal} (hrun : op.apply h = .ok h₁) (hnext : Next op f h h₁ j j₁)
      (hrest : Chronicle h₁ j₁ ops h' j') : Chronicle h j (op :: ops) h' j'

theorem exists_chronicle (hr : h.Reachable) (hj : j.Agrees h.memory) (hrun : h.run ops = .ok h') :
    ∃ j', Chronicle h j ops h' j' ∧ j'.Agrees h'.memory := by
  induction ops generalizing h j with
  | nil =>
    cases hrun
    exact ⟨j, .nil, hj⟩
  | cons op ops ih =>
    rw [Heap.run, List.foldlM_cons, Checked.bind_eq_ok] at hrun
    obtain ⟨h₁, hstep, hrun⟩ := hrun
    obtain ⟨_, f, g, new, ha⟩ := Heap.advances_apply hr.sound hr.registered hstep
    have hnext := hj.next ha
    obtain ⟨j', hrest, hj'⟩ := ih (.step op hr hstep) hnext.agrees hrun
    exact ⟨j', .cons hstep hnext hrest, hj'⟩

/-! ## At most once -/

/-- The numbers handed out are those of the delivered registrations, each once. -/
structure Settled (j : Journal) : Prop where
  once : j.delivered.Nodup
  stage : ∀ {n : Nat}, n ∈ j.delivered ↔ ∃ x, j.entries[n]? = some x ∧ x.stage = .delivered

theorem settled_empty : Settled {} := by
  constructor
  · exact List.nodup_nil
  · intro n
    constructor
    · intro hn
      cases hn
    · rintro ⟨x, hx, _⟩
      cases hx

theorem Next.nodup_numbers {numbers : List Nat} (hr : h.memory.Registered)
    (hnumbers : numbers.map (j.entries[·]?) =
      (op.delivers h).map fun (i, e) => some ⟨i, e.object, .ready⟩) : numbers.Nodup := by
  apply List.Nodup.of_map (j.entries[·]?)
  apply List.Nodup.of_map (Option.map Registration.object)
  rw [hnumbers, List.map_map]
  have hobjects : ((op.delivers h).map (·.2.object)).Nodup := by
    cases op with
    | takeReady => exact Heap.nodup_takeReady hr
    | _ => exact List.nodup_nil
  have hsome := hobjects.map fun _ _ => Option.some.inj
  rw [List.map_map] at hsome
  exact hsome

/-- What is handed out is what was ready, when all of that is taken. -/
theorem Next.mem_numbers {numbers : List Nat} (hj : j.Agrees h.memory)
    (hnumbers : numbers.map (j.entries[·]?) =
      (op.delivers h).map fun (i, e) => some ⟨i, e.object, .ready⟩) :
    n ∈ numbers ↔ op = .takeReady ∧ ∃ x, j.entries[n]? = some x ∧ x.stage = .ready := by
  constructor
  · intro hn
    have hmem : j.entries[n]? ∈ numbers.map (j.entries[·]?) := List.mem_map_of_mem hn
    rw [hnumbers, List.mem_map] at hmem
    obtain ⟨⟨i, e⟩, he, hx⟩ := hmem
    refine ⟨?_, _, hx.symm, rfl⟩
    cases op with
    | takeReady => rfl
    | _ => cases he
  · rintro ⟨rfl, ⟨i, a, s⟩, hx, rfl⟩
    obtain ⟨e, he, rfl⟩ := Heap.lists_ready.1 (hj.listed hx rfl)
    have hmem : some ⟨i, e.object, .ready⟩ ∈ numbers.map (j.entries[·]?) := by
      rw [hnumbers]
      exact List.mem_map_of_mem he
    obtain ⟨k, hk, hkx⟩ := List.mem_map.1 hmem
    cases hj.once hkx hx rfl
    exact hk

theorem Next.settled (hr : h.memory.Registered) (hj : j.Agrees h.memory)
    (hn : Next op f h h' j j') (hs : j.Settled) : j'.Settled := by
  obtain ⟨numbers, hdelivered, hnumbers⟩ := hn.delivers
  have hmem {n : Nat} := Next.mem_numbers (n := n) hj hnumbers
  constructor
  · rw [hdelivered, List.nodup_append]
    refine ⟨hs.once, Next.nodup_numbers hr hnumbers, ?_⟩
    rintro n hn _ hk rfl
    obtain ⟨x, hx, hstage⟩ := hs.stage.1 hn
    obtain ⟨_, y, hy, hstage'⟩ := hmem.1 hk
    cases hx.symm.trans hy
    cases hstage.symm.trans hstage'
  · intro n
    rw [hdelivered, List.mem_append, hs.stage, hmem]
    constructor
    · rintro (⟨x, hx, hstage⟩ | ⟨hop, x, hx, hstage⟩)
      · obtain ⟨y, hy, hstep⟩ := hn.steps hx
        exact ⟨y, hy, hstep.delivered_iff.2 (.inl hstage)⟩
      · obtain ⟨y, hy, hstep⟩ := hn.steps hx
        exact ⟨y, hy, hstep.delivered_iff.2 (.inr ⟨hop, hstage⟩)⟩
    · rintro ⟨y, hy, hstage⟩
      cases hx : j.entries[n]? with
      | none => cases (hn.made hx hy).1.symm.trans hstage
      | some x =>
        obtain ⟨_, hy', hstep⟩ := hn.steps hx
        cases hy.symm.trans hy'
        rcases hstep.delivered_iff.1 hstage with hold | ⟨hop, hready⟩
        · exact .inl ⟨x, rfl, hold⟩
        · exact .inr ⟨hop, x, rfl, hready⟩

theorem Chronicle.settled (hc : Chronicle h j ops h' j') (hr : h.Reachable)
    (hj : j.Agrees h.memory) (hs : j.Settled) : j'.Settled := by
  induction hc with
  | nil => exact hs
  | cons hrun hnext _ ih =>
    apply ih (.step _ hr hrun) hnext.agrees
    exact hnext.settled hr.registered hj hs

/-! ## Only after a collection -/

/-- An operation collects while registration `n` waits and the roots do not reach its object. -/
def Finds (j : Journal) (op : Operation) (h : Heap) (n : Nat) : Prop :=
  (∃ h', op.apply h = .ok h' ∧ h.collections < h'.collections) ∧
    ∃ x, j.entries[n]? = some x ∧ x.stage = .pending ∧ ¬ h.InUse x.object

/-- What does not wait any more, and was not suppressed, was found by a collection of the run, if it
was not so to begin with. -/
theorem Chronicle.found (hc : Chronicle h j ops h' j') (hy : j'.entries[n]? = some y)
    (hstage : y.stage = .ready ∨ y.stage = .delivered) :
    (∃ x, j.entries[n]? = some x ∧ (x.stage = .ready ∨ x.stage = .delivered)) ∨
    ∃ before op rest h₁ j₁, ops = before ++ op :: rest ∧ Chronicle h j before h₁ j₁ ∧
      Chronicle h₁ j₁ (op :: rest) h' j' ∧ j₁.Finds op h₁ n := by
  -- the rest of the run has found it, or it was found by then
  induction hc with
  | nil => exact .inl ⟨y, hy, hstage⟩
  | @cons op _ ops h h₁ h' j j₁ j' hrun hnext hrest ih =>
    rcases ih hy with ⟨z, hz, hstage⟩ | ⟨before, op', rest, h₂, j₂, rfl, hbefore, hafter, hfinds⟩
    · cases hx : j.entries[n]? with
      | none =>
        have hpending := (hnext.made hx hz).1
        rw [hpending] at hstage
        exact absurd hstage (by decide)
      | some x =>
        obtain ⟨_, hz', hstep⟩ := hnext.steps hx
        cases hz.symm.trans hz'
        cases hstep with
        | stay => exact .inl ⟨x, rfl, hstage⟩
        | revive hpending hcollected hdead =>
          exact .inr ⟨[], op, ops, h, j, rfl, .nil, .cons hrun hnext hrest,
            ⟨h₁, hrun, hcollected⟩, x, hx, hpending, hdead⟩
        | deliver hready => exact .inl ⟨x, rfl, .inl hready⟩
        | suppress => rcases hstage with hs | hs <;> cases hs
    · exact .inr ⟨op :: before, op', rest, h₂, j₂, rfl, .cons hrun hnext hbefore, hafter, hfinds⟩

end Journal

namespace Heap

/-! ## Running finalizers -/

section Finalizers

-- a state with a heap inside
variable {σ : Type} {heap : σ → Heap} {setHeap : Heap → σ → σ}
  {run : FinalizableEntry → StateT σ Checked FinalizerOutcome} {s s' : σ} {report : FinalizerReport}

/-- Where each finalizer is a run of the heap, so is a batch of them. -/
theorem exists_run_of_runBatch {batch : List (Nat × FinalizableEntry)}
    (hclient : ∀ x ∈ batch, ∀ {s o s'}, run x.2 s = .ok (o, s') →
      ∃ ops, (heap s).run ops = .ok (heap s'))
    (hrun : runBatch run batch s = .ok (report, s')) :
    ∃ ops, (heap s).run ops = .ok (heap s') := by
  unfold runBatch at hrun
  generalize ({} : FinalizerReport) = start at hrun
  induction batch generalizing s start with
  | nil =>
    cases hrun
    exact ⟨[], rfl⟩
  | cons x batch ih =>
    rw [List.foldlM_cons, Checked.stateT_bind_eq_ok] at hrun
    obtain ⟨r, s₁, hone, hrun⟩ := hrun
    rw [Checked.stateT_bind_eq_ok] at hone
    obtain ⟨o, s₂, hone, hadd⟩ := hone
    cases hadd
    obtain ⟨ops, hops⟩ := hclient x List.mem_cons_self hone
    obtain ⟨ops', hops'⟩ := ih (fun y hy => hclient y (List.mem_cons_of_mem _ hy)) _ hrun
    exact ⟨ops ++ ops', run_append hops hops'⟩

/-- Running the finalizers is a run of the heap, of which their own runs are a part. -/
theorem run_of_runFinalizers (hset : ∀ h s, heap (setHeap h s) = h)
    (hclient : ∀ {e s o s'}, run e s = .ok (o, s') → ∃ ops, (heap s).run ops = .ok (heap s'))
    (hrun : runFinalizers heap setHeap run s = .ok (report, s')) : ∃ ops, (heap s).run
      (.takeReady :: (ops ++ [.finishReady (heap s).takeReady.1 report])) = .ok (heap s') := by
  simp only [runFinalizers, Checked.stateT_bind_eq_ok] at hrun
  obtain ⟨_, _, hget, _, _, htake, r, s₁, hbatch, _, _, hfinish, hlast⟩ := hrun
  cases hget
  cases htake
  cases hfinish
  cases hlast
  obtain ⟨ops, hops⟩ := exists_run_of_runBatch (fun _ _ => hclient) hbatch
  rw [hset] at hops ⊢
  exact ⟨ops, run_append hops rfl⟩

end Finalizers

/-! ## In every state -/

open Journal (Chronicle)

variable {config : Config} {range : AddressRange} {ops : List Operation} {h₀ h : Heap}

/-- No registration for finalization is lost or doubled. In every state, also while finalizers run,
the entries of a heap name its objects, those that wait by generation, and no object twice. An
object is there until its registration is delivered or suppressed. Each is delivered once at most,
and only after a collection has found that nothing else keeps the object. -/
theorem registrations_accounted (hpos : 0 < range.start)
    (hstart : onRange config range = .ok (.ok h₀)) (hrun : h₀.run ops = .ok h) :
    (∀ i l, h.heaps[i]? = some l → ∀ a ∈ l.finalization.waiting ++ l.finalization.roots,
      ∃ r, h.space.get? a = some r ∧ r.heap = i) ∧
    (∀ l ∈ h.heaps, ∀ g, ∀ e ∈ l.finalization.pending.get g, e.generation = g ∧
      ∃ r, h.space.get? e.object = some r ∧ r.generation = g) ∧
    (h.heaps.flatMap (·.finalization.waiting)).Nodup ∧
    (h.heaps.flatMap (·.finalization.roots)).Nodup ∧
    ∃ j, Chronicle h₀ {} ops h j ∧ j.Agrees h.memory ∧ j.Settled ∧
      (∀ x ∈ j.entries, x.outstanding = true →
        ∃ r, h.space.get? x.object = some r ∧ r.heap = x.heap) ∧
      ∀ n ∈ j.delivered, ∃ before op rest h₁ j₁, ops = before ++ op :: rest ∧
        Chronicle h₀ {} before h₁ j₁ ∧ Chronicle h₁ j₁ (op :: rest) h j ∧ j₁.Finds op h₁ n := by
  have hr₀ : h₀.Reachable := .start hpos hstart
  have hr : h.Reachable := hr₀.run hrun
  have hnone (x : Registration) : ¬ h₀.memory.Lists x := by
    intro hx
    obtain ⟨r, hget, _⟩ := hr₀.registered.owner hx
    obtain ⟨_, _, _, hm⟩ := memory_onRange hstart
    rw [hm] at hget
    cases hget
  have hj₀ := Journal.agrees_empty hnone
  obtain ⟨j, hc, hj⟩ := Journal.exists_chronicle hr₀ hj₀ hrun
  have hs := hc.settled hr₀ hj₀ Journal.settled_empty
  refine ⟨?_, ?_, nodup_waiting hr.registered, nodup_roots hr.registered, j, hc, hj, hs, ?_, ?_⟩
  · intro i l hl a ha
    exact hr.registered.owned (memory_queues.trans (congrArg _ hl)) ha
  · intro l hl g e he
    have hq : l.finalization ∈ h.memory.queues := List.mem_map_of_mem hl
    exact ⟨(hr.registered.tidy hq).labelled g e he, hr.sound.sorted _ hq g e he⟩
  · intro x hx hout
    exact hr.registered.owner ((hj.lists hout).1 hx)
  · intro n hn
    obtain ⟨y, hy, hstage⟩ := hs.stage.1 hn
    rcases hc.found hy (.inr hstage) with ⟨x, hx, _⟩ | hfound
    · cases hx
    · exact hfound

/-- One finalizer registers its object again while it runs, which is then finalized once more. -/
def finalizedTwice : List Operation :=
  [.allocate 0 { size := 48, finalizable := true }, .allocate 1 { size := 48, finalizable := true },
    .createHandle .strong 8192, .collect .gen0 .induced, .takeReady, .registerForFinalization 4096,
    .collect .gen1 .inducedCompacting, .finishReady [(0, ⟨4096, .gen1⟩)] { ran := 1 },
    .collect .gen2 .induced, .takeReady]

theorem registrations_accounted_twice : ∃ h₀ h : Heap, 0 < pageConfig.addressRange.start ∧
    onRange { pageConfig with heapCount := 2 } pageConfig.addressRange = .ok (.ok h₀) ∧
    h₀.run finalizedTwice = .ok h ∧ h.heaps.map (·.finalization.waiting) = [[], [8192]] ∧
    h.heaps.map (·.finalization.roots) = [[4096], []] ∧
    ∃ j, Chronicle h₀ {} finalizedTwice h j ∧ j.delivered.Nodup := by
  have htwo : leadsTo { pageConfig with heapCount := 2 } finalizedTwice
      (fun h => h.heaps.map (·.finalization.waiting) == [[], [8192]] &&
        h.heaps.map (·.finalization.roots) == [[4096], []]) = true := by
    decide +kernel
  obtain ⟨h₀, h, hstart, hrun, hp⟩ := run_of_leadsTo htwo
  simp only [Bool.and_eq_true, beq_iff_eq] at hp
  have hpos : 0 < pageConfig.addressRange.start := by decide
  obtain ⟨_, _, _, _, j, hc, _, hs, _⟩ := registrations_accounted hpos hstart hrun
  exact ⟨h₀, h, hpos, hstart, hrun, hp.1, hp.2, j, hc, hs.once⟩

end Heap

end GenHeap
