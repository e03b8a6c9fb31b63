import GenHeap.Proofs.Heap.Spending

/-!
The log of a heap's budgets. Every state that a heap can be in has a log of what was installed and
collected on the way there, and its budgets are spent as the log says, to the byte. An allocation that
fails enters nothing but the collections that it runs, and giving a cycle up enters nothing.
-/

namespace GenHeap

/-- Whether an operation enters nothing on the budgets. -/
def Operation.isQuiet : Operation → Bool
  | allocate .. | collect .. | completeBackground => false
  | _ => true

namespace Heap

/-- What was entered on the budgets of a heap since it was empty. An allocation is taken apart: it runs
collections, and then installs an object or records a failure. -/
inductive Logged : Heap → List BudgetEntry → Prop where
  | start {config : Config} {range : AddressRange} {h : Heap} (hpos : 0 < range.start)
    (hrun : onRange config range = .ok (.ok h)) : Logged h []
  | collected {h h' : Heap} {log : List BudgetEntry} {generation : Generation}
    {reason : CollectionReason} {summary : CollectionSummary} {promoted : List (Nat × Record)}
    (hl : Logged h log) (hrun : collect generation reason h = .ok (.ok summary, h'))
    (hp : h.Promotes (h.condemnedOf generation) (h.memory.Survives (h.condemnedOf generation))
      promoted) : Logged h' (.collected (h.condemnedOf generation) promoted :: log)
  | completed {h h' : Heap} {log : List BudgetEntry} {summary : CollectionSummary}
    {promoted : List (Nat × Record)} (hl : Logged h log)
    (hrun : completeBackground h = .ok (.ok (some summary), h'))
    (hp : h.Promotes .gen2 (h'.space.contains · = true) promoted) :
    Logged h' (.collected .gen2 promoted :: log)
  | installed {h h' : Heap} {log : List BudgetEntry} {i a x size : Nat} {target : Generation}
    {request : AllocRequest} (hl : Logged h log) (hsize : request.effectiveSize? = some size)
    (hfresh : h.memory.Fresh i x a size)
    (hrun : install i request target size a x h = .ok h') :
    Logged h' (.installed (a, newRecord i request target size x) :: log)
  | failed {α : Type} {h h' : Heap} {log : List BudgetEntry} {i size : Nat} {target : Generation}
    {reason : OutOfMemory.Reason} {answer : Except HeapError α} (hl : Logged h log)
    (hrun : fail i reason size target h = .ok (answer, h')) : Logged h' log
  | quiet {h h' : Heap} {log : List BudgetEntry} (op : Operation) (hl : Logged h log)
    (hop : op.isQuiet = true) (hrun : op.apply h = .ok h') : Logged h' log

variable {h h' : Heap} {log : List BudgetEntry} {i size : Nat} {target : Generation}
  {op : Operation} {spent : Nat → Generation → Nat}

theorem Logged.sound (hl : h.Logged log) : h.memory.Sound := by
  induction hl with
  | start hpos hrun => exact sound_onRange hpos hrun
  | collected _ hrun _ ih => exact (leads_collect ih hrun).2.2.sound
  | completed _ hrun _ ih => exact (leads_completeBackground ih hrun).2.2.2.sound
  | installed _ hsize hfresh hrun ih =>
    exact (leads_install ih hfresh (AllocRequest.le_of_effectiveSize? hsize) hrun).sound
  | failed _ hrun ih => exact (stays_of_eq ih (memory_fail hrun).2).sound
  | quiet op _ _ hrun ih => exact (apply_eq_ok ih hrun).1

theorem spends_onRange {config : Config} {range : AddressRange}
    (hrun : onRange config range = .ok (.ok h)) : Spends h.budgets fun _ _ => 0 := by
  obtain ⟨cards, heaps, _, _, hnew, rfl⟩ := onRange_eq_ok hrun
  refine spends_rests (fun j t ht g => ?_) rests_publish
  obtain ⟨l, hl, rfl⟩ := List.mem_map.1 (List.mem_of_getElem? ht)
  rw [(logicalHeap_ofConfig (hnew l hl)).1, BudgetTable.ofConfig, PerGeneration.get_map]

theorem spends_quiet (hs : Spends h.budgets spent) (hop : op.isQuiet = true)
    (hrun : op.apply h = .ok h') : Spends h'.budgets spent := by
  cases op with
  | findBlock heap target size =>
    obtain ⟨r, hrun⟩ := after_eq_ok.1 hrun
    exact spends_rests hs (refits_tryPlace hrun).rests
  | startBackground =>
    obtain ⟨r, hrun⟩ := after_eq_ok.1 hrun
    exact spends_rests hs (steady_startBackground hrun)
  | allocate | collect | completeBackground => cases hop
  | _ =>
    obtain ⟨clock, provider, hrests⟩ := rests_apply hrun rfl nofun
    have hspends : Spends ({ h' with clock, provider } : Heap).budgets spent := spends_rests hs hrests
    exact hspends

/-- The budgets are spent as the log says. -/
theorem Logged.spends (hl : h.Logged log) : Spends h.budgets fun i g => consumed i g log := by
  induction hl with
  | start _ hrun => exact spends_onRange hrun
  | collected hl hrun hp ih => exact spends_collect hl.sound ih hp hrun
  | completed hl hrun hp ih => exact spends_completeBackground hl.sound ih hp hrun
  | installed _ _ _ hrun ih => exact spends_install ih hrun
  | failed _ hrun ih => exact spends_fail ih hrun
  | quiet op _ hop hrun ih => exact spends_quiet ih hop hrun

/-! ## The entries of an operation -/

theorem Logged.collect (hl : h.Logged log) {generation : Generation} {reason : CollectionReason}
    {answer : Except HeapError CollectionSummary}
    (hrun : Heap.collect generation reason h = .ok (answer, h')) : ∃ promoted,
      h'.Logged (.collected (h.condemnedOf generation) promoted :: log) := by
  obtain ⟨⟨summary, rfl⟩, _⟩ := leads_collect hl.sound hrun
  obtain ⟨promoted, hp⟩ := exists_promotes h (h.condemnedOf generation)
    (h.memory.Survives (h.condemnedOf generation))
  exact ⟨promoted, hl.collected hrun hp⟩

theorem Logged.completeBackground (hl : h.Logged log)
    {answer : Except HeapError (Option CollectionSummary)}
    (hrun : Heap.completeBackground h = .ok (answer, h')) :
    h' = h ∨ ∃ promoted, h'.Logged (.collected .gen2 promoted :: log) := by
  cases hb : h.background with
  | none => exact .inl (completeBackground_of_none hb hrun).2
  | some b =>
    obtain ⟨summary, _, rfl, _⟩ := completeBackground_eq_ok hl.sound hb hrun
    obtain ⟨promoted, hp⟩ := exists_promotes h .gen2 (h'.space.contains · = true)
    exact .inr ⟨promoted, hl.completed hrun hp⟩

/-- The log goes on with some collections and nothing else. -/
def CollectsTo (log : List BudgetEntry) (h' : Heap) : Prop :=
  ∃ collections : List BudgetEntry, (∀ e ∈ collections, e.isCollection = true) ∧
    h'.Logged (collections ++ log)

theorem Logged.collectsTo (hl : h.Logged log) : CollectsTo log h :=
  ⟨[], fun _ he => absurd he List.not_mem_nil, hl⟩

theorem CollectsTo.trans {h'' : Heap} (hl : CollectsTo log h')
    (hnext : ∀ log', h'.Logged log' → CollectsTo log' h'') : CollectsTo log h'' := by
  obtain ⟨collections, hcollections, hl⟩ := hl
  obtain ⟨later, hlater, hl'⟩ := hnext _ hl
  rw [← List.append_assoc] at hl'
  refine ⟨later ++ collections, fun e he => ?_, hl'⟩
  rcases List.mem_append.1 he with he | he
  · exact hlater e he
  · exact hcollections e he

theorem CollectsTo.of_cons {e : BudgetEntry} (he : e.isCollection = true)
    (hl : h'.Logged (e :: log)) : CollectsTo log h' :=
  ⟨[e], fun e' he' => by rwa [List.mem_singleton.1 he'], hl⟩

theorem collectsTo_part (hl : h.Logged log) (hop : op.prepares = true)
    (hrun : op.apply h = .ok h') : CollectsTo log h' := by
  cases op with
  | findBlock | startBackground => exact (hl.quiet _ rfl hrun).collectsTo
  | collect generation reason =>
    obtain ⟨r, hrun⟩ := after_eq_ok.1 hrun
    obtain ⟨promoted, hl'⟩ := hl.collect hrun
    exact .of_cons rfl hl'
  | completeBackground =>
    obtain ⟨r, hrun⟩ := after_eq_ok.1 hrun
    rcases hl.completeBackground hrun with rfl | ⟨promoted, hl'⟩
    · exact hl.collectsTo
    · exact .of_cons rfl hl'
  | _ => cases hop

/-- An allocation runs collections, and installs an object unless it fails. -/
theorem Logged.allocate (hl : h.Logged log) {request : AllocRequest}
    {answer : Except HeapError Nat} (hrun : Heap.allocate i request h = .ok (answer, h')) :
    (∃ e, answer = .error e) ∧ CollectsTo log h' ∨
      ∃ a r collections, answer = .ok a ∧ h'.space.get? a = some r ∧ r.heap = i ∧
        r.generation = targetOf h.config request.generation r.size ∧
        (∀ e ∈ collections, BudgetEntry.isCollection e = true) ∧
        h'.Logged (.installed (a, r) :: (collections ++ log)) := by
  have hpart {op : Operation} {k k' : Heap} (hop : op.prepares = true) (_ : h.Prepares k)
      (hk : CollectsTo log k) (hstep : op.apply k = .ok k') : CollectsTo log k' :=
    hk.trans fun _ hl => collectsTo_part hl hop hstep
  rcases allocate_induct (CollectsTo log) hl.sound hl.collectsTo hpart
      (fun hk hfail => hk.trans fun _ hl => (hl.failed hfail).collectsTo) hrun with
    hfailed | ⟨k, size, a, x, rfl, hp, ⟨collections, hcollections, hk⟩, hsize, hfresh, hinstall⟩
  · exact .inl hfailed
  · have hpos : 0 < size :=
      Nat.lt_of_lt_of_le (by decide) (AllocRequest.le_of_effectiveSize? hsize).1
    obtain ⟨space, hadds, hmemory⟩ := adds_install (sound_prepares hl.sound hp).laid hfresh hpos hinstall
    have hspace : h'.space = space := congrArg Memory.space hmemory
    exact .inr ⟨a, _, collections, rfl, hspace ▸ hadds.self, rfl, rfl, hcollections,
      hk.installed hsize hfresh hinstall⟩

/-- Every operation goes on with the log. -/
theorem Logged.apply (hl : h.Logged log) (hrun : op.apply h = .ok h') :
    ∃ new, h'.Logged (new ++ log) := by
  have hcollects (hc : CollectsTo log h') : ∃ new, h'.Logged (new ++ log) := by
    obtain ⟨collections, _, hl⟩ := hc
    exact ⟨collections, hl⟩
  cases op with
  | allocate heap request =>
    obtain ⟨answer, hrun⟩ := after_eq_ok.1 hrun
    rcases hl.allocate hrun with ⟨_, hc⟩ | ⟨a, r, collections, _, _, _, _, _, hl'⟩
    · exact hcollects hc
    · exact ⟨.installed (a, r) :: collections, hl'⟩
  | collect | completeBackground => exact hcollects (collectsTo_part hl rfl hrun)
  | _ => exact ⟨[], hl.quiet _ rfl hrun⟩

theorem Reachable.exists_logged (hr : h.Reachable) : ∃ log, h.Logged log := by
  induction hr with
  | start hpos hrun => exact ⟨[], .start hpos hrun⟩
  | step op _ hrun ih =>
    obtain ⟨log, hl⟩ := ih
    obtain ⟨new, hl'⟩ := hl.apply hrun
    exact ⟨new ++ log, hl'⟩

theorem Logged.allocated_eq (hl : h.Logged log) {l : LogicalHeap} (hi : h.heaps[i]? = some l)
    (g : Generation) : (l.budgets.get g).allocated = consumed i g log := by
  have ht : h.budgets[i]? = some l.budgets := by
    unfold Heap.budgets
    rw [List.getElem?_map, hi, Option.map_some]
  exact hl.spends i l.budgets ht g

/-- A collection takes nothing off the budgets of the generations that it does not condemn. -/
theorem Logged.allocated_le {generation condemned : Generation} {promoted : List (Nat × Record)}
    (hl : h.Logged log) (hl' : h'.Logged (.collected condemned promoted :: log))
    {l l' : LogicalHeap} (hi : h.heaps[i]? = some l) (hi' : h'.heaps[i]? = some l')
    (hg : generation.condemnedBy condemned = false) :
    (l.budgets.get generation).allocated ≤ (l'.budgets.get generation).allocated := by
  rw [hl.allocated_eq hi, hl'.allocated_eq hi']
  simp only [consumed, BudgetEntry.resets, hg, Bool.false_eq_true, if_false]
  exact Nat.le_add_left ..

/-- Budgets are consumed to the byte: in every logical heap, a generation counts what was installed in it
and promoted to it, from the last collection that condemned it on, and including what that one
promoted. A failed allocation adds nothing to this but by the collections that it runs, a cycle
that is given up adds nothing, and a collection never lowers the count of a generation that it does
not condemn. -/
theorem budget_consumption_exact (hr : h.Reachable) : (∃ log, h.Logged log) ∧
    ∀ log, h.Logged log →
      (∀ i l, h.heaps[i]? = some l → ∀ g, (l.budgets.get g).allocated = consumed i g log) ∧
      (∀ i request e h', allocate i request h = .ok (.error e, h') → CollectsTo log h') ∧
      (∀ i request a h', allocate i request h = .ok (.ok a, h') → ∃ r collections,
        h'.space.get? a = some r ∧ r.heap = i ∧
        r.generation = targetOf h.config request.generation r.size ∧
        (∀ e ∈ collections, BudgetEntry.isCollection e = true) ∧
        h'.Logged (.installed (a, r) :: (collections ++ log))) ∧
      (∀ answer h', abortBackground h = .ok (answer, h') → h'.Logged log) ∧
      (∀ answer h', completeBackground h = .ok (answer, h') →
        h' = h ∨ ∃ promoted, h'.Logged (.collected .gen2 promoted :: log)) ∧
      ∀ generation reason answer h', collect generation reason h = .ok (answer, h') →
        (∃ promoted, h'.Logged (.collected (h.condemnedOf generation) promoted :: log)) ∧
        ∀ (i : Nat) l l', h.heaps[i]? = some l → h'.heaps[i]? = some l' → ∀ g : Generation,
          g.condemnedBy (h.condemnedOf generation) = false →
          (l.budgets.get g).allocated ≤ (l'.budgets.get g).allocated := by
  refine ⟨hr.exists_logged, fun log hl => ⟨fun i l hi => hl.allocated_eq hi, ?_, ?_, ?_, ?_, ?_⟩⟩
  · intro i request e h' hrun
    rcases hl.allocate hrun with ⟨_, hc⟩ | ⟨_, _, _, he, _⟩
    · exact hc
    · cases he
  · intro i request a h' hrun
    rcases hl.allocate hrun with ⟨⟨_, he⟩, _⟩ | ⟨_, r, collections, he, hinstalled⟩
    · cases he
    · cases he
      exact ⟨r, collections, hinstalled⟩
  · intro answer h' hrun
    exact hl.quiet .abortBackground rfl (after_eq_ok.2 ⟨answer, hrun⟩)
  · intro answer h' hrun
    exact hl.completeBackground hrun
  · intro generation reason answer h' hrun
    obtain ⟨promoted, hl'⟩ := hl.collect hrun
    exact ⟨⟨promoted, hl'⟩, fun i l l' hi hi' g hg => hl.allocated_le hl' hi hi' hg⟩

/-- A collection of the youngest generation promotes an object of each of two logical heaps, beside an
object that was installed before in the generation that they go to. -/
theorem budget_consumption_exact_promoted : ∃ h log, Reachable h ∧ h.Logged log ∧
    h.heaps.map (fun l => (l.budgets.map (·.allocated)).toList) =
      [[112, 144, 0, 0, 0], [0, 48, 0, 0, 0]] ∧
    consumed 0 .gen0 log = 112 ∧ consumed 0 .gen1 log = 144 ∧ consumed 1 .gen1 log = 48 := by
  have hpage : leadsTo { pageConfig with heapCount := 2 }
      [.allocate 0 { size := 48 }, .allocate 1 { size := 48 },
        .allocate 0 { size := 96, generation := .gen1 }, .createHandle .strong 4096,
        .createHandle .strong 8192, .collect .gen0 .induced, .allocate 0 { size := 112 }]
      (fun h => h.heaps.map (fun l => (l.budgets.map (·.allocated)).toList) ==
        [[112, 144, 0, 0, 0], [0, 48, 0, 0, 0]]) = true := by
    decide +kernel
  obtain ⟨h, hr, hp⟩ := exists_of_leadsTo hpage
  have hcounts := eq_of_beq hp
  obtain ⟨⟨log, hl⟩, hexact⟩ := budget_consumption_exact hr
  obtain ⟨hexact, _⟩ := hexact log hl
  obtain ⟨l₀, rest, hheaps, h₀, hrest⟩ := List.map_eq_cons_iff.1 hcounts
  obtain ⟨l₁, _, rfl, h₁, _⟩ := List.map_eq_cons_iff.1 hrest
  have hi₀ : h.heaps[0]? = some l₀ := by rw [hheaps]; rfl
  have hi₁ : h.heaps[1]? = some l₁ := by rw [hheaps]; rfl
  simp only [PerGeneration.toList, PerGeneration.map, List.cons.injEq] at h₀ h₁
  refine ⟨h, log, hr, hl, hcounts, ?_, ?_, ?_⟩
  · exact (hexact 0 l₀ hi₀ .gen0).symm.trans h₀.1
  · exact (hexact 0 l₀ hi₀ .gen1).symm.trans h₀.2.1
  · exact (hexact 1 l₁ hi₁ .gen1).symm.trans h₁.2.1

end Heap

end GenHeap
