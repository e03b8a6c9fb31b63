import GenHeap.Proofs.Heap.Ledger
import GenHeap.Proofs.Heap.Mirror

/-!
The balance of a ledger: the counts of the logical heaps agree with those of all of them together,
but for the collections that have begun and not ended, and for the objects that these have moved. A
collection keeps the balance when it ends, and is out of it for good when it breaks off.
-/

namespace GenHeap

theorem getD_modify_succ {xs : List Nat} {k : Nat} (hk : k < xs.length) (j : Nat) :
    (xs.modify k (· + 1)).getD j 0 = xs.getD j 0 + if k = j then 1 else 0 := by
  rw [List.getD_eq_getElem?_getD, List.getD_eq_getElem?_getD, List.getElem?_modify]
  by_cases hj : k = j
  · subst hj
    simp only [if_true, List.getElem?_eq_getElem hk, Option.map_eq_map, Option.map_some,
      Option.getD_some]
  · simp only [hj, if_false, Option.map_eq_map, Option.map_id', Nat.add_zero]

theorem Mechanism.index_inj {m m' : Mechanism} : m.index = m'.index ↔ m = m' := by
  cases m <;> cases m' <;> decide

theorem Mechanism.index_lt (m : Mechanism) : m.index < 5 := by cases m <;> decide

theorem CompactionReason.index_lt (r : CompactionReason) : r.index < 5 := by cases r <;> decide

/-! ## One logical heap -/

namespace LogicalHeap.Ledger

variable {e : Ledger} {completions aborts : Nat}

def mechanism (e : Ledger) (m : Mechanism) : Nat := e.mechanisms.getD m.index 0

def count (m : Mechanism) (e : Ledger) : Ledger :=
  { e with mechanisms := e.mechanisms.modify m.index (· + 1) }

/-- The compactions are as many as all reasons for them, and the cycles as many as the heap counts. -/
structure Agrees (e : Ledger) (completions aborts : Nat) : Prop where
  points : e.points = 6
  reasons : e.compactions.length = 5
  kinds : e.mechanisms.length = 5
  compacted : e.mechanism .compacted = e.compactions.sum
  completed : e.mechanism .background = completions
  aborted : e.mechanism .backgroundAborted = aborts

theorem mechanism_count (hkinds : e.mechanisms.length = 5) (m m' : Mechanism) :
    (e.count m).mechanism m' = e.mechanism m' + if m = m' then 1 else 0 := by
  have hlt : m.index < e.mechanisms.length := by
    rw [hkinds]
    exact m.index_lt
  simp only [mechanism, count, getD_modify_succ hlt, Mechanism.index_inj]

/-- Another kind than a compaction is counted. -/
theorem Agrees.count (he : e.Agrees completions aborts) {m : Mechanism} (hm : m ≠ .compacted) :
    (e.count m).Agrees (completions + if m = .background then 1 else 0)
      (aborts + if m = .backgroundAborted then 1 else 0) where
  points := he.points
  reasons := he.reasons
  kinds := (List.length_modify ..).trans he.kinds
  compacted := by rw [mechanism_count he.kinds, if_neg hm, Nat.add_zero, he.compacted]; rfl
  completed := by rw [mechanism_count he.kinds, he.completed]
  aborted := by rw [mechanism_count he.kinds, he.aborted]

/-- A compaction is counted with its reason. -/
theorem Agrees.compact (he : e.Agrees completions aborts) (why : CompactionReason)
    (relocated : Nat) : Agrees
      { e.count .compacted with
        compactions := e.compactions.modify why.index (· + 1), relocated } completions aborts where
  points := he.points
  reasons := (List.length_modify ..).trans he.reasons
  kinds := (List.length_modify ..).trans he.kinds
  compacted := by
    have hlt : why.index < e.compactions.length := by
      rw [he.reasons]
      exact why.index_lt
    rw [sum_modify_succ hlt, ← he.compacted]
    exact mechanism_count he.kinds .compacted .compacted
  completed := (mechanism_count he.kinds .compacted .background).trans he.completed
  aborted := (mechanism_count he.kinds .compacted .backgroundAborted).trans he.aborted

end LogicalHeap.Ledger

namespace Heap

/-! ## All logical heaps -/

namespace Ledger

variable {r : Ledger} {n begun moved : Nat}

/-- A kind of collection is counted: by every logical heap, and for all of them. -/
def count (m : Mechanism) (r : Ledger) : Ledger :=
  { r with
    heaps := r.heaps.map (·.count m)
    completions := r.completions + if m = .background then 1 else 0
    aborts := r.aborts + if m = .backgroundAborted then 1 else 0 }

/-- The end of a collection is counted. -/
def finish (g : Generation) (relocated : Nat) (r : Ledger) : Ledger :=
  { r with ages := r.ages.modify g.tier (· + 1), relocated := r.relocated + relocated }

/-- A failure is counted: by one logical heap, and for all of them. -/
def fail (i : Nat) (r : Ledger) : Ledger :=
  { r with
    heaps := r.heaps.modify i fun e => { e with failures := e.failures + 1 }
    failures := r.failures + 1 }

/-- The counts of `n` logical heaps agree, but for `begun` collections that have not ended, which have
moved so many objects. -/
structure Balanced (r : Ledger) (n begun moved : Nat) : Prop where
  wanted : r.heapCount = n
  length : r.heaps.length = n
  tiers : r.ages.length = 3
  agree : ∀ e ∈ r.heaps, e.Agrees r.completions r.aborts
  collections : r.collections = r.ages.sum + begun
  relocated : (r.heaps.map (·.relocated)).sum = r.relocated + moved
  failures : (r.heaps.map (·.failures)).sum = r.failures

theorem Balanced.count (hb : r.Balanced n begun moved) {m : Mechanism} (hm : m ≠ .compacted) :
    (r.count m).Balanced n begun moved := by
  have hsame (g : LogicalHeap.Ledger → Nat) (hg : ∀ e, g (e.count m) = g e) :
      ((r.heaps.map (·.count m)).map g).sum = (r.heaps.map g).sum := by
    rw [List.map_map]
    exact congrArg List.sum (List.map_congr_left fun e _ => hg e)
  refine ⟨hb.wanted, (List.length_map ..).trans hb.length, hb.tiers, fun e he => ?_, hb.collections,
    (hsame _ fun _ => rfl).trans hb.relocated, (hsame _ fun _ => rfl).trans hb.failures⟩
  obtain ⟨f, hf, rfl⟩ := List.mem_map.1 he
  exact (hb.agree f hf).count hm

theorem Balanced.finish {k : Nat} (hb : r.Balanced n (begun + 1) (moved + k)) (g : Generation) :
    (r.finish g k).Balanced n begun moved := by
  have hlt : g.tier < r.ages.length := by
    rw [hb.tiers]
    cases g <;> decide
  have hcollections : r.collections = (r.ages.modify g.tier (· + 1)).sum + begun := by
    rw [sum_modify_succ hlt, hb.collections]
    omega
  have hrelocated : (r.heaps.map (·.relocated)).sum = r.relocated + k + moved := by
    rw [hb.relocated]
    omega
  exact ⟨hb.wanted, hb.length, (List.length_modify ..).trans hb.tiers, hb.agree, hcollections,
    hrelocated, hb.failures⟩

/-- A failure is counted by its logical heap, which there has to be. -/
theorem Balanced.fail {i : Nat} (hb : r.Balanced n begun moved) (hi : i < n) :
    (r.fail i).Balanced n begun moved := by
  have hlt : i < (r.heaps.map (·.failures)).length := by
    rwa [List.length_map, hb.length]
  have hfailures := map_modify (g := LogicalHeap.Ledger.failures)
    (f := fun e => { e with failures := e.failures + 1 }) (k := (· + 1)) r.heaps i fun _ => rfl
  have hrelocated := map_modify_of_same (i := i) (g := LogicalHeap.Ledger.relocated)
    (f := fun e => { e with failures := e.failures + 1 }) (fun _ => rfl) r.heaps
  refine ⟨hb.wanted, (List.length_modify ..).trans hb.length, hb.tiers, fun e he => ?_,
    hb.collections, (congrArg List.sum hrelocated).trans hb.relocated, ?_⟩
  · rcases mem_modify he with hold | ⟨f, hf, rfl⟩
    · exact hb.agree e hold
    · have hf := hb.agree f hf
      exact ⟨hf.points, hf.reasons, hf.kinds, hf.compacted, hf.completed, hf.aborted⟩
  · refine (congrArg List.sum hfailures).trans ?_
    rw [sum_modify_succ hlt, hb.failures]
    rfl

end Ledger

variable {h h' : Heap} {n begun moved i size : Nat} {condemned target : Generation}
  {live : Nat → Record → Bool} {consumed : Option (List Nat)} {summary summary' : CollectionSummary}
  {survivals : List Survival}

/-- What counts nothing keeps the balance. -/
theorem Uncounted.balanced (hu : h.Uncounted h') (hb : h.ledger.Balanced n begun moved) :
    h'.ledger.Balanced n begun moved := by
  have hsame : h'.ledger = h.ledger := hu
  exact hsame ▸ hb

/-! ## The end of a collection, and of a cycle -/

theorem heaps_countMechanism (h : Heap) (m : Mechanism) :
    (h.countMechanism m).heaps.map (·.ledger) = (h.heaps.map (·.ledger)).map (·.count m) := by
  unfold countMechanism modifyHeaps
  rw [List.map_map, List.map_map]
  rfl

theorem ledger_discardCycle {b : BackgroundMark} (hb : h.background = some b) :
    h.discardCycle.ledger = h.ledger.count .backgroundAborted := by
  have hsaved : (h.countMechanism .backgroundAborted).Uncounted
      ((h.countMechanism .backgroundAborted).modifyHeaps fun l =>
        { l with savedEphemeral := none }) := uncounted_modifyHeaps fun _ => rfl
  have hheaps := (congrArg Ledger.heaps hsaved).trans (heaps_countMechanism h .backgroundAborted)
  unfold discardCycle
  rw [hb]
  exact congrArg (fun heaps => ({ h.ledger.count .backgroundAborted with heaps } : Ledger)) hheaps

theorem balanced_discardCycle (hb : h.ledger.Balanced n begun moved) :
    h.discardCycle.ledger.Balanced n begun moved := by
  cases hcycle : h.background with
  | none =>
    unfold discardCycle
    rwa [hcycle]
  | some b =>
    rw [ledger_discardCycle hcycle]
    exact hb.count nofun

/-- A collection begins. -/
theorem Ledger.Balanced.begin {r : Ledger} (hb : r.Balanced n begun moved) :
    ({ r with collections := r.collections + 1 } : Ledger).Balanced n (begun + 1) moved :=
  ⟨hb.wanted, hb.length, hb.tiers, hb.agree, congrArg (· + 1) hb.collections, hb.relocated,
    hb.failures⟩

theorem balanced_beginCollection (hb : h.ledger.Balanced n begun moved) :
    h.beginCollection.ledger.Balanced n (begun + 1) moved := by
  have hcollections : h.discardCycle.collections = h.collections := by
    unfold discardCycle
    split <;> rfl
  have hbegun := (balanced_discardCycle hb).begin
  have hledger : h.beginCollection.ledger =
      { h.discardCycle.ledger with collections := h.discardCycle.collections + 1 } := by
    rw [hcollections]
    rfl
  rw [hledger]
  exact hbegun

theorem heaps_counted : (h.counted summary).heaps.map (·.ledger) =
    ((mechanismsOf summary).foldl (fun r m => r.count m) h.ledger).heaps := by
  have hall (ms : List Mechanism) (k : Heap) (r : Ledger) (hk : k.heaps.map (·.ledger) = r.heaps) :
      (ms.foldl countMechanism k).heaps.map (·.ledger) =
        (ms.foldl (fun r m => r.count m) r).heaps := by
    induction ms generalizing k r with
    | nil => exact hk
    | cons m ms ih => exact ih _ _ ((heaps_countMechanism k m).trans (congrArg _ hk))
  rw [counted_eq_foldl]
  exact hall _ h h.ledger rfl

/-- The statistics count the collection, and its cycle if it ended one, which all logical heaps have
counted then. -/
theorem ledger_recorded {statistics : Statistics}
    (hstatistics : h.statistics.recordCollection summary = .ok statistics) :
    ({ h.counted summary with
      statistics, last := some summary, pausePhase := .idle } : Heap).ledger =
      ((mechanismsOf summary).foldl (fun r m => r.count m) h.ledger).finish
        summary.condemned summary.objectsRelocated := by
  simp only [Statistics.recordCollection, Checked.bind_eq_ok, Checked.pure_eq_ok,
    Word.add_eq_ok_iff] at hstatistics
  obtain ⟨_, _, _, _, _, ⟨_, rfl⟩, rfl⟩ := hstatistics
  unfold ledger
  rw [heaps_counted]
  unfold mechanismsOf
  cases summary.reason <;> cases summary.background <;> rfl

/-- The end of a collection counts it, with what it moved. -/
theorem balanced_finishCollection
    (hb : h.ledger.Balanced n (begun + 1) (moved + summary.objectsRelocated))
    (hrun : h.finishCollection summary = .ok h') : h'.ledger.Balanced n begun moved := by
  have hother : .compacted ∉ mechanismsOf summary := by
    unfold mechanismsOf
    cases summary.reason <;> cases summary.background <;> decide
  obtain ⟨statistics, hstatistics, rfl⟩ := finishCollection_stages.1 hrun
  refine uncounted_publish.balanced ?_
  rw [ledger_recorded hstatistics]
  have hcounted : ((mechanismsOf summary).foldl (fun r m => r.count m) h.ledger).Balanced n
      (begun + 1) (moved + summary.objectsRelocated) := by
    refine List.foldlRecOn (motive := fun r : Ledger => r.Balanced n (begun + 1) _) _ _ hb
      fun r hr m hm => hr.count ?_
    rintro rfl
    exact hother hm
  exact hcounted.finish _

/-! ## Compaction -/

theorem ledger_add_relocated {l : LogicalHeap} {counters : Counters} {k : Nat}
    (hpoints : l.ledger.points = 6)
    (hrun : l.counters.add .objectsRelocated k = .ok counters) :
    ({ l with counters } : LogicalHeap).ledger =
      { l.ledger with relocated := l.ledger.relocated + k } := by
  have hlt : DataPoint.objectsRelocated.index < l.counters.dataPoints.length :=
    Nat.lt_of_lt_of_eq (by decide) hpoints.symm
  simp only [Counters.add, Checked.bind_eq_ok, Checked.pure_eq_ok, Word.add_eq_ok_iff] at hrun
  obtain ⟨_, ⟨_, rfl⟩, rfl⟩ := hrun
  simp only [LogicalHeap.ledger, Counters.dataPoint, List.length_set, List.getD_eq_getElem?_getD,
    List.getElem?_set_self hlt, Option.getD_some]

/-- A compaction counts for its logical heap what the plan has grown by. -/
theorem agrees_planHeap {reason : CollectionReason} {fixed : Std.TreeSet Nat} {l l' : LogicalHeap}
    {s : Survival} {p p' : CompactionPlan} {why : Option CompactionReason} {completions aborts : Nat}
    (hl : l.ledger.Agrees completions aborts)
    (hrun : h.planHeap condemned reason fixed l s p = .ok (why, l', p')) :
    l'.ledger.Agrees completions aborts ∧ l'.ledger.failures = l.ledger.failures ∧
      l'.ledger.relocated + p.movedObjects = l.ledger.relocated + p'.movedObjects := by
  simp only [planHeap, Checked.bind_eq_ok] at hrun
  obtain ⟨inputs, _, hrun⟩ := hrun
  split at hrun
  next why _ =>
    simp only [Checked.bind_eq_ok, Checked.pure_eq_ok, Prod.mk.injEq] at hrun
    obtain ⟨after, hplan, counters₁, hobjects, counters₂, hbytes, _, rfl, rfl⟩ := hrun
    have hgrown := CompactionPlan.movedObjects_le_addSegments hplan
    have hmoved := ledger_add_relocated (l := { l with
      counters := (l.counters.recordCompaction why).recordMechanism .compacted }) hl.points hobjects
    have hledger := (LogicalHeap.ledger_add (l := { l with counters := counters₁ })
      (p := .bytesRelocated) (by decide) hbytes).trans hmoved
    rw [hledger]
    refine ⟨hl.compact why _, rfl, ?_⟩
    show l.ledger.relocated + (after.movedObjects - p.movedObjects) + p.movedObjects = _
    omega
  · simp only [Checked.pure_eq_ok, Prod.mk.injEq] at hrun
    obtain ⟨_, rfl, rfl⟩ := hrun
    exact ⟨hl, rfl, rfl⟩

/-- So it is for all logical heaps in a row. -/
theorem agrees_planHeaps {reason : CollectionReason} {fixed : Std.TreeSet Nat}
    {pairs : List (LogicalHeap × Survival)} {p p' : CompactionPlan}
    {why : Option CompactionReason} {heaps : List LogicalHeap} {completions aborts : Nat}
    (hpairs : ∀ x ∈ pairs, x.1.ledger.Agrees completions aborts)
    (hrun : h.planHeaps condemned reason fixed pairs p = .ok (why, heaps, p')) :
    (∀ l ∈ heaps, l.ledger.Agrees completions aborts) ∧
      heaps.map (·.ledger.failures) = pairs.map (·.1.ledger.failures) ∧
      (heaps.map (·.ledger.relocated)).sum + p.movedObjects =
        (pairs.map (·.1.ledger.relocated)).sum + p'.movedObjects := by
  induction pairs generalizing p why heaps with
  | nil =>
    simp only [planHeaps, Checked.pure_eq_ok, Prod.mk.injEq] at hrun
    obtain ⟨_, rfl, rfl⟩ := hrun
    exact ⟨List.forall_mem_nil _, rfl, rfl⟩
  | cons x pairs ih =>
    simp only [planHeaps, Checked.bind_eq_ok, Checked.pure_eq_ok, Prod.exists, Prod.mk.injEq] at hrun
    obtain ⟨_, l, p₁, hone, _, rest, p₂, hrest, _, rfl, rfl⟩ := hrun
    rw [List.forall_mem_cons] at hpairs
    obtain ⟨hl, hfailures, hmoved⟩ := agrees_planHeap hpairs.1 hone
    obtain ⟨hagree, hsame, htotal⟩ := ih hpairs.2 hrest
    refine ⟨List.forall_mem_cons.2 ⟨hl, hagree⟩, ?_, ?_⟩
    · rw [List.map_cons, List.map_cons, hfailures, hsame]
    · rw [List.map_cons, List.map_cons, List.sum_cons, List.sum_cons]
      omega

/-- A compaction moves what its summary says. -/
theorem balanced_compact {fixed : Std.TreeSet Nat} (hlen : survivals.length = h.heaps.length)
    (hb : h.ledger.Balanced n begun moved)
    (hrun : h.compact condemned fixed survivals summary = .ok (summary', h')) :
    h'.ledger.Balanced n begun (moved + summary'.objectsRelocated) := by
  obtain ⟨why, heaps, p, hplan, rfl, happly⟩ := compact_stages.1 hrun
  refine (uncounted_applyPlan happly).balanced ?_
  have hpairs : ∀ x ∈ h.heaps.zip survivals,
      x.1.ledger.Agrees h.ledger.completions h.ledger.aborts := fun x hx =>
    hb.agree _ (List.mem_map_of_mem (List.of_mem_zip hx).1)
  obtain ⟨hagree, hfailures, hmoved⟩ := agrees_planHeaps hpairs hplan
  rw [map_zip_fst hlen fun l => l.ledger.failures] at hfailures
  rw [map_zip_fst hlen fun l => l.ledger.relocated] at hmoved
  have hcount : heaps.length = h.heaps.length := by
    have hlengths := congrArg List.length hfailures
    rwa [List.length_map, List.length_map] at hlengths
  have hnone : ({} : CompactionPlan).movedObjects = 0 := Std.TreeMap.size_emptyc
  have hrelocated := hb.relocated
  have hfailed := hb.failures
  simp only [ledger, List.map_map, Function.comp_def] at hrelocated hfailed
  refine ⟨hb.wanted, ?_, hb.tiers, fun e he => ?_, hb.collections, ?_, ?_⟩
  · rw [← hb.length]
    simp only [ledger, List.length_map, hcount]
  · obtain ⟨l, hl, rfl⟩ := List.mem_map.1 he
    exact hagree l hl
  · simp only [ledger, List.map_map, Function.comp_def]
    omega
  · simp only [ledger, List.map_map, Function.comp_def]
    rw [hfailures, hfailed]

/-! ## Collections, also those that break off -/

/-- Reclaiming counts what it moves, also where it breaks off. -/
theorem balanced_reclaim {compacts : Bool} {x : Except HeapError CollectionSummary}
    (hb : h.ledger.Balanced n begun moved) (hidle : summary.objectsRelocated = 0)
    (hrun : reclaim condemned live compacts consumed summary h = .ok (x, h')) :
    ∃ k, h'.ledger.Balanced n begun (moved + k) ∧
      ∀ summary', x = .ok summary' → summary'.objectsRelocated = k := by
  obtain ⟨h₁, summary₂, h₂, hsweep, hcompact, hsettle⟩ :=
    reclaimUnchecked_stages.1 (reclaim_cases hrun).1
  have hgone : h.Uncounted (h.swept live).2 := uncounted_sweepDead (h := { h with
    handles := h.handles.clearDeadWeak fun a => (h.space.get? a).any (live a) }) live
  have hswept := frame_uncounted.trans hgone (uncounted_of_refits (refits_rebuildSegments hsweep))
  have h₁' := hswept.balanced hb
  have h₂' : h₂.ledger.Balanced n begun (moved + summary₂.objectsRelocated) := by
    obtain ⟨-, hcompact⟩ | ⟨-, rfl, rfl⟩ := compactIf_stages.1 hcompact
    · exact balanced_compact length_survivalsOf h₁' hcompact
    · show h₁.ledger.Balanced n begun (moved + summary.objectsRelocated)
      rwa [hidle]
  have hlen := (stands_compactIf length_survivalsOf hcompact).length
  have hsettled := uncounted_settle (length_survivalsOf.trans hlen.symm) hsettle
  refine ⟨_, hsettled.balanced h₂', ?_⟩
  rintro summary' rfl
  obtain ⟨_, _, _, _, _, hpromote, _⟩ := settle_stages.1 hsettle
  simp only [promoteSurvivors, Checked.bind_eq_ok, Checked.pure_eq_ok, Prod.mk.injEq] at hpromote
  obtain ⟨_, _, rfl, _⟩ := hpromote
  rfl

/-- A collection keeps the balance, or it has begun and breaks off. -/
theorem balanced_collect {generation : Generation} {reason : CollectionReason}
    {x : Except HeapError CollectionSummary} (hb : h.ledger.Balanced n begun moved)
    (hrun : collect generation reason h = .ok (x, h')) :
    (∃ summary, x = .ok summary) ∧ h'.ledger.Balanced n begun moved ∨
      (∃ e, x = .error e) ∧ ∃ k, h'.ledger.Balanced n (begun + 1) (moved + k) := by
  obtain ⟨scan, summary, h₁, q, h₂, hmark, hreclaim, hend⟩ := collect_cases hrun
  have h₁' := (uncounted_markCondemned hmark).balanced (balanced_beginCollection hb)
  have hidle : summary.objectsRelocated = 0 := by
    simp only [markCondemned, Checked.bind_eq_ok, Checked.pure_eq_ok, Prod.exists,
      Prod.mk.injEq] at hmark
    obtain ⟨_, _, _, _, _, _, _, _, rfl, _⟩ := hmark
    rfl
  obtain ⟨k, h₂', hmoved⟩ := balanced_reclaim h₁' hidle hreclaim
  obtain ⟨e, -, rfl, rfl⟩ | ⟨summary', hq, rfl, hfinish⟩ := hend
  · exact .inr ⟨⟨e, rfl⟩, k, h₂'⟩
  · cases hmoved summary' hq
    exact .inl ⟨⟨_, rfl⟩, balanced_finishCollection
      (h := { h₂ with sweeper := { h₂.sweeper with next := 0 } }) h₂' hfinish⟩

/-- So does the completion of a cycle. -/
theorem balanced_completeBackground {x : Except HeapError (Option CollectionSummary)}
    (hb : h.ledger.Balanced n begun moved) (hrun : completeBackground h = .ok (x, h')) :
    (∃ summary, x = .ok summary) ∧ h'.ledger.Balanced n begun moved ∨
      (∃ e, x = .error e) ∧ ∃ k, h'.ledger.Balanced n (begun + 1) (moved + k) := by
  obtain ⟨-, rfl, rfl⟩ | ⟨b, summary, b', h₁, q, h₂, -, hmark, hreclaim, hend⟩ :=
    completeBackground_cases hrun
  · exact .inl ⟨⟨_, rfl⟩, hb⟩
  · have hbegun : h.trace.stopCycle.ledger.Balanced n (begun + 1) moved := hb.begin
    have h₁' := (uncounted_finishMarking hmark).balanced hbegun
    have hidle : summary.objectsRelocated = 0 := by
      simp only [finishMarking, Checked.bind_eq_ok, Checked.pure_eq_ok, Prod.exists,
        Prod.mk.injEq] at hmark
      obtain ⟨_, _, _, rfl, _⟩ := hmark
      rfl
    obtain ⟨k, h₂', hmoved⟩ := balanced_reclaim h₁' hidle hreclaim
    obtain ⟨e, -, rfl, rfl⟩ | ⟨summary', hq, rfl, hlast⟩ := hend
    · exact .inr ⟨⟨e, rfl⟩, k, h₂'⟩
    · cases hmoved summary' hq
      have hdropped : ({ h₂ with sweeper := { h₂.sweeper with next := b'.high } } : Heap).Uncounted
          ({ h₂ with sweeper := { h₂.sweeper with next := b'.high } }.modifyHeaps fun l =>
            { l with savedEphemeral := none }) := uncounted_modifyHeaps fun _ => rfl
      exact .inl ⟨⟨_, rfl⟩, balanced_finishCollection (hdropped.balanced h₂') hlast⟩

end Heap

end GenHeap
