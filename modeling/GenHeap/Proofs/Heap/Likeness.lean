import GenHeap.Proofs.Heap.Reclaim
import GenHeap.Proofs.Heap.Stages
import GenHeap.Proofs.Likeness

/-!
Heaps with the same content. What follows marking reads only this content, so on heaps that are alike
every stage succeeds or fails alike and leaves heaps that are alike again.
-/

namespace GenHeap

namespace LogicalHeap

/-- The content of a logical heap. Boards, records of failures, and counts of compactions and of
kinds of collections are no part of it. -/
structure Core where
  budgets : BudgetTable
  segments : SegmentTable
  finalization : FinalizationQueue
  dataPoints : List Nat

def core (l : LogicalHeap) : Core where
  budgets := l.budgets
  segments := l.segments
  finalization := l.finalization
  dataPoints := l.counters.dataPoints

end LogicalHeap

/-- The totals that a collection adds to. -/
def Statistics.totals (s : Statistics) : Nat × Nat × Nat :=
  (s.totalFreed, s.totalPromoted, s.totalRelocated)

namespace Heap

/-- The same objects, handles, segments, budgets, queues, cards, and data points. -/
structure Alike (h k : Heap) : Prop where
  config : k.config = h.config
  provider : k.provider = h.provider
  cards : k.cards = h.cards
  space : h.space.Alike k.space
  handles : k.handles = h.handles
  heaps : k.heaps.map (·.core) = h.heaps.map (·.core)
  totals : k.statistics.totals = h.statistics.totals

variable {h h' h'' k k' : Heap} {i : Nat} {l m : LogicalHeap} {α β : Type}

theorem Alike.refl (h : Heap) : h.Alike h := ⟨rfl, rfl, rfl, .refl _, rfl, rfl, rfl⟩

theorem Alike.symm (ha : h.Alike k) : k.Alike h :=
  ⟨ha.config.symm, ha.provider.symm, ha.cards.symm, ha.space.symm, ha.handles.symm, ha.heaps.symm,
    ha.totals.symm⟩

theorem Alike.trans (ha : h.Alike h') (ha' : h'.Alike h'') : h.Alike h'' :=
  ⟨ha'.config.trans ha.config, ha'.provider.trans ha.provider, ha'.cards.trans ha.cards,
    ha.space.trans ha'.space, ha'.handles.trans ha.handles, ha'.heaps.trans ha.heaps,
    ha'.totals.trans ha.totals⟩

theorem Alike.length (ha : h.Alike k) : k.heaps.length = h.heaps.length := by
  have hlength := congrArg List.length ha.heaps
  rwa [List.length_map, List.length_map] at hlength

theorem Alike.getElem? (ha : h.Alike k) (hl : h.heaps[i]? = some l) :
    ∃ m, k.heaps[i]? = some m ∧ m.core = l.core := by
  have hi : (k.heaps.map (·.core))[i]? = (h.heaps.map (·.core))[i]? := congrArg (·[i]?) ha.heaps
  rw [List.getElem?_map, List.getElem?_map, hl] at hi
  exact Option.map_eq_some_iff.1 hi

/-- What is read off the content of all logical heaps. -/
theorem Alike.map_heaps (ha : h.Alike k) (f : LogicalHeap.Core → α) :
    k.heaps.map (fun l => f l.core) = h.heaps.map fun l => f l.core := by
  have hmap := congrArg (List.map f) ha.heaps
  rwa [List.map_map, List.map_map] at hmap

theorem Alike.running (ha : h.Alike k) :
    k.heaps.flatMap (·.finalization.running) = h.heaps.flatMap (·.finalization.running) :=
  congrArg List.flatten (ha.map_heaps (·.finalization.running))

theorem Alike.tables (ha : h.Alike k) : k.tables = h.tables := ha.map_heaps (·.segments)

/-! ## Changes of the logical heaps -/

theorem Alike.withHeaps (ha : h.Alike k) {xs ys : List LogicalHeap}
    (hxs : ys.map (·.core) = xs.map (·.core)) :
    Alike { h with heaps := xs } { k with heaps := ys } :=
  ⟨ha.config, ha.provider, ha.cards, ha.space, ha.handles, hxs, ha.totals⟩

theorem Alike.modifyHeaps (ha : h.Alike k) (F : LogicalHeap.Core → LogicalHeap.Core)
    {f g : LogicalHeap → LogicalHeap} (hf : ∀ l, (f l).core = F l.core)
    (hg : ∀ l, (g l).core = F l.core) : (h.modifyHeaps f).Alike (k.modifyHeaps g) := by
  refine ha.withHeaps ?_
  simp only [List.map_map, Function.comp_def, hf, hg]
  exact ha.map_heaps F

theorem Alike.modifyHeap (ha : h.Alike k) (F : LogicalHeap.Core → LogicalHeap.Core)
    {f g : LogicalHeap → LogicalHeap} (hf : ∀ l, (f l).core = F l.core)
    (hg : ∀ l, (g l).core = F l.core) : (h.modifyHeap i f).Alike (k.modifyHeap i g) := by
  refine ha.withHeaps ?_
  rw [map_modify _ _ hf, map_modify _ _ hg, ha.heaps]

/-- A change that leaves the content of every logical heap alone. -/
theorem alike_modifyHeaps {f : LogicalHeap → LogicalHeap} (hf : ∀ l, (f l).core = l.core) :
    h.Alike (h.modifyHeaps f) := by
  have hid := (Alike.refl h).modifyHeaps id (fun l => rfl) hf
  rwa [Heap.modifyHeaps, List.map_id'] at hid

theorem alike_publish : h.Alike h.publish := alike_modifyHeaps fun _ => rfl

theorem alike_countMechanism {x : Mechanism} : h.Alike (h.countMechanism x) :=
  alike_modifyHeaps fun _ => rfl

theorem Alike.updateHeap (ha : h.Alike k) {f g : LogicalHeap → Checked LogicalHeap}
    (hfg : ∀ l m l', m.core = l.core → f l = .ok l' → ∃ m', g m = .ok m' ∧ m'.core = l'.core)
    (hrun : h.updateHeap i f = .ok h') : ∃ k', k.updateHeap i g = .ok k' ∧ h'.Alike k' := by
  unfold Heap.updateHeap at hrun ⊢
  cases hl : h.heaps[i]? with
  | none =>
    have hm : k.heaps[i]? = none := by
      rw [List.getElem?_eq_none_iff] at hl ⊢
      rwa [ha.length]
    rw [hl] at hrun
    cases hrun
    rw [hm]
    exact ⟨k, rfl, ha⟩
  | some l =>
    obtain ⟨m, hm, hcore⟩ := ha.getElem? hl
    simp only [hl, hm, Checked.bind_eq_ok, Checked.pure_eq_ok] at hrun ⊢
    obtain ⟨l', hl', rfl⟩ := hrun
    obtain ⟨m', hm', hcore'⟩ := hfg l m l' hcore hl'
    refine ⟨_, ⟨m', hm', rfl⟩, ha.withHeaps ?_⟩
    rw [List.map_set, List.map_set, ha.heaps, hcore']

/-! ## Sweeping -/

variable {condemned : Generation} {live live' : Nat → Record → Bool}

/-- Dead objects of the same sizes are charged off the same budgets. -/
theorem Alike.discharge (ha : h.Alike k) {gone gone' : List (Nat × Record)}
    (hgone : AlikeObjects gone gone') :
    Alike (gone.foldl (fun h x => h.modifyHeap x.2.heap fun l =>
        { l with budgets := l.budgets.discharge x.2.generation x.2.size }) h)
      (gone'.foldl (fun h x => h.modifyHeap x.2.heap fun l =>
        { l with budgets := l.budgets.discharge x.2.generation x.2.size }) k) := by
  induction gone generalizing gone' h k with
  | nil =>
    rw [hgone.nil]
    exact ha
  | cons x gone ih =>
    obtain ⟨a, r⟩ := x
    obtain ⟨marked, zs, rfl, hrest⟩ := hgone.cons
    rw [List.foldl_cons, List.foldl_cons]
    refine ih ?_ hrest
    exact ha.modifyHeap
      (fun c => { c with budgets := c.budgets.discharge r.generation r.size })
      (fun _ => rfl) fun _ => rfl

theorem Alike.swept (ha : h.Alike k)
    (hlive : ∀ a, (k.space.get? a).any (live' a) = (h.space.get? a).any (live a)) :
    AlikeObjects (h.swept live).1 (k.swept live').1 ∧
      (h.swept live).2.Alike (k.swept live').2 := by
  have hdead (a : Nat) : (k.space.get? a).any (fun r => !live' a r) =
      (h.space.get? a).any fun r => !live a r := by
    have hla := hlive a
    cases hr : h.space.get? a with
    | none =>
      have hnone := ha.space.objects a
      rw [hr, Option.map_none, Option.map_eq_none_iff] at hnone
      rw [hnone]
      rfl
    | some r =>
      obtain ⟨marked, hq⟩ := ha.space.objects.get? hr
      rw [hr, hq, Option.any_some, Option.any_some] at hla
      rw [hq, Option.any_some, Option.any_some, hla]
  obtain ⟨hgone, hspace⟩ := ha.space.removeWhere hdead
  refine ⟨hgone, ?_⟩
  have hhandles : k.handles.clearDeadWeak (fun a => (k.space.get? a).any (live' a)) =
      h.handles.clearDeadWeak fun a => (h.space.get? a).any (live a) := by
    rw [ha.handles]
    exact congrArg _ (funext hlive)
  have hcleared : Alike
      { h with handles := h.handles.clearDeadWeak fun a => (h.space.get? a).any (live a) }
      { k with handles := k.handles.clearDeadWeak fun a => (k.space.get? a).any (live' a) } :=
    ⟨ha.config, ha.provider, ha.cards, ha.space, hhandles, ha.heaps, ha.totals⟩
  have hfold := hcleared.discharge hgone
  exact ⟨hfold.config, hfold.provider, hfold.cards, hspace, hfold.handles, hfold.heaps,
    hfold.totals⟩

theorem Alike.rebuildSegments (ha : h.Alike k) (hrun : h.rebuildSegments = .ok h') :
    ∃ k', k.rebuildSegments = .ok k' ∧ h'.Alike k' := by
  simp only [Heap.rebuildSegments, Checked.bind_eq_ok, Checked.pure_eq_ok] at hrun ⊢
  obtain ⟨heaps, hheaps, rfl⟩ := hrun
  have hround (l m l' : LogicalHeap) (hcore : m.core = l.core)
      (hl' : (do return { l with segments := ← l.segments.rebuild h.space } :
        Checked LogicalHeap) = .ok l') :
      ∃ m', (do return { m with segments := ← m.segments.rebuild k.space } :
        Checked LogicalHeap) = .ok m' ∧ m'.core = l'.core := by
    simp only [Checked.bind_eq_ok, Checked.pure_eq_ok] at hl' ⊢
    obtain ⟨segments, hsegments, rfl⟩ := hl'
    simp only [LogicalHeap.core, LogicalHeap.Core.mk.injEq] at hcore ⊢
    obtain ⟨hb, hs, hq, hd⟩ := hcore
    refine ⟨_, ⟨segments, hs ▸ SegmentTable.rebuild_alike ha.space hsegments, rfl⟩, hb, rfl, hq, hd⟩
  obtain ⟨heaps', hheaps', hcores⟩ := Checked.exists_mapM hround ha.heaps hheaps
  exact ⟨_, ⟨heaps', hheaps', rfl⟩, ha.withHeaps hcores⟩

theorem Alike.survivalsOf (ha : h.Alike k) {gone gone' : List (Nat × Record)}
    (hgone : AlikeObjects gone gone') :
    k.survivalsOf condemned gone' = h.survivalsOf condemned gone := by
  have hfixed : k.fixedAddresses = h.fixedAddresses := by
    unfold fixedAddresses
    rw [ha.handles, ha.running]
  unfold Heap.survivalsOf
  rw [ha.length, hfixed]
  refine List.map_congr_left fun i _ => ?_
  have hleft : AlikeObjects
      (h.space.entries.filter fun x => x.2.heap == i && x.2.generation.condemnedBy condemned)
      (k.space.entries.filter fun x => x.2.heap == i && x.2.generation.condemnedBy condemned) :=
    ha.space.entries.filter fun _ => rfl
  have hfreed : AlikeObjects (gone.filter (·.2.heap == i)) (gone'.filter (·.2.heap == i)) :=
    hgone.filter fun _ => rfl
  have hpinned := hleft.countP (p := fun x => x.2.pinned || h.fixedAddresses.contains x.1)
    fun _ => rfl
  simp only [survival, funext hleft.bytesOf, funext hfreed.bytesOf, hleft.length, hpinned]

/-! ## Compaction that moves nothing -/

variable {p p' : CompactionPlan} {summary summary' : CollectionSummary}

theorem slide_idle {movable : Nat → Record → Bool} {cursor : Nat} {objects : List (Nat × Record)}
    (hrun : p.slide movable cursor objects = .ok p') (hidle : p'.movedObjects = 0) : p' = p := by
  induction objects generalizing cursor p with
  | nil =>
    cases hrun
    rfl
  | cons x objects ih =>
    obtain ⟨a, r⟩ := x
    unfold CompactionPlan.slide at hrun
    cases hm : movable a r with
    | true =>
      by_cases hc : cursor < a
      · simp only [hm, hc, if_true, CompactionPlan.move, Checked.bind_eq_ok,
          Checked.pure_eq_ok] at hrun
        obtain ⟨_, ⟨_, _, rfl⟩, _, _, hrest⟩ := hrun
        -- a plan with a move in it is not empty
        have hnot : (p.forwarding.insert a cursor).isEmpty = false := Std.TreeMap.isEmpty_insert
        rw [ih hrest] at hidle
        have hsize : (p.forwarding.insert a cursor).size = 0 := hidle
        rw [Std.TreeMap.isEmpty_eq_size_eq_zero, hsize] at hnot
        cases hnot
      · simp only [hm, hc, if_true, if_false, pure_bind, Checked.bind_eq_ok] at hrun
        obtain ⟨_, _, hrest⟩ := hrun
        exact ih hrest
    | false =>
      simp only [hm, Bool.false_eq_true, if_false, Checked.bind_eq_ok] at hrun
      obtain ⟨_, _, hrest⟩ := hrun
      exact ih hrest

theorem addSegments_idle {movable : Nat → Record → Bool} {segments : List Segment}
    {space : ObjectSpace}
    (hrun : segments.foldlM (fun p s => p.addSegment s space movable) p = .ok p')
    (hidle : p'.movedObjects = 0) : p' = p := by
  induction segments generalizing p with
  | nil =>
    cases hrun
    rfl
  | cons s segments ih =>
    rw [List.foldlM_cons, Checked.bind_eq_ok] at hrun
    obtain ⟨p₁, hone, hrest⟩ := hrun
    cases ih hrest
    simp only [CompactionPlan.addSegment, Checked.bind_eq_ok] at hone
    obtain ⟨objects, _, hslide⟩ := hone
    exact slide_idle hslide hidle

theorem dataPoints_add_zero {c c' : Counters} {x : DataPoint} (hrun : c.add x 0 = .ok c') :
    c'.dataPoints = c.dataPoints := by
  simp only [Counters.add, Checked.bind_eq_ok, Checked.pure_eq_ok, Word.add_eq_ok_iff] at hrun
  obtain ⟨_, ⟨_, rfl⟩, rfl⟩ := hrun
  apply List.ext_getElem?
  intro i
  show (c.dataPoints.set x.index (c.dataPoint x + 0))[i]? = _
  rw [List.getElem?_set]
  split
  next hi =>
    subst hi
    unfold Counters.dataPoint
    split
    next hlt => rw [List.getD_eq_getElem?_getD, List.getElem?_eq_getElem hlt, Option.getD_some,
      Nat.add_zero]
    next hge => rw [List.getElem?_eq_none (Nat.le_of_not_lt hge)]
  next => rfl

/-- Adding to a data point, whatever the other counters. -/
theorem Counters.add_alike {c c' d : Counters} {x : DataPoint} {amount : Nat}
    (hd : d.dataPoints = c.dataPoints) (hrun : c.add x amount = .ok c') :
    ∃ d', d.add x amount = .ok d' ∧ d'.dataPoints = c'.dataPoints := by
  simp only [Counters.add, Checked.bind_eq_ok, Checked.pure_eq_ok] at hrun ⊢
  obtain ⟨sum, hsum, rfl⟩ := hrun
  have hpoint : d.dataPoint x = c.dataPoint x := congrArg (·.getD x.index 0) hd
  exact ⟨_, ⟨sum, hpoint ▸ hsum, rfl⟩, congrArg (·.set x.index sum) hd⟩

theorem planHeap_idle {reason : CollectionReason} {fixed : Std.TreeSet Nat} {l l' : LogicalHeap}
    {s : Survival} {why : Option CompactionReason}
    (hrun : h.planHeap condemned reason fixed l s p = .ok (why, l', p'))
    (hidle : p'.movedObjects = 0) : p' = p ∧ l'.core = l.core := by
  simp only [planHeap, Checked.bind_eq_ok] at hrun
  obtain ⟨inputs, _, hrun⟩ := hrun
  split at hrun
  · simp only [Checked.bind_eq_ok, Checked.pure_eq_ok, Prod.mk.injEq] at hrun
    obtain ⟨after, hplan, c₁, hobjects, c₂, hbytes, _, rfl, rfl⟩ := hrun
    cases addSegments_idle hplan hidle
    rw [Nat.sub_self] at hobjects hbytes
    refine ⟨rfl, ?_⟩
    have hpoints := (dataPoints_add_zero hbytes).trans (dataPoints_add_zero hobjects)
    simp only [LogicalHeap.core, hpoints]
    rfl
  · simp only [Checked.pure_eq_ok, Prod.mk.injEq] at hrun
    obtain ⟨_, rfl, rfl⟩ := hrun
    exact ⟨rfl, rfl⟩

theorem planHeaps_idle {reason : CollectionReason} {fixed : Std.TreeSet Nat}
    {pairs : List (LogicalHeap × Survival)} {why : Option CompactionReason}
    {heaps : List LogicalHeap}
    (hrun : h.planHeaps condemned reason fixed pairs p = .ok (why, heaps, p'))
    (hidle : p'.movedObjects = 0) :
    p' = p ∧ heaps.map (·.core) = pairs.map (·.1.core) := by
  induction pairs generalizing p why heaps with
  | nil =>
    simp only [planHeaps, Checked.pure_eq_ok, Prod.mk.injEq] at hrun
    obtain ⟨_, rfl, rfl⟩ := hrun
    exact ⟨rfl, rfl⟩
  | cons x pairs ih =>
    simp only [planHeaps, Checked.bind_eq_ok, Checked.pure_eq_ok, Prod.exists, Prod.mk.injEq] at hrun
    obtain ⟨_, l, p₁, hone, _, rest, p₂, hrest, _, rfl, rfl⟩ := hrun
    obtain ⟨rfl, hcores⟩ := ih hrest
    obtain ⟨rfl, hcore⟩ := planHeap_idle hone hidle
    exact ⟨rfl, by rw [List.map_cons, List.map_cons, hcore, hcores]⟩

/-- A compaction that relocates no object only counts itself. -/
theorem alike_compact {fixed : Std.TreeSet Nat} {survivals : List Survival}
    (hlen : survivals.length = h.heaps.length)
    (hrun : h.compact condemned fixed survivals summary = .ok (summary', h'))
    (hidle : summary'.objectsRelocated = 0) :
    h.Alike h' ∧ summary'.bytesFreed = summary.bytesFreed := by
  obtain ⟨why, heaps, p, hplan, rfl, happly⟩ := compact_stages.1 hrun
  obtain ⟨rfl, hcores⟩ := planHeaps_idle hplan hidle
  have hheaps : heaps.map (·.core) = h.heaps.map (·.core) := hcores.trans (map_zip_fst hlen _)
  cases happly
  exact ⟨(Alike.refl h).withHeaps hheaps, rfl⟩

/-! ## Budgets and generations -/

/-- Changing budgets and adding to a data point, in logical heaps with the same content. -/
theorem exists_recorded {X : BudgetTable → Checked BudgetTable} {x : DataPoint} {amount : Nat}
    {l' : LogicalHeap} (hcore : m.core = l.core)
    (hl' : (do return { l with
      budgets := ← X l.budgets, counters := ← l.counters.add x amount } :
        Checked LogicalHeap) = .ok l') :
    ∃ m', (do return { m with
      budgets := ← X m.budgets, counters := ← m.counters.add x amount } :
        Checked LogicalHeap) = .ok m' ∧ m'.core = l'.core := by
  simp only [Checked.bind_eq_ok, Checked.pure_eq_ok] at hl' ⊢
  obtain ⟨budgets, hbudgets, counters, hcounters, rfl⟩ := hl'
  simp only [LogicalHeap.core, LogicalHeap.Core.mk.injEq] at hcore ⊢
  obtain ⟨hb, hs, hq, hd⟩ := hcore
  obtain ⟨counters', hcounters', hpoints⟩ := Counters.add_alike hd hcounters
  rw [hb]
  exact ⟨_, ⟨budgets, hbudgets, counters', hcounters', rfl⟩, rfl, hs, hq, hpoints⟩

theorem Alike.tuneBudgets (ha : h.Alike k) {survivals : List Survival}
    (hrun : h.tuneBudgets condemned survivals = .ok h') :
    ∃ k', k.tuneBudgets condemned survivals = .ok k' ∧ h'.Alike k' := by
  simp only [Heap.tuneBudgets, Checked.bind_eq_ok, Checked.pure_eq_ok] at hrun ⊢
  obtain ⟨heaps, hheaps, rfl⟩ := hrun
  have hround (x y : LogicalHeap × Survival) (l' : LogicalHeap)
      (hxy : (y.1.core, y.2) = (x.1.core, x.2))
      (hl' : (do return { x.1 with
        budgets := ← x.1.budgets.finishCollection condemned (.ofFn x.2.rate) h.config.tuning
        counters := ← x.1.counters.add .pinnedSurvivors x.2.pinnedObjects } :
          Checked LogicalHeap) = .ok l') :
      ∃ m', (do return { y.1 with
        budgets := ← y.1.budgets.finishCollection condemned (.ofFn y.2.rate) k.config.tuning
        counters := ← y.1.counters.add .pinnedSurvivors y.2.pinnedObjects } :
          Checked LogicalHeap) = .ok m' ∧ m'.core = l'.core := by
    obtain ⟨hcore, hsurvival⟩ := Prod.mk.inj hxy
    rw [hsurvival, ha.config]
    exact exists_recorded
      (X := fun b => b.finishCollection condemned (.ofFn x.2.rate) h.config.tuning) hcore hl'
  have hpairs : (k.heaps.zip survivals).map (fun x => (x.1.core, x.2)) =
      (h.heaps.zip survivals).map fun x => (x.1.core, x.2) := by
    have hzip (xs : List LogicalHeap) : (xs.zip survivals).map (fun x => (x.1.core, x.2)) =
        (xs.map (·.core)).zip survivals := by
      rw [List.zip_map_left]
      rfl
    rw [hzip, hzip, ha.heaps]
  obtain ⟨heaps', hheaps', hcores⟩ := Checked.exists_mapM hround hpairs hheaps
  exact ⟨_, ⟨heaps', hheaps', rfl⟩, ha.withHeaps hcores⟩

/-- A promotion does not look at the mark. -/
theorem Alike.promote (ha : h.Alike k) {a : Nat} {r : Record} (marked : Bool)
    (hrun : h.promote a r = .ok h') :
    ∃ k', k.promote a { r with marked } = .ok k' ∧ h'.Alike k' := by
  simp only [Heap.promote, Checked.bind_eq_ok, Checked.pure_eq_ok] at hrun ⊢
  obtain ⟨h₁, hupdate, rfl⟩ := hrun
  obtain ⟨k₁, hupdate', ha₁⟩ := ha.updateHeap (fun l m l' hcore hl' => exists_recorded
    (X := fun b => (b.discharge r.generation r.size).charge r.generation.promoted r.size) hcore hl')
    hupdate
  refine ⟨_, ⟨k₁, hupdate', rfl⟩, ha₁.config, ha₁.provider, ha₁.cards, ?_, ha₁.handles, ha₁.heaps,
    ha₁.totals⟩
  exact ha₁.space.update (fun _ => rfl) a

theorem Alike.promoteSurvivors (ha : h.Alike k) (s : CollectionSummary)
    (hrun : h.promoteSurvivors condemned summary = .ok (summary', h')) :
    ∃ k', k.promoteSurvivors condemned s = .ok ({ s with
        objectsPromoted := summary'.objectsPromoted
        bytesPromoted := summary'.bytesPromoted }, k') ∧ h'.Alike k' ∧
      summary'.bytesFreed = summary.bytesFreed ∧
      summary'.objectsRelocated = summary.objectsRelocated := by
  simp only [Heap.promoteSurvivors, Checked.bind_eq_ok, Checked.pure_eq_ok,
    Prod.mk.injEq] at hrun ⊢
  obtain ⟨h₁, hfold, rfl, rfl⟩ := hrun
  have hpromoted : AlikeObjects (h.space.entries.filter fun x => isPromoted condemned x.2)
      (k.space.entries.filter fun x => isPromoted condemned x.2) :=
    ha.space.entries.filter fun _ => rfl
  have hround (h k : Heap) (x y : Nat × Record) (h' : Heap) (hhk : h.Alike k)
      (hxy : unmarked y = unmarked x) (hround : h.promote x.1 x.2 = .ok h') :
      ∃ k', k.promote y.1 y.2 = .ok k' ∧ h'.Alike k' := by
    obtain ⟨marked, rfl⟩ := eq_of_unmarked hxy
    exact hhk.promote marked hround
  obtain ⟨k₁, hfold', ha₁⟩ := Checked.exists_foldlM hround hpromoted ha hfold
  refine ⟨k₁, ⟨k₁, hfold', ?_, rfl⟩, ha₁, rfl, rfl⟩
  rw [hpromoted.length, hpromoted.map fun _ => rfl]

/-! ## Operations -/

/-- An operation that makes no difference between heaps that are alike. -/
def Impartial (t : Transition Heap α) : Prop :=
  ∀ ⦃h k h' : Heap⦄ ⦃a : α⦄, h.Alike k → t h = .ok (.ok a, h') →
    ∃ k', t k = .ok (.ok a, k') ∧ h'.Alike k'

/-- The arenas of logical heaps with the same content are the same. -/
theorem Alike.onArena (ha : h.Alike k) {t u : Transition SegmentArena α} {a : α}
    (htu : ∀ arena x, t arena = .ok x → u arena = .ok x)
    (hrun : onArena i t h = .ok (.ok a, h')) :
    ∃ k', Heap.onArena i u k = .ok (.ok a, k') ∧ h'.Alike k' := by
  cases hl : h.heaps[i]? with
  | none =>
    simp only [Heap.onArena, fetchHeap, hl, Effect.get_bind, Transition.ofExcept_bind] at hrun
    cases hrun
  | some l =>
    obtain ⟨m, hm, hcore⟩ := ha.getElem? hl
    obtain ⟨arena, harena, rfl⟩ := (onArena_eq_ok hl).1 hrun
    have hsame : k.arena m = h.arena l := by
      unfold Heap.arena
      rw [ha.provider, show m.segments = l.segments from congrArg LogicalHeap.Core.segments hcore]
    refine ⟨k.withArena i arena, (onArena_eq_ok hm).2 ⟨arena, hsame ▸ htu _ _ harena, rfl⟩, ?_⟩
    have hheaps := ha.modifyHeap (i := i) (fun c => { c with segments := arena.table })
      (f := fun l => { l with segments := arena.table })
      (g := fun l => { l with segments := arena.table }) (fun _ => rfl) fun _ => rfl
    exact ⟨ha.config, rfl, ha.cards, ha.space, ha.handles, hheaps.heaps, ha.totals⟩

/-- What is read off the segments of a logical heap. -/
theorem impartial_fetchSegments {f : SegmentTable → Transition Heap α}
    (hf : ∀ t, Impartial (f t)) :
    Impartial (do f (← Transition.ofExcept ((← get).fetchHeap i)).segments) := by
  intro h k h' a ha hrun
  rw [Effect.get_bind, Transition.ofExcept_bind] at hrun ⊢
  unfold fetchHeap at hrun ⊢
  cases hl : h.heaps[i]? with
  | none =>
    rw [hl] at hrun
    cases hrun
  | some l =>
    obtain ⟨m, hm, hcore⟩ := ha.getElem? hl
    have hsegments : m.segments = l.segments := congrArg LogicalHeap.Core.segments hcore
    simp only [hl, hm, hsegments] at hrun ⊢
    exact hf _ ha hrun

theorem impartial_syncHeap : Impartial (syncHeap condemned i) := by
  intro h k h' a ha hrun
  rw [syncHeap_apply] at hrun ⊢
  refine Alike.onArena ?_ (fun _ _ hx => hx) hrun
  have hgenerations : (fun a => (k.space.get? a).map (·.generation)) =
      fun a => (h.space.get? a).map (·.generation) := by
    funext b
    have hb := congrArg (Option.map (·.generation)) (ha.space.objects b)
    rwa [Option.map_map, Option.map_map] at hb
  exact ha.modifyHeap
    (fun c => { c with finalization := sortedBy h.space c.finalization }) (fun _ => rfl)
    fun _ => by rw [sortedBy, hgenerations]; rfl

theorem impartial_decommitSegment {active : Option Nat} {kept id : Nat} :
    Impartial (decommitSegment i active kept id) := by
  intro h k h' a ha hrun
  unfold decommitSegment at hrun ⊢
  split at hrun
  next hactive =>
    rw [if_pos hactive]
    exact Effect.respects_pure kept ha hrun
  next hactive =>
    rw [if_neg hactive]
    rw [Effect.get_bind, Transition.ofExcept_bind] at hrun ⊢
    unfold fetchHeap at hrun ⊢
    cases hl : h.heaps[i]? with
    | none =>
      rw [hl] at hrun
      cases hrun
    | some l =>
      obtain ⟨m, hm, hcore⟩ := ha.getElem? hl
      have hsegments : m.segments = l.segments := congrArg LogicalHeap.Core.segments hcore
      simp only [hl, hm, hsegments, Transition.ofExcept_bind, ha.config] at hrun ⊢
      cases hs : l.segments.fetch id with
      | error e =>
        rw [hs] at hrun
        cases hrun
      | ok s =>
        simp only [hs, Effect.lift_bind, Checked.bind_eq_ok] at hrun ⊢
        obtain ⟨holds, hholds, hrun⟩ := hrun
        have hholds' := SegmentArena.holdsObject_alike ha.space hholds
        split at hrun
        next hyes =>
          cases hrun
          exact ⟨k, ⟨holds, hholds', by rw [if_pos hyes]; rfl⟩, ha⟩
        next hno =>
          split at hrun
          next hfew =>
            cases hrun
            exact ⟨k, ⟨holds, hholds', by rw [if_neg hno, if_pos hfew]; rfl⟩, ha⟩
          next hmany =>
            rw [Effect.bind_eq_ok_ok] at hrun
            obtain ⟨done, h₁, harena, hrun⟩ := hrun
            cases hrun
            obtain ⟨k₁, harena', ha₁⟩ := ha.onArena
              (fun _ _ hx => SegmentArena.decommitIfEmpty_alike ha.space hx) harena
            refine ⟨k₁, ⟨holds, hholds', ?_⟩, ha₁⟩
            rw [if_neg hno, if_neg hmany]
            exact Effect.bind_eq_ok_ok.2 ⟨done, k₁, harena', rfl⟩

theorem impartial_decommitEmpty : Impartial (decommitEmpty i) := by
  have hgeneration (kept : Nat) (g : Generation) : Impartial (decommitGeneration i kept g) :=
    impartial_fetchSegments fun t => Effect.respects_foldlM
      (f := decommitSegment i (t.allocSegment? g)) (fun _ _ => impartial_decommitSegment)
      (t.owned.get g) kept
  exact Effect.respects_bind (Effect.respects_foldlM hgeneration _ 0) fun _ => Effect.respects_pure _

/-- After a full collection the cards are computed from the objects alone. -/
theorem Alike.refreshCards (ha : h.Alike k) (hrun : h.refreshCards condemned none = .ok h') :
    ∃ k', k.refreshCards condemned none = .ok k' ∧ h'.Alike k' := by
  simp only [Heap.refreshCards, Checked.bind_eq_ok, Checked.pure_eq_ok] at hrun ⊢
  obtain ⟨cards, hcards, rfl⟩ := hrun
  rw [← markYoungerAll_alike ha.space ha.space.entries, ← ha.cards] at hcards
  exact ⟨_, ⟨cards, hcards, rfl⟩, ha.config, ha.provider, rfl, ha.space, ha.handles, ha.heaps,
    ha.totals⟩

/-! ## The whole -/

/-- Both summaries add the same to the totals. -/
structure SameBytes (s s' : CollectionSummary) : Prop where
  bytesFreed : s'.bytesFreed = s.bytesFreed
  bytesPromoted : s'.bytesPromoted = s.bytesPromoted
  objectsRelocated : s'.objectsRelocated = s.objectsRelocated

variable {s : CollectionSummary}

theorem Alike.settle (ha : h.Alike k) {survivals : List Survival}
    (hfreed : s.bytesFreed = summary.bytesFreed)
    (hrelocated : s.objectsRelocated = summary.objectsRelocated)
    (hrun : settle condemned survivals none summary h = .ok (.ok summary', h')) :
    ∃ s' k', Heap.settle condemned survivals none s k = .ok (.ok s', k') ∧ h'.Alike k' ∧
      SameBytes summary' s' ∧ summary'.objectsRelocated = summary.objectsRelocated ∧
      s'.compaction = s.compaction := by
  obtain ⟨h₁, h₂, h₃, h₄, htune, hpromote, hsync, hback, hrefresh⟩ := settle_stages.1 hrun
  obtain ⟨k₁, htune', ha₁⟩ := ha.tuneBudgets htune
  obtain ⟨k₂, hpromote', ha₂, hbytes, hmoved⟩ := ha₁.promoteSurvivors s hpromote
  obtain ⟨k₃, hsync', ha₃⟩ := Effect.respects_forM (fun _ => impartial_syncHeap) _ ha₂ hsync
  obtain ⟨k₄, hback', ha₄⟩ := Effect.respects_forM (fun _ => impartial_decommitEmpty) _ ha₃ hback
  obtain ⟨k', hrefresh', ha'⟩ := ha₄.refreshCards hrefresh
  rw [← ha₂.length] at hsync' hback'
  exact ⟨_, k', settle_stages.2 ⟨k₁, k₂, k₃, k₄, htune', hpromote', hsync', hback', hrefresh'⟩, ha',
    ⟨hfreed.trans hbytes.symm, rfl, hrelocated.trans hmoved.symm⟩, hmoved, rfl⟩

/-- A heap that needs no check, or one like it passed the same check. -/
theorem Alike.checkReclaimed (ha : h.Alike k) (hs : s.compaction = none)
    (hrun : checkReclaimed summary h = .ok (.ok ⟨⟩, h')) :
    Heap.checkReclaimed s k = .ok (.ok ⟨⟩, k) := by
  unfold Heap.checkReclaimed at hrun ⊢
  rw [Effect.get_bind] at hrun ⊢
  rw [ha.config, hs]
  cases hverify : h.config.verifyHeap with
  | false => rfl
  | true =>
    simp only [hverify, Bool.true_or, if_true, Effect.lift_apply, Checked.bind_eq_ok] at hrun ⊢
    obtain ⟨_, hsound, _⟩ := hrun
    refine ⟨⟨⟩, ?_, trivial⟩
    unfold requireSound at hsound ⊢
    rwa [HeapCheck.verify_alike ha.space, ha.tables]

/-- Reclaiming in a pause that relocates no object, and reclaiming without compaction. -/
theorem Alike.reclaim (ha : h.Alike k)
    (hlive : ∀ a, (k.space.get? a).any (live' a) = (h.space.get? a).any (live a))
    (hs : s.compaction = none) (hzero : s.objectsRelocated = 0)
    (hrun : reclaim condemned live true none summary h = .ok (.ok summary', h'))
    (hidle : summary'.objectsRelocated = 0) :
    ∃ s' k', Heap.reclaim condemned live' false none s k = .ok (.ok s', k') ∧ h'.Alike k' ∧
      SameBytes summary' s' := by
  obtain ⟨h₁, summary₂, h₂, hsweep, hcompact, hsettle, hcheck⟩ := reclaim_stages.1 hrun
  obtain ⟨hgone, hswept⟩ := ha.swept hlive
  obtain ⟨k₁, hsweep', ha₁⟩ := hswept.rebuildSegments hsweep
  have hsurvivals : k₁.survivalsOf condemned (k.swept live').1 =
      h₁.survivalsOf condemned (h.swept live).1 := ha₁.survivalsOf hgone
  obtain ⟨_, _, _, _, _, hmoved, _⟩ := (Alike.refl h₂).settle rfl rfl hsettle
  obtain ⟨hcompacted, hbytes⟩ := alike_compact (by rw [Heap.survivalsOf, List.length_map,
    List.length_range]) hcompact (hmoved.symm.trans hidle)
  have hfreed : (freed (k.swept live').1 s).bytesFreed = summary₂.bytesFreed := by
    rw [hbytes]
    exact congrArg Word.total (hgone.map fun _ => rfl)
  have hrelocated : (freed (k.swept live').1 s).objectsRelocated = summary₂.objectsRelocated :=
    hzero.trans (hmoved.symm.trans hidle).symm
  obtain ⟨s', k₃, hsettle', ha₃, hsame, _, hnone⟩ :=
    (hcompacted.symm.trans ha₁).settle hfreed hrelocated hsettle
  have hcheck' := ha₃.checkReclaimed (hnone.trans hs) hcheck
  refine ⟨s', k₃, reclaim_stages.2 ⟨k₁, _, k₁, hsweep', rfl, ?_, hcheck'⟩, ha₃, hsame⟩
  rw [hsurvivals]
  exact hsettle'

theorem Alike.finishCollection (ha : h.Alike k) (hs : SameBytes summary s)
    (hrun : h.finishCollection summary = .ok h') :
    ∃ k', k.finishCollection s = .ok k' ∧ h'.Alike k' := by
  have hcounted (g : Heap) (summary : CollectionSummary) : g.Alike (g.counted summary) :=
    counted_induct (P := g.Alike) (.refl g) fun _ _ _ hk => hk.trans alike_countMechanism
  have ha₁ := ((hcounted h summary).symm.trans ha).trans (hcounted k s)
  have htotals := ha.totals
  simp only [Statistics.totals, Prod.mk.injEq] at htotals
  obtain ⟨hfreed, hpromoted, hrelocated⟩ := htotals
  obtain ⟨statistics, hstatistics, rfl⟩ := finishCollection_stages.1 hrun
  obtain ⟨recorded, hrecorded, htotal⟩ : ∃ recorded,
      k.statistics.recordCollection s = .ok recorded ∧ recorded.totals = statistics.totals := by
    simp only [Statistics.recordCollection, Checked.bind_eq_ok, Checked.pure_eq_ok, hfreed,
      hpromoted, hrelocated, hs.bytesFreed, hs.bytesPromoted, hs.objectsRelocated] at hstatistics ⊢
    obtain ⟨x, hx, y, hy, z, hz, rfl⟩ := hstatistics
    exact ⟨_, ⟨x, hx, y, hy, z, hz, rfl⟩, rfl⟩
  refine ⟨_, finishCollection_stages.2 ⟨recorded, hrecorded, rfl⟩,
    (alike_publish.symm.trans ?_).trans alike_publish⟩
  exact ⟨ha₁.config, ha₁.provider, ha₁.cards, ha₁.space, ha₁.handles, ha₁.heaps, htotal⟩

end Heap

end GenHeap
