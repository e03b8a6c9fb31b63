import GenHeap.Proofs.Budget
import GenHeap.Proofs.Heap.FailureHistory
import Mathlib.Algebra.Order.BigOperators.Group.List
import Mathlib.Algebra.Order.Ring.Nat

/-!
The boards as a mirror of the heap. Between operations every count, budget and state that a board
shows is the heap's own, but for the ways of growing: the publication after an allocation leaves them
out, so an allocation that grows a logical heap goes unshown until the next full publication.
-/

namespace GenHeap

open Diagnostics (Board Field FieldValue TypeTag)
open Diagnostics.Board

/-- The fields that show counts, budgets and states of the collector. -/
def Diagnostics.Field.isTally : Field → Bool
  | .dataPoints | .compactions | .expansions | .mechanisms | .budgets | .allocated | .segmentCount
  | .readyFinalizers | .collectionIndex | .backgroundAborts | .outOfMemoryTotal | .markPhase => true
  | _ => false

/-- Whether an operation is one of the embedder, and not a part of one. -/
def Operation.isWhole : Operation → Bool
  | findBlock .. | takeReady | finishReady .. => false
  | _ => true

/-- Counts that are shown late: none is shown too high, and at most `n` in all are missing. -/
structure Lag (shown actual : List Nat) (n : Nat) : Prop where
  behind : List.Forall₂ (· ≤ ·) shown actual
  missing : actual.sum ≤ shown.sum + n

theorem sum_modify_succ {xs : List Nat} {k : Nat} (hk : k < xs.length) :
    (xs.modify k (· + 1)).sum = xs.sum + 1 := by
  induction xs generalizing k with
  | nil => exact absurd hk (Nat.not_lt_zero k)
  | cons x xs ih =>
    cases k with
    | zero =>
      rw [List.modify_zero_cons, List.sum_cons, List.sum_cons]
      omega
    | succ k =>
      rw [List.modify_succ_cons, List.sum_cons, List.sum_cons, ih (Nat.lt_of_succ_lt_succ hk)]
      omega

namespace Lag

variable {shown actual : List Nat} {n m : Nat}

theorem refl (xs : List Nat) : Lag xs xs 0 := ⟨List.forall₂_refl xs, Nat.le_refl _⟩

theorem mono (hl : Lag shown actual n) (hle : n ≤ m) : Lag shown actual m :=
  ⟨hl.behind, Nat.le_trans hl.missing (Nat.add_le_add_left hle _)⟩

/-- With nothing missing, what is shown is exact. -/
theorem exact (hl : Lag shown actual 0) : shown = actual := by
  obtain ⟨hbehind, hmissing⟩ := hl
  induction hbehind with
  | nil => rfl
  | @cons x y xs ys hle hrest ih =>
    have hsum : xs.sum ≤ ys.sum := hrest.sum_le_sum
    rw [List.sum_cons, List.sum_cons] at hmissing
    have hxy : x = y := by omega
    rw [hxy, ih (by omega)]

/-- One more count is one more missing. -/
theorem modify (hl : Lag shown actual n) {k : Nat} (hk : k < actual.length) :
    Lag shown (actual.modify k (· + 1)) (n + 1) := by
  obtain ⟨hbehind, hmissing⟩ := hl
  refine ⟨?_, ?_⟩
  · clear hmissing
    induction hbehind generalizing k with
    | nil => exact absurd hk (Nat.not_lt_zero k)
    | @cons x y xs ys hle hrest ih =>
      cases k with
      | zero => exact .cons (Nat.le_succ_of_le hle) hrest
      | succ k => exact .cons hle (ih (Nat.lt_of_succ_lt_succ hk))
  · rw [sum_modify_succ hk]
    omega

end Lag

namespace Heap

/-- The ways in which a logical heap has grown so far. -/
def expansionsAt (h : Heap) (j : Nat) : Option (List Nat) :=
  (h.heaps[j]?).map (·.counters.expansions)

/-- The states between the operations of an embedder, from an empty heap on; for each logical heap, how
many allocations have grown it since the last operation that ended with a full publication. A finalizer
may use the heap, so the operations between the begin and the end of a run of finalizers are any. -/
inductive AtRest : Heap → (Nat → Nat) → Prop where
  | start {config : Config} {range : AddressRange} {h : Heap} (hpos : 0 < range.start)
    (hrun : onRange config range = .ok (.ok h)) : AtRest h fun _ => 0
  | allocated {h h' : Heap} {n : Nat → Nat} {i a : Nat} {request : AllocRequest} (hr : AtRest h n)
    (hrun : allocate i request h = .ok (.ok a, h')) :
    AtRest h' fun j => if h'.expansionsAt j = h.expansionsAt j then n j else n j + 1
  | refused {h h' : Heap} {n : Nat → Nat} {i : Nat} {request : AllocRequest} {e : HeapError}
    (hr : AtRest h n) (hi : i < h.config.heapCount)
    (hrun : allocate i request h = .ok (.error e, h')) : AtRest h' fun _ => 0
  | published {h h' : Heap} {n : Nat → Nat} (op : Operation) (hr : AtRest h n)
    (hop : op.publishes = true) (hwhole : ∀ batch report, op ≠ .finishReady batch report)
    (hdone : h' ≠ h) (hrun : op.apply h = .ok h') : AtRest h' fun _ => 0
  | finalized {h h₁ : Heap} {n : Nat → Nat} {ops : List Operation} {report : FinalizerReport}
    (hr : AtRest h n) (hrun : h.takeReady.2.run ops = .ok h₁) :
    AtRest (finishReady h.takeReady.1 report h₁) fun _ => 0
  | passed {h h' : Heap} {n : Nat → Nat} (op : Operation) (hr : AtRest h n)
    (hop : op.isStill = true) (hrun : op.apply h = .ok h') : AtRest h' n

/-- A board that shows all tallies as they are, but for the ways of growing, of which `n` at most are
missing. -/
structure Mirrored (h : Heap) (l : LogicalHeap) (n : Nat) : Prop where
  exact : ∀ f : Field, f.isTally = true → f ≠ .expansions → l.board.words f = h.display l f
  lag : Lag (l.board.words .expansions) l.counters.expansions n

def Mirrors (h : Heap) (n : Nat → Nat) : Prop :=
  ∀ (j : Nat) l, h.heaps[j]? = some l → h.Mirrored l (n j)

variable {h h' k : Heap} {i j x a size capacity : Nat} {l l' : LogicalHeap} {n m : Nat → Nat}
  {f : Field} {target : Generation} {op : Operation}

theorem AtRest.reachable (hr : AtRest h n) : h.Reachable := by
  induction hr with
  | start hpos hrun => exact .start hpos hrun
  | allocated _ hrun ih => exact ih.step (.allocate _ _) (after_eq_ok.2 ⟨_, hrun⟩)
  | refused _ _ hrun ih => exact ih.step (.allocate _ _) (after_eq_ok.2 ⟨_, hrun⟩)
  | published op _ _ _ _ hrun ih => exact ih.step op hrun
  | finalized _ hrun ih => exact ((ih.step .takeReady rfl).run hrun).step (.finishReady _ _) rfl
  | passed op _ _ hrun ih => exact ih.step op hrun

/-! ## What a publication shows -/

/-- Each tally has a field of its length. -/
theorem cut_display (he : l.face.Equipped) (hf : f.isTally = true) :
    cut capacity f (h.display l f) = h.display l f := by
  have hkinds := he.kinds
  simp only [LogicalHeap.face, List.cons.injEq, and_true] at hkinds
  obtain ⟨hdata, hcompactions, hexpansions, hmechanisms⟩ := hkinds
  have harray {room : Nat} {ws : List Nat} (hlength : ws.length = room) : fitting room 1 ws = ws :=
    fitting_of_le (Nat.le_of_eq hlength) (Nat.mod_one _)
  cases f with
  | dataPoints => exact harray hdata
  | compactions => exact harray hcompactions
  | expansions => exact harray hexpansions
  | mechanisms => exact harray hmechanisms
  | budgets | allocated => exact harray rfl
  | segmentCount | readyFinalizers | collectionIndex | backgroundAborts | outOfMemoryTotal
  | markPhase => exact fitting_of_isWord rfl
  | _ => cases hf

theorem Mirrored.mono {n m : Nat} (hm : h.Mirrored l n) (hle : n ≤ m) : h.Mirrored l m :=
  ⟨hm.exact, hm.lag.mono hle⟩

theorem Mirrors.mono (hm : h.Mirrors n) (hle : ∀ j, n j ≤ m j) : h.Mirrors m :=
  fun j l hl => (hm j l hl).mono (hle j)

theorem mirrors_publish (he : ∀ f ∈ h.faces, f.Equipped) : h.publish.Mirrors fun _ => 0 := by
  intro j l' hl'
  rw [heaps_publish, List.getElem?_map] at hl'
  obtain ⟨l, hl, rfl⟩ := Option.map_eq_some_iff.1 hl'
  have hequipped := he l.face (List.mem_map_of_mem (List.mem_of_getElem? hl))
  have hshown {f : Field} (hf : f.isTally = true) : (h.drawn l).words f = h.display l f :=
    (words_drawn hequipped.formed f).trans (cut_display hequipped hf)
  refine ⟨fun f hf _ => (hshown hf).trans ?_, ?_⟩
  · cases f <;> rfl
  · have hexpansions : (h.drawn l).words .expansions = l.counters.expansions := hshown rfl
    show Lag ((h.drawn l).words .expansions) l.counters.expansions 0
    rw [hexpansions]
    exact .refl _

theorem Publishes.mirrors (hp : h.Publishes h') (hr : h.Reachable) : h'.Mirrors fun _ => 0 := by
  obtain ⟨k, rfl, hk⟩ := hp
  refine mirrors_publish fun f hf => ?_
  rw [faces_of_views hk] at hf
  exact (hr.exports f hf).toEquipped

/-- What belongs to no logical heap alone. -/
theorem display_of_shared (hphase : h'.phase = h.phase) (hcollections : h'.collections = h.collections)
    (haborts : h'.statistics.backgroundAborts = h.statistics.backgroundAborts)
    (hf : f.isTally = true) : h'.display l f = h.display l f := by
  cases f with
  | markPhase => simp only [display, hphase]
  | collectionIndex => simp only [display, hcollections]
  | backgroundAborts => simp only [display, haborts]
  | dataPoints | compactions | expansions | mechanisms | budgets | allocated | segmentCount
  | readyFinalizers | outOfMemoryTotal => rfl
  | _ => cases hf

/-- What changes nothing that is shown leaves the mirror as it is. -/
theorem mirrors_of_scene (hscene : h'.scene = h.scene) (hm : h.Mirrors n) : h'.Mirrors n := by
  intro j l' hl'
  have hheaps : h'.heaps.map (·.unqueued) = h.heaps.map (·.unqueued) := congrArg Scene.heaps hscene
  have hj : (h.heaps.map (·.unqueued))[j]? = some l'.unqueued := by
    rw [← hheaps, List.getElem?_map, hl', Option.map_some]
  rw [List.getElem?_map] at hj
  obtain ⟨l, hl, hsame⟩ := Option.map_eq_some_iff.1 hj
  obtain ⟨hexact, hlag⟩ := hm j l hl
  have hqueue {k : Heap} {q : LogicalHeap} {f : Field} : k.display q.unqueued f = k.display q f := by
    cases f <;> rfl
  have hboard : l.board = l'.board := congrArg (·.board) hsame
  have hcounters : l.counters = l'.counters := congrArg (·.counters) hsame
  refine ⟨fun f hf hne => ?_, ?_⟩
  · rw [← hboard, hexact f hf hne, ← hqueue, hsame, hqueue]
    refine (display_of_shared (congrArg Scene.phase hscene) (congrArg Scene.collections hscene) ?_
      hf).symm
    exact congrArg (fun s : Scene => s.statistics.backgroundAborts) hscene
  · rwa [← hboard, ← hcounters]

/-! ## Room in the budget -/

/-- What happens to a heap that is left alone or published in full, without growing. -/
structure Refreshes (h h' : Heap) : Prop where
  reachable : h'.Reachable
  expansions : h'.expansionsAt = h.expansionsAt
  mirrors : h' = h ∨ h'.Mirrors fun _ => 0

theorem Publishes.expansionsAt (hp : h.Publishes h') : h'.expansionsAt = h.expansionsAt := by
  funext j
  have hviews := congrArg (·[j]?) hp.views
  unfold Heap.views at hviews
  simp only [List.map_map, List.getElem?_map] at hviews
  exact hviews

theorem refreshes_apply (op : Operation) (hop : op.publishes = true) (hr : h.Reachable)
    (hrun : op.apply h = .ok h') : h.Refreshes h' := by
  have hr' := hr.step op hrun
  rcases publishes_apply hr.sound hop hrun with rfl | hp
  · exact ⟨hr', rfl, .inl rfl⟩
  · exact ⟨hr', hp.expansionsAt, .inr (hp.mirrors hr)⟩

theorem Refreshes.keep (hf : h.Refreshes h') (hm : h.Mirrors n) : h'.Mirrors n := by
  rcases hf.mirrors with rfl | hzero
  · exact hm
  · exact hzero.mono fun _ => Nat.zero_le _

theorem refreshes_requireBudget {y : Except HeapError Unit} (hr : h.Reachable)
    (hrun : requireBudget i target size h = .ok (y, h')) : h.Refreshes h' := by
  have hframe : Frame fun k k' => k.Reachable → k.Refreshes k' := by
    refine ⟨fun k hk => ⟨hk, rfl, .inl rfl⟩, fun {k k' k''} hfirst hsecond hk => ?_⟩
    obtain ⟨hk', hsame, hmirrors⟩ := hfirst hk
    obtain ⟨hk'', hsame', hmirrors'⟩ := hsecond hk'
    refine ⟨hk'', hsame'.trans hsame, ?_⟩
    rcases hmirrors' with rfl | hzero
    · exact hmirrors
    · exact .inr hzero
  refine steady_requireBudget_of hframe (fun c k k' q hcollect hk => ?_) (fun k k' q hstart hk => ?_)
    (fun k k' q hcomplete hk => ?_) hrun hr
  · exact refreshes_apply (.collect c .allocationBudget) rfl hk (after_eq_ok.2 ⟨q, hcollect⟩)
  · exact refreshes_apply .startBackground rfl hk (after_eq_ok.2 ⟨q, hstart⟩)
  · exact refreshes_apply .completeBackground rfl hk (after_eq_ok.2 ⟨q, hcomplete⟩)

/-! ## A place for an object -/

/-- A search in one logical heap, which may count a way of growing; the others are not touched. -/
structure Seeks (i : Nat) (x : Option Expansion) (h h' : Heap) : Prop where
  others : ∀ j, j ≠ i → h'.heaps[j]? = h.heaps[j]?
  counted : h'.expansionsAt i =
    (h.expansionsAt i).map fun ws => x.elim ws fun x => ws.modify x.index (· + 1)

theorem Seeks.refl (i : Nat) (h : Heap) : h.Seeks i none h :=
  ⟨fun _ _ => rfl, Option.map_id'.symm⟩

theorem Seeks.trans {x : Option Expansion} (hs : h.Seeks i none h') (hs' : h'.Seeks i x k) :
    h.Seeks i x k := by
  refine ⟨fun j hj => (hs'.others j hj).trans (hs.others j hj), ?_⟩
  rw [hs'.counted, hs.counted, Option.map_map]
  rfl

theorem Seeks.trans_none {x : Option Expansion} (hs : h.Seeks i x h') (hs' : h'.Seeks i none k) :
    h.Seeks i x k := by
  refine ⟨fun j hj => (hs'.others j hj).trans (hs.others j hj), ?_⟩
  rw [hs'.counted, hs.counted, Option.map_map]
  rfl

theorem seeks_modifyHeap {f : LogicalHeap → LogicalHeap} {x : Option Expansion}
    (hf : ∀ l, (f l).counters.expansions =
      x.elim l.counters.expansions fun x => l.counters.expansions.modify x.index (· + 1)) :
    h.Seeks i x (h.modifyHeap i f) := by
  refine ⟨fun j hj => ?_, ?_⟩
  · show (h.heaps.modify i f)[j]? = _
    rw [List.getElem?_modify_ne _ _ hj.symm]
  · show ((h.heaps.modify i f)[i]?).map _ = _
    rw [List.getElem?_modify_eq, Option.map_eq_map, Option.map_map, expansionsAt, Option.map_map]
    exact Option.map_congr fun l _ => hf l

theorem seeks_withArena (arena : SegmentArena) : h.Seeks i none (h.withArena i arena) := by
  obtain ⟨hothers, hcounted⟩ := seeks_modifyHeap (h := h) (i := i) (x := none)
    (f := fun l => { l with segments := arena.table }) fun _ => rfl
  exact ⟨hothers, hcounted⟩

theorem seeks_onArena {α : Type} {t : Transition SegmentArena α} {q : Except HeapError α}
    (hrun : onArena i t h = .ok (q, h')) : h.Seeks i none h' := by
  cases hl : h.heaps[i]? with
  | none =>
    simp only [onArena, fetchHeap, hl, Effect.get_bind, Transition.ofExcept_bind] at hrun
    cases hrun
    exact .refl i h
  | some l =>
    obtain ⟨arena, _, rfl⟩ := (onArena_eq_ok hl).1 hrun
    exact seeks_withArena arena

theorem seeks_countExpansion (x : Expansion) : h.Seeks i (some x) (h.countExpansion i x) :=
  seeks_modifyHeap fun _ => rfl

theorem seeks_in_new {y : Except OutOfMemory.Reason (Nat × Nat)}
    (hp : PlacesInNew i target size h y h') : ∃ x, h.Seeks i x h' := by
  cases hp with
  | without _ hgrow => exact ⟨_, (seeks_onArena hgrow).trans (seeks_countExpansion _)⟩
  | grown x hgrow hbump =>
    have hcounted := (seeks_onArena hgrow).trans (seeks_countExpansion x)
    exact ⟨_, hcounted.trans_none (seeks_onArena hbump)⟩

theorem seeks_tryPlace {y : Except HeapError (Except OutOfMemory.Reason (Nat × Nat))}
    (hrun : tryPlace i target size h = .ok (y, h')) : ∃ x, h.Seeks i x h' := by
  obtain ⟨q, hplace, rfl⟩ := tryPlace_stages.1 hrun
  rcases place_cases hplace with ⟨_, _, rfl⟩ | ⟨_, hp⟩
  · exact ⟨_, .refl i _⟩
  · cases hp with
    | nowhere => exact ⟨_, .refl i h⟩
    | span => exact ⟨_, seeks_withArena _⟩
    | behind _ _ _ hbump _ => exact ⟨_, seeks_onArena hbump⟩
    | ahead _ _ hseg hnew =>
      obtain ⟨x, hsought⟩ := seeks_in_new hnew
      rcases hseg with ⟨_, rfl⟩ | ⟨id, _, hbump⟩
      · exact ⟨x, hsought⟩
      · exact ⟨x, (seeks_onArena hbump).trans hsought⟩

/-- What a search does not change in a logical heap. -/
theorem seeks_unplaced (hrefits : h.Refits h') (hl' : h'.heaps[i]? = some l') :
    ∃ l, h.heaps[i]? = some l ∧ l.unplaced = l'.unplaced := by
  have hi : (h.heaps.map (·.unplaced))[i]? = some l'.unplaced := by
    rw [← hrefits.heaps, List.getElem?_map, hl', Option.map_some]
  rw [List.getElem?_map] at hi
  exact Option.map_eq_some_iff.1 hi

/-- How many times a logical heap has grown or failed to. -/
def grown (h : Heap) (j : Nat) : Nat := ((h.expansionsAt j).getD []).sum

/-- Each way of growing has a counter. -/
theorem Reachable.expansions (hr : h.Reachable) (hl : h.heaps[i]? = some l) (x : Expansion) :
    x.index < l.counters.expansions.length := by
  have hkinds := (hr.exports l.face (List.mem_map_of_mem (List.mem_of_getElem? hl))).kinds
  simp only [LogicalHeap.face, List.cons.injEq] at hkinds
  rw [hkinds.2.2.1]
  cases x <;> decide

theorem Seeks.grown {x : Option Expansion} (hr : h.Reachable) (hs : h.Seeks i x h') (j : Nat) :
    h'.expansionsAt j = h.expansionsAt j ∨ h'.grown j = h.grown j + 1 := by
  by_cases hj : j = i
  · subst hj
    cases x with
    | none => exact .inl (hs.counted.trans Option.map_id')
    | some x =>
      cases hl : h.heaps[j]? with
      | none =>
        refine .inl ?_
        rw [hs.counted, expansionsAt, hl]
        rfl
      | some l =>
        refine .inr ?_
        rw [Heap.grown, hs.counted, Heap.grown, expansionsAt, hl]
        exact sum_modify_succ (hr.expansions hl x)
  · refine .inl ?_
    rw [expansionsAt, hs.others j hj, expansionsAt]

/-- The tallies that neither a search nor an object that is put where it found room changes. -/
theorem display_of_unplaced (hsame : l'.unplaced = l.unplaced) (hf : f.isTally = true)
    (hne : f ≠ .expansions) (hother : f.ofAllocation = false) : h.display l' f = h.display l f := by
  have hunplaced (q : LogicalHeap) : h.display q.unplaced f = h.display q f := by
    cases f with
    | expansions => exact absurd rfl hne
    | allocated | segmentCount => cases hother
    | dataPoints | compactions | mechanisms | budgets | readyFinalizers | collectionIndex
    | backgroundAborts | outOfMemoryTotal | markPhase => rfl
    | _ => cases hf
  rw [← hunplaced, hsame, hunplaced]

/-- How an object that is put in a logical heap changes what is shown. -/
structure Installs (i : Nat) (h h' : Heap) : Prop where
  phase : h'.phase = h.phase
  collections : h'.collections = h.collections
  aborts : h'.statistics.backgroundAborts = h.statistics.backgroundAborts
  heaps : h.heaps[i]? = none ∧ h'.heaps = h.heaps ∨ ∃ l budgets finalization,
    h.heaps[i]? = some l ∧ budgets.map (·.budget) = l.budgets.map (·.budget) ∧
      finalization.ready = l.finalization.ready ∧
      h'.heaps = h.heaps.set i ({ l with budgets, finalization } : LogicalHeap).publishAllocation

theorem installs_install {request : AllocRequest}
    (hrun : install i request target size a x h = .ok h') : h.Installs i h' := by
  simp only [install, Statistics.recordAllocation, Checked.bind_eq_ok, Checked.pure_eq_ok] at hrun
  obtain ⟨space, _, _, ⟨total, _, rfl⟩, hrun⟩ := hrun
  have hphase : ((h.background.map (BackgroundMark.allocateBlack · a)).map (·.phase)).getD
      h.pausePhase = h.phase := by
    rw [Option.map_map]
    exact congrArg (·.getD h.pausePhase)
      (Option.map_congr fun b _ => BackgroundMark.phase_allocateBlack b a)
  rcases updateHeap_cases hrun with ⟨hnone, rfl⟩ | ⟨l, l', hl, hl', rfl⟩
  · exact ⟨hphase, rfl, rfl, .inl ⟨hnone, rfl⟩⟩
  · simp only [Checked.bind_eq_ok, Checked.pure_eq_ok] at hl'
    obtain ⟨budgets, hbudgets, rfl⟩ := hl'
    refine ⟨hphase, rfl, rfl, .inr ⟨l, budgets, _, hl, BudgetTable.map_budget_charge hbudgets, ?_, rfl⟩⟩
    split <;> rfl

theorem Installs.expansionsAt (hs : h.Installs i h') : h'.expansionsAt = h.expansionsAt := by
  funext j
  unfold Heap.expansionsAt
  rcases hs.heaps with ⟨_, hsame⟩ | ⟨l, _, _, hl, _, _, hset⟩
  · rw [hsame]
  · rw [hset, List.getElem?_set]
    split
    next hij =>
      subst hij
      rw [if_pos (List.getElem?_eq_some_iff.1 hl).1, hl]
      rfl
    · rfl

/-- The publication after an allocation shows all that the allocation changes, but for a way of
growing. -/
theorem mirrored_publishAllocation {n m : Nat} {p q : LogicalHeap} (hm : h.Mirrored l n)
    (he : q.face.Equipped) (hp : p.unplaced = l.unplaced) (hface : q.face = p.face)
    (hsame : ∀ f : Field, f.isTally = true → f ≠ .expansions → f.ofAllocation = false →
      h'.display q f = h.display p f)
    (hlag : Lag (l.board.words .expansions) q.counters.expansions m) :
    h'.Mirrored q.publishAllocation m := by
  have hboard : q.board = l.board :=
    (congrArg (·.board) hface).trans (congrArg (·.board) hp)
  have hpublished (f : Field) : h'.display q.publishAllocation f = h'.display q f := by
    cases f <;> rfl
  refine ⟨fun f hf hne => ?_, ?_⟩
  · rw [hpublished]
    cases hallocation : f.ofAllocation with
    | true =>
      rw [words_publishAllocation (h := h') he.formed hallocation, cut_display he hf]
    | false =>
      rw [words_publishAllocation_of_ne hallocation, hboard, hm.exact f hf hne, hsame f hf hne
        hallocation, display_of_unplaced hp hf hne hallocation]
  · rw [words_publishAllocation_of_ne rfl, hboard]
    exact hlag

/-- An object that is put where a search has found room: the board of its logical heap shows all that
has changed, but for a way of growing. -/
theorem mirrors_placed {request : AllocRequest} (hr : h.Reachable) (hm : h.Mirrors n)
    {y : Except HeapError (Except OutOfMemory.Reason (Nat × Nat))}
    (hplace : tryPlace i target size h = .ok (y, k))
    (hinstall : install i request target size a x k = .ok h') :
    h'.Mirrors fun j => if h'.expansionsAt j = h.expansionsAt j then n j else n j + 1 := by
  have hk : k.Reachable := hr.step (.findBlock i target size) (after_eq_ok.2 ⟨y, hplace⟩)
  have hrefits := refits_tryPlace hplace
  obtain ⟨expansion, hseeks⟩ := seeks_tryPlace hplace
  obtain ⟨hphase, hcollections, haborts, hheaps⟩ := installs_install hinstall
  rw [hrefits.rest] at hphase hcollections haborts
  have hshared {l : LogicalHeap} {f : Field} (hf : f.isTally = true) :
      h'.display l f = h.display l f := display_of_shared hphase hcollections haborts hf
  have hcount (b : Prop) [Decidable b] (c : Nat) : c ≤ if b then c else c + 1 := by
    split <;> omega
  intro j l' hl'
  by_cases hj : j = i
  · subst hj
    rcases hheaps with ⟨hnone, hsame⟩ | ⟨p, budgets, finalization, hp, hbudgets, hready, hset⟩
    · rw [hsame, hnone] at hl'
      cases hl'
    · rw [hset, List.getElem?_set_self (List.getElem?_eq_some_iff.1 hp).1, Option.some.injEq] at hl'
      subst hl'
      obtain ⟨l, hl, hsame⟩ := seeks_unplaced hrefits hp
      have hequipped := (hk.exports p.face (List.mem_map_of_mem (List.mem_of_getElem? hp))).toEquipped
      refine mirrored_publishAllocation (hm j l hl) hequipped hsame.symm rfl (fun f hf _ hkept => ?_) ?_
      · refine (hshared hf).trans ?_
        cases f with
        | budgets => simp only [display, hbudgets]
        | readyFinalizers => simp only [display, FinalizationQueue.readyCount, hready]
        | allocated => cases hkept
        | _ => rfl
      · have hnow : h'.expansionsAt j = some p.counters.expansions := by
          rw [expansionsAt, hset, List.getElem?_set_self (List.getElem?_eq_some_iff.1 hp).1]
          rfl
        have hthen : h.expansionsAt j = some l.counters.expansions := by
          rw [expansionsAt, hl, Option.map_some]
        have hfound : k.expansionsAt j = some p.counters.expansions := by
          rw [expansionsAt, hp, Option.map_some]
        have hcounted := hseeks.counted
        rw [hfound, hthen, Option.map_some, Option.some.injEq] at hcounted
        have hlag := (hm j l hl).lag
        show Lag _ p.counters.expansions (if _ = _ then n j else n j + 1)
        rw [hnow, hthen]
        split
        next heq => exact Option.some.inj heq ▸ hlag
        next hne =>
          cases expansion with
          | none => exact absurd (congrArg some hcounted) hne
          | some x => exact hcounted ▸ hlag.modify (hr.expansions hl x)
  · have hold : h.heaps[j]? = some l' := by
      rw [← hseeks.others j hj]
      rcases hheaps with ⟨_, hsame⟩ | ⟨_, _, _, _, _, _, hset⟩
      · rw [← hsame, hl']
      · rw [hset, List.getElem?_set_ne (Ne.symm hj)] at hl'
        exact hl'
    obtain ⟨hexact, hlag⟩ := hm j l' hold
    exact ⟨fun f hf hne => (hexact f hf hne).trans (hshared hf).symm, hlag.mono (hcount _ _)⟩

/-! ## Allocations -/

/-- An allocation that succeeds leaves all as shown, but for a way in which it grows a logical heap. -/
theorem mirrors_allocate {request : AllocRequest} (hr : h.Reachable) (hm : h.Mirrors n)
    (hrun : allocate i request h = .ok (.ok a, h')) :
    h'.Mirrors fun j => if h'.expansionsAt j = h.expansionsAt j then n j else n j + 1 := by
  cases allocate_cases hrun with
  | @installed size h₁ _ x h₂ _ hi hsize hbudget hplace hinstall =>
    have hfresh := refreshes_requireBudget hr hbudget
    rw [← hfresh.expansions]
    rcases placeOrCollect_cases hplace with ⟨p, _, hfirst⟩ | ⟨first, k₁, hfirst, hrest⟩
    · exact mirrors_placed hfresh.reachable (hfresh.keep hm) hfirst hinstall
    · rcases hrest with ⟨e, he, _⟩ | ⟨summary, k₂, hcollect, hrest⟩
      · cases he
      rcases hrest with ⟨p, _, hsecond⟩ | ⟨reason, k₃, _, hfail⟩
      · have hk₁ := hfresh.reachable.step (.findBlock _ _ _) (after_eq_ok.2 ⟨_, hfirst⟩)
        have hk₂ := hk₁.step (.collect _ _) (after_eq_ok.2 ⟨_, hcollect⟩)
        have hpublished := publishes_collect hcollect
        refine (mirrors_placed hk₂ (hpublished.mirrors hk₁) hsecond hinstall).mono fun j => ?_
        -- what the first search counts is published, but makes a difference to the heap before it
        obtain ⟨y₁, hseeks₁⟩ := seeks_tryPlace hfirst
        obtain ⟨y₂, hseeks₂⟩ := seeks_tryPlace hsecond
        have hgrown₁ := hseeks₁.grown hfresh.reachable j
        have hgrown₂ := hseeks₂.grown hk₂ j
        unfold Heap.grown at hgrown₁ hgrown₂
        rw [(installs_install hinstall).expansionsAt]
        rw [hpublished.expansionsAt] at hgrown₂ ⊢
        rcases hgrown₂ with hsame | hmore
        · rw [if_pos hsame]
          exact Nat.zero_le _
        · have hne : h₂.expansionsAt j ≠ h₁.expansionsAt j := by
            intro heq
            rw [heq] at hmore
            rcases hgrown₁ with hsame | hmore₁
            · rw [hsame] at hmore
              omega
            · omega
          rw [if_neg hne]
          split <;> omega
      · obtain ⟨⟨e, he⟩, _⟩ := memory_fail hfail
        cases he

/-- A failure is published in full. -/
theorem mirrors_fail {α : Type} {reason : OutOfMemory.Reason} {y : Except HeapError α}
    (hr : h.Reachable) (hrun : fail i reason size target h = .ok (y, h')) :
    h'.Mirrors fun _ => 0 := by
  obtain ⟨k, rfl, hk⟩ := publishes_fail (fun f hf => (hr.exports f hf).toEquipped) hrun
  exact mirrors_publish hk

/-- A request that is refused ends with its failure on record and published. -/
theorem mirrors_refused {request : AllocRequest} {e : HeapError} (hr : h.Reachable)
    (hi : i < h.config.heapCount) (hrun : allocate i request h = .ok (.error e, h')) :
    h'.Mirrors fun _ => 0 := by
  cases allocate_cases hrun with
  | unknown hnot => exact absurd hi hnot
  | oversized _ _ hfail => exact mirrors_fail hr hfail
  | uncollected _ _ hbudget =>
    obtain ⟨⟨_, he⟩, _⟩ := leads_requireBudget hr.sound hbudget
    cases he
  | unplaced _ _ hbudget hplace =>
    have hk := (refreshes_requireBudget hr hbudget).reachable
    rcases placeOrCollect_cases hplace with ⟨_, he, _⟩ | ⟨first, k₁, hfirst, hrest⟩
    · cases he
    have hk₁ := hk.step (.findBlock _ _ _) (after_eq_ok.2 ⟨_, hfirst⟩)
    rcases hrest with ⟨e, _, hcollect⟩ | ⟨summary, k₂, hcollect, hrest⟩
    · obtain ⟨⟨_, he⟩, _⟩ := leads_collect hk₁.sound hcollect
      cases he
    have hk₂ := hk₁.step (.collect _ _) (after_eq_ok.2 ⟨_, hcollect⟩)
    rcases hrest with ⟨_, he, _⟩ | ⟨reason, k₃, hsecond, hfail⟩
    · cases he
    · exact mirrors_fail (hk₂.step (.findBlock _ _ _) (after_eq_ok.2 ⟨_, hsecond⟩)) hfail

/-! ## All operations -/

theorem AtRest.mirrors (hr : AtRest h n) : h.Mirrors n := by
  induction hr with
  | start hpos hrun =>
    obtain ⟨k, rfl, hk⟩ := publishes_onRange hrun
    exact mirrors_publish hk
  | allocated hr hrun ih => exact mirrors_allocate hr.reachable ih hrun
  | refused hr hi hrun _ => exact mirrors_refused hr.reachable hi hrun
  | published op hr hop _ hdone hrun _ =>
    rcases publishes_apply hr.reachable.sound hop hrun with he | hp
    · exact absurd he hdone
    · exact hp.mirrors hr.reachable
  | finalized hr hrun _ =>
    exact (publishes_finishReady _ _).mirrors ((hr.reachable.step .takeReady rfl).run hrun)
  | passed op _ hop hrun ih => exact mirrors_of_scene (scene_apply hop hrun) ih

/-- Every operation of the embedder leads from rest to rest. -/
theorem AtRest.exists_step (hr : AtRest h n) (hop : op.isWhole = true) (hrun : op.apply h = .ok h') :
    ∃ m, AtRest h' m := by
  have hpublished (hp : op.publishes = true) (hown : ∀ batch report, op ≠ .finishReady batch report) :
      ∃ m, AtRest h' m := by
    by_cases hdone : h' = h
    · exact ⟨n, hdone ▸ hr⟩
    · exact ⟨_, hr.published op hp hown hdone hrun⟩
  cases op with
  | allocate i request =>
    obtain ⟨y, hrun⟩ := after_eq_ok.1 hrun
    cases y with
    | ok a => exact ⟨_, hr.allocated hrun⟩
    | error e =>
      by_cases hi : i < h.config.heapCount
      · exact ⟨_, hr.refused hi hrun⟩
      · unfold allocate at hrun
        rw [Effect.get_bind, if_neg hi] at hrun
        cases hrun
        exact ⟨n, hr⟩
  | collect | startBackground | completeBackground | abortBackground | analyze =>
    exact hpublished rfl nofun
  | findBlock | takeReady | finishReady => cases hop
  | _ => exact ⟨n, hr.passed _ rfl hrun⟩

theorem AtRest.exists_run {ops : List Operation} (hr : AtRest h n)
    (hops : ∀ op ∈ ops, op.isWhole = true) (hrun : h.run ops = .ok h') : ∃ m, AtRest h' m :=
  Checked.foldlM_induct (fun k => ∃ m, AtRest k m)
    (fun _ op _ hop ⟨_, hk⟩ hstep => hk.exists_step (hops op hop) hstep) ⟨n, hr⟩ hrun

/-! ## What is read -/

/-- What a reader gets for a field. -/
def ReadsAs (h : Heap) (i : Nat) (name : String) (tag : TypeTag) (v : FieldValue) : Prop :=
  (h.source.read i name tag).map (·.value) = .ok v

theorem readsAs_words (hl : h.heaps[i]? = some l) (hf : f.isTally = true) :
    h.ReadsAs i f.name f.descriptor.tag (.ofWords f.descriptor (l.board.words f)) := by
  have hknown : f.isKnownIn h.source.version = true := by
    cases f <;> rfl
  have havailable : f.isAvailable h.source.capabilities = true := by
    cases f <;> first | rfl | cases hf
  unfold ReadsAs
  rw [Diagnostics.Source.read_eq (heaps_source hl), Diagnostics.Source.lookUp_eq hknown havailable]
  rfl

theorem readsAs_display (hr : AtRest h n) (hl : h.heaps[i]? = some l) (hf : f.isTally = true)
    (hne : f ≠ .expansions) :
    h.ReadsAs i f.name f.descriptor.tag (.ofWords f.descriptor (h.display l f)) := by
  rw [← (hr.mirrors i l hl).exact f hf hne]
  exact readsAs_words hl hf

/-- Between operations a reader gets the counts, budgets and states of a logical heap as they are. Of
the ways of growing it gets no more than there are; missing is at most one for each allocation that has
grown the logical heap since the last operation that ended with a full publication. -/
theorem mirror_agrees (hr : AtRest h n) (hl : h.heaps[i]? = some l) :
    h.ReadsAs i "interesting_data_per_heap" .size (.array l.counters.dataPoints) ∧
    h.ReadsAs i "compact_reasons_per_heap" .size (.array l.counters.compactions) ∧
    h.ReadsAs i "interesting_mechanism_bits_per_heap" .size (.array l.counters.mechanisms) ∧
    h.ReadsAs i "generation_budgets" .size (.array (l.budgets.map (·.budget)).toList) ∧
    h.ReadsAs i "generation_allocated" .size (.array (l.budgets.map (·.allocated)).toList) ∧
    h.ReadsAs i "segment_count" .size (.scalar l.segments.count) ∧
    h.ReadsAs i "finalize_ready_count" .size (.scalar l.finalization.readyCount) ∧
    h.ReadsAs i "gc_index" .size (.scalar h.collections) ∧
    h.ReadsAs i "concurrent_mark_aborts" .size (.scalar h.statistics.backgroundAborts) ∧
    h.ReadsAs i "oom_total" .size (.scalar l.failures.total) ∧
    h.ReadsAs i "mark_phase" .phase (.scalar h.phase.code) ∧
    ∃ shown, h.ReadsAs i "expand_mechanisms_per_heap" .size (.array shown) ∧
      Lag shown l.counters.expansions (n i) ∧ (n i = 0 → shown = l.counters.expansions) := by
  have hlag := (hr.mirrors i l hl).lag
  refine ⟨readsAs_display (f := .dataPoints) hr hl rfl nofun,
    readsAs_display (f := .compactions) hr hl rfl nofun,
    readsAs_display (f := .mechanisms) hr hl rfl nofun,
    readsAs_display (f := .budgets) hr hl rfl nofun,
    readsAs_display (f := .allocated) hr hl rfl nofun,
    readsAs_display (f := .segmentCount) hr hl rfl nofun,
    readsAs_display (f := .readyFinalizers) hr hl rfl nofun,
    readsAs_display (f := .collectionIndex) hr hl rfl nofun,
    readsAs_display (f := .backgroundAborts) hr hl rfl nofun,
    readsAs_display (f := .outOfMemoryTotal) hr hl rfl nofun,
    readsAs_display (f := .markPhase) hr hl rfl nofun,
    _, readsAs_words (f := .expansions) hl rfl, hlag, fun hzero => ?_⟩
  rw [hzero] at hlag
  exact hlag.exact

/-- The first object needs a segment: it is on the board, the way in which the heap got it may not be. -/
theorem mirror_agrees_grown : ∃ h n l, AtRest h n ∧ h.heaps[0]? = some l ∧
    h.ReadsAs 0 "segment_count" .size (.scalar 1) ∧
    h.ReadsAs 0 "generation_allocated" .size (.array [48, 0, 0, 0, 0]) ∧
    ∃ shown, h.ReadsAs 0 "expand_mechanisms_per_heap" .size (.array shown) ∧
      Lag shown [0, 1, 0, 0, 0, 0, 0] (n 0) := by
  have hpage : leadsTo pageConfig [.allocate 0 { size := 48 }]
      (fun h => h.heaps.map (fun l => (l.counters.expansions, l.segments.count,
        (l.budgets.map (·.allocated)).toList)) == [([0, 1, 0, 0, 0, 0, 0], 1, [48, 0, 0, 0, 0])])
      = true := by
    decide +kernel
  obtain ⟨h₀, h, hstart, hrun, hp⟩ := run_of_leadsTo hpage
  have hpos := Config.addressSpaceBase_pos (validate_of_onRange hstart)
  obtain ⟨n, hr⟩ := (AtRest.start hpos hstart).exists_run (by decide) hrun
  rw [beq_iff_eq] at hp
  obtain ⟨l, rest, hl, htallies, _⟩ := List.map_eq_cons_iff.1 hp
  rw [Prod.mk.injEq, Prod.mk.injEq] at htallies
  obtain ⟨hexpansions, hcount, hallocated⟩ := htallies
  have hfirst : h.heaps[0]? = some l := by
    rw [hl]
    rfl
  obtain ⟨_, _, _, _, hread, hsegments, _, _, _, _, _, shown, hshown, hlag, _⟩ :=
    mirror_agrees hr hfirst
  exact ⟨h, n, l, hr, hfirst, hcount ▸ hsegments, hallocated ▸ hread, shown, hshown,
    hexpansions ▸ hlag⟩

/-- After the first allocation the heap has counted a new segment, and a reader is told of none. -/
theorem expansions_unshown : ∃ h n l, AtRest h n ∧ h.heaps[0]? = some l ∧
    h.ReadsAs 0 "expand_mechanisms_per_heap" .size (.array [0, 0, 0, 0, 0, 0, 0]) ∧
    l.counters.expansions = [0, 1, 0, 0, 0, 0, 0] := by
  have hpage : leadsTo pageConfig [.allocate 0 { size := 48 }]
      (fun h => h.heaps.map (fun l => (l.counters.expansions, l.board.words .expansions)) ==
        [([0, 1, 0, 0, 0, 0, 0], [0, 0, 0, 0, 0, 0, 0])]) = true := by
    decide +kernel
  obtain ⟨h₀, h, hstart, hrun, hp⟩ := run_of_leadsTo hpage
  have hpos := Config.addressSpaceBase_pos (validate_of_onRange hstart)
  obtain ⟨n, hr⟩ := (AtRest.start hpos hstart).exists_run (by decide) hrun
  rw [beq_iff_eq] at hp
  obtain ⟨l, rest, hl, hexpansions, _⟩ := List.map_eq_cons_iff.1 hp
  rw [Prod.mk.injEq] at hexpansions
  obtain ⟨hcounted, hwords⟩ := hexpansions
  have hfirst : h.heaps[0]? = some l := by
    rw [hl]
    rfl
  exact ⟨h, n, l, hr, hfirst, hwords ▸ readsAs_words (f := .expansions) hfirst rfl, hcounted⟩

end Heap

end GenHeap
