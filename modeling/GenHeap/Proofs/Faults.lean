import GenHeap.BackgroundMark
import GenHeap.Budget
import GenHeap.Counters
import GenHeap.HandleTable
import GenHeap.Proofs.Effect
import GenHeap.SegmentTable
import GenHeap.Statistics

/-!
The parts of a heap do not judge it: whatever faults they end in, it is not that of a heap that was
found corrupt. There is one lemma for each part, and `simp` puts them together.
-/

namespace GenHeap

variable {ε σ τ α β : Type}

namespace Checked

/-- The computation does not find a heap corrupt. -/
def Intact (c : Checked α) : Prop := c ≠ .error .corruptHeap

variable {c d : Checked α} {f : α → Checked β}

@[simp] theorem intact_ok (a : α) : Intact (.ok a : Checked α) := nofun

@[simp] theorem intact_pure (a : α) : Intact (pure a : Checked α) := nofun

@[simp] theorem intact_error (e : Fault) :
    Intact (.error e : Checked α) ↔ e ≠ .corruptHeap := by
  simp [Intact]

@[simp] theorem intact_throw (e : Fault) :
    Intact (throw e : Checked α) ↔ e ≠ .corruptHeap := intact_error e

@[simp] theorem intact_bind :
    (c >>= f).Intact ↔ c.Intact ∧ ∀ a, c = .ok a → (f a).Intact := by
  cases c with
  | error e => simp [Intact, bind, Except.bind]
  | ok a => simp [Intact, bind, Except.bind]

@[simp] theorem intact_map {f : α → β} : (f <$> c).Intact ↔ c.Intact := by
  cases c with
  | error e => simp [Intact, Functor.map, Except.map]
  | ok a => simp [Intact, Functor.map, Except.map]

@[simp] theorem intact_ite {p : Prop} [Decidable p] :
    (if p then c else d).Intact ↔ (p → c.Intact) ∧ (¬ p → d.Intact) := by
  split <;> simp [*]

@[simp] theorem intact_foldlM {f : β → α → Checked β} (h : ∀ b a, (f b a).Intact) (xs : List α)
    (b : β) : (xs.foldlM f b).Intact := by
  induction xs generalizing b with
  | nil => simp
  | cons a xs ih => simp [List.foldlM_cons, h, ih]

@[simp] theorem intact_mapM {f : α → Checked β} (h : ∀ a, (f a).Intact) (xs : List α) :
    (xs.mapM f).Intact := by
  induction xs with
  | nil => simp
  | cons a xs ih => simp [h, ih]

@[simp] theorem intact_findM? {f : α → Checked Bool} (h : ∀ a, (f a).Intact) (xs : List α) :
    (xs.findM? f).Intact := by
  induction xs with
  | nil => simp
  | cons a xs ih =>
    rw [List.findM?, intact_bind]
    refine ⟨h a, fun found _ => ?_⟩
    cases found with
    | true => exact intact_pure _
    | false => exact ih

end Checked

open Checked (Intact)

namespace Effect

variable {t : Effect ε σ α} {u : Effect ε σ α} {f : α → Effect ε σ β} {s : σ}

@[simp] theorem intact_bind : Intact ((t >>= f) s) ↔
    Intact (t s) ∧ ∀ a s', t s = .ok (.ok a, s') → Intact (f a s') := by
  show Intact (StateT.bind (ExceptT.run t) _ s) ↔ _
  unfold StateT.bind
  rw [Checked.intact_bind]
  refine and_congr_right fun _ => ⟨fun h a s' hrun => h (.ok a, s') hrun, ?_⟩
  rintro h ⟨q, s'⟩ hrun
  cases q with
  | ok a => exact h a s' hrun
  | error e => exact Checked.intact_ok _

@[simp] theorem intact_ite {p : Prop} [Decidable p] :
    Intact ((if p then t else u) s) ↔ (p → Intact (t s)) ∧ (¬ p → Intact (u s)) := by
  split <;> simp [*]

@[simp] theorem intact_get : Intact ((get : Effect ε σ σ) s) := nofun

@[simp] theorem intact_set (x : σ) : Intact ((set x : Effect ε σ PUnit) s) := nofun

@[simp] theorem intact_modify (g : σ → σ) : Intact ((modify g : Effect ε σ PUnit) s) := nofun

@[simp] theorem intact_pure (a : α) : Intact ((pure a : Effect ε σ α) s) := nofun

@[simp] theorem intact_map {f : α → β} : Intact ((f <$> t) s) ↔ Intact (t s) := by
  rw [map_eq_pure_bind, intact_bind]
  simp

@[simp] theorem intact_throw (e : ε) : Intact ((throw e : Effect ε σ α) s) := nofun

@[simp] theorem intact_lift {c : Checked α} : Intact ((liftM c : Effect ε σ α) s) ↔ c.Intact := by
  rw [lift_apply]
  simp

@[simp] theorem intact_foldlM {f : β → α → Effect ε σ β} (h : ∀ b a s, Intact (f b a s))
    (xs : List α) (b : β) (s : σ) : Intact (xs.foldlM f b s) := by
  induction xs generalizing b s with
  | nil => simp
  | cons a xs ih => simp [List.foldlM_cons, h, ih]

@[simp] theorem intact_forM {f : α → Effect ε σ PUnit} (h : ∀ a s, Intact (f a s)) (xs : List α)
    (s : σ) : Intact (forM xs f s) := by
  induction xs generalizing s with
  | nil => exact intact_pure _
  | cons a xs ih =>
    rw [List.forM_cons, intact_bind]
    exact ⟨h a s, fun _ s' _ => ih s'⟩

end Effect

namespace Transition

@[simp] theorem intact_ofExcept (r : Except HeapError α) (s : σ) :
    Intact (ofExcept r s : Checked (Except HeapError α × σ)) := nofun

@[simp] theorem intact_onPart {get : σ → τ} {put : τ → σ → σ} {t : Transition τ α} {s : σ} :
    Intact (t.onPart get put s) ↔ Intact (t (get s)) := by
  show Intact (t (get s) >>= fun x => pure (x.1, put x.2 s)) ↔ _
  simp

end Transition

/-! ## Words, ranges and the provider -/

namespace Word

variable {a b n : Nat}

@[simp] theorem intact_fit : Intact (fit n) := by
  unfold fit
  split <;> simp

@[simp] theorem intact_add : Intact (add a b) := intact_fit

@[simp] theorem intact_mul : Intact (mul a b) := intact_fit

@[simp] theorem intact_sub : Intact (sub a b) := by
  unfold sub
  split <;> simp

@[simp] theorem intact_alignUp : Intact (alignUp a b) := by simp [alignUp]

@[simp] theorem intact_alignUp? : Intact (alignUp? a b) := by simp [alignUp?]

end Word

namespace AddressRange

@[simp] theorem intact_stop (r : AddressRange) : Intact r.stop := Word.intact_add

@[simp] theorem intact_contains (r : AddressRange) (a : Nat) : Intact (r.contains a) := by
  simp [contains]

end AddressRange

namespace AddressSpace

variable {size alignment : Nat} {s : AddressSpace}

@[simp] theorem intact_fit? (hole : AddressRange) : Intact (fit? size alignment hole) := by
  unfold fit?
  rw [Checked.intact_bind]
  refine ⟨Word.intact_alignUp?, fun start _ => ?_⟩
  cases start with
  | none => simp
  | some start =>
    dsimp only
    split <;> simp

@[simp] theorem intact_firstFit? (holes : List AddressRange) (i : Nat) :
    Intact (firstFit? size alignment holes i) := by
  induction holes generalizing i with
  | nil => simp [firstFit?]
  | cons hole holes ih =>
    rw [firstFit?, Checked.intact_bind]
    refine ⟨intact_fit? hole, fun place _ => ?_⟩
    cases place with
    | none => exact ih (i + 1)
    | some p => simp

@[simp] theorem intact_reserve : Intact (reserve size alignment s) := by
  simp [reserve, Effect.get_bind, Effect.lift_bind, Option.forall]
  intro _ _ start _
  cases Word.add? start size <;> simp [Effect.lift_bind]

@[simp] theorem intact_commit (r : AddressRange) : Intact (commit r s) := by simp [commit]

end AddressSpace

namespace Provider

variable {p : Provider}

@[simp] theorem intact_enter (call : ProviderCall) (r : AddressRange) :
    Intact (enter call r p) := by
  simp [enter]

@[simp] theorem intact_reserve (size alignment : Nat) : Intact (reserve size alignment p) := by
  simp [reserve, onSpace]

@[simp] theorem intact_commit (r : AddressRange) : Intact (commit r p) := by
  simp [commit, onSpace]

@[simp] theorem intact_decommit (r : AddressRange) : Intact (decommit r p) := by simp [decommit]

@[simp] theorem intact_release (r : AddressRange) : Intact (release r p) := by simp [release]

end Provider

/-! ## Objects and segments -/

namespace ObjectSpace

variable {space : ObjectSpace}

@[simp] theorem intact_insert (a : Nat) (r : Record) : Intact (space.insert a r) := by simp [insert]

@[simp] theorem intact_startingIn (start stop : Nat) : Intact (space.startingIn start stop) := by
  simp [startingIn]

@[simp] theorem intact_straddling (a : Nat) : Intact (space.straddling a) := by
  unfold straddling
  split <;> simp

@[simp] theorem intact_overlapping (start stop : Nat) : Intact (space.overlapping start stop) := by
  simp [overlapping]

end ObjectSpace

@[simp] theorem Object.intact_slotAddress (object slot : Nat) :
    Intact (slotAddress object slot) := by
  simp [slotAddress]

@[simp] theorem FreeSpan.intact_takeFirst? (size : Nat) (spans : List FreeSpan) :
    Intact (takeFirst? size spans) := by
  induction spans with
  | nil => simp [takeFirst?]
  | cons span spans ih => simp [takeFirst?, ih]

namespace Segment

variable {s : Segment} {space : ObjectSpace}

@[simp] theorem intact_reservedEnd : Intact s.reservedEnd := AddressRange.intact_stop _

@[simp] theorem intact_committedEnd : Intact s.committedEnd := Word.intact_add

@[simp] theorem intact_freeBytes : Intact s.freeBytes := Word.intact_fit

@[simp] theorem intact_usedBytes : Intact s.usedBytes := Word.intact_sub

@[simp] theorem intact_remaining : Intact s.remaining := by simp [remaining]

@[simp] theorem intact_contains (a : Nat) : Intact (s.contains a) := AddressRange.intact_contains _ _

@[simp] theorem intact_sweepObjects (cursor : Nat) (objects : List (Nat × Record)) :
    Intact (sweepObjects cursor objects) := by
  induction objects generalizing cursor with
  | nil => simp [sweepObjects]
  | cons x objects ih => simp [sweepObjects, ih]

@[simp] theorem intact_rebuild : Intact (s.rebuild space) := by simp [rebuild, sweepPlan, reset]

end Segment

namespace SegmentTable

variable {t : SegmentTable}

@[simp] theorem intact_freeBytesFor (g : Generation) : Intact (t.freeBytesFor g) := by
  simp [freeBytesFor]

@[simp] theorem intact_segmentOf? (a : Nat) : Intact (t.segmentOf? a) := by simp [segmentOf?]

@[simp] theorem intact_rebuild (space : ObjectSpace) : Intact (t.rebuild space) := by
  rw [rebuild, Checked.intact_bind]
  refine ⟨Checked.intact_mapM (fun slot => ?_) t.slots, fun slots _ => Checked.intact_pure _⟩
  cases slot <;> simp

@[simp] theorem intact_nextSize (g : Generation) (minimum : Nat) : Intact (t.nextSize g minimum) := by
  unfold nextSize
  split <;> simp

@[simp] theorem intact_retag (id : Nat) (owner : Generation) : Intact (retag id owner t) := by
  simp [retag]

@[simp] theorem intact_promoteRegions (condemned : Generation) :
    Intact (promoteRegions condemned t) := by
  simp [promoteRegions]

@[simp] theorem intact_takeFree (id size : Nat) : Intact (t.takeFree id size) := by
  unfold takeFree
  split <;> simp [Option.forall]

end SegmentTable

namespace SegmentArena

variable {a : SegmentArena} {s : Segment}

@[simp] theorem intact_onProvider {t : Transition Provider α} :
    Intact (onProvider t a) ↔ Intact (t a.provider) :=
  Transition.intact_onPart

@[simp] theorem intact_onTable {t : Transition SegmentTable α} :
    Intact (onTable t a) ↔ Intact (t a.table) :=
  Transition.intact_onPart

@[simp] theorem intact_acquire (size : Nat) : Intact (acquire size a) := by
  rw [acquire, Effect.get_bind]
  cases a.table.layout with
  | segments => simp
  | regions => cases a.table.freeRegions <;> simp

@[simp] theorem intact_replaceEphemeral (id : Nat) : Intact (replaceEphemeral id a) := by
  rw [replaceEphemeral, Effect.get_bind, Effect.modify_bind]
  cases a.table.ephemeral <;> simp

@[simp] theorem intact_grow (g : Generation) (minimum : Nat) : Intact (grow g minimum a) := by
  simp [grow]

@[simp] theorem intact_commitUpTo (stop : Nat) : Intact (commitUpTo s stop a) := by
  simp [commitUpTo]

@[simp] theorem intact_bump (id size : Nat) : Intact (bump id size a) := by simp [bump]

@[simp] theorem intact_holdsObject (space : ObjectSpace) : Intact (holdsObject s space) := by
  simp [holdsObject]

@[simp] theorem intact_decommitPart : Intact (decommitPart s a) := by simp [decommitPart]

@[simp] theorem intact_returnRange : Intact (returnRange s a) := by simp [returnRange]

@[simp] theorem intact_decommitIfEmpty (id : Nat) (space : ObjectSpace) :
    Intact (decommitIfEmpty id space a) := by
  simp [decommitIfEmpty]

end SegmentArena

/-! ## Marking and compaction -/

@[simp] theorem CardTable.intact_bounds (t : CardTable) (card : Nat) : Intact (t.bounds card) := by
  simp [bounds]

namespace Marking

variable {space : ObjectSpace} {condemned : Generation} {cards : CardTable}

@[simp] theorem intact_scanCard (scan : CardScan) (card : Nat) :
    Intact (scanCard space condemned cards scan card) := by
  simp [scanCard]

@[simp] theorem intact_mark (workers threshold : Nat) (roots : List Nat) (ranges : List (Nat × Nat)) :
    Intact (mark workers threshold space roots condemned cards ranges) := by
  simp [mark, scanCards]

end Marking

namespace BackgroundMark

variable {space : ObjectSpace} {b : BackgroundMark} {watch : CardTable}

@[simp] theorem intact_cardReferences (card : Nat) :
    Intact (cardReferences space b watch card) := by
  simp [cardReferences]

@[simp] theorem intact_finishUnderPause (roots : List Nat) (ranges : List (Nat × Nat)) :
    Intact (finishUnderPause space b roots watch ranges) := by
  simp [finishUnderPause]

end BackgroundMark

namespace CompactionPlan

variable {p : CompactionPlan} {space : ObjectSpace} {movable : Nat → Record → Bool}

@[simp] theorem intact_slide (cursor : Nat) (objects : List (Nat × Record)) :
    Intact (p.slide movable cursor objects) := by
  induction objects generalizing p cursor with
  | nil => simp [slide]
  | cons x objects ih => simp [slide, move, ih]

@[simp] theorem intact_addSegment (s : Segment) : Intact (p.addSegment s space movable) := by
  simp [addSegment]

@[simp] theorem intact_apply : Intact (p.apply space) := by simp [apply]

end CompactionPlan

/-! ## Budgets and counters -/

@[simp] theorem intact_clamp (x low high : Float) : Intact (clamp x low high) := by
  unfold clamp
  split <;> simp

namespace BudgetTable

variable {t : BudgetTable}

@[simp] theorem intact_charge (g : Generation) (size : Nat) : Intact (t.charge g size) := by
  simp [charge, GenerationState.charge]

@[simp] theorem intact_finishCollection (condemned : Generation) (survival : PerGeneration Float)
    (tuning : Tuning) : Intact (t.finishCollection condemned survival tuning) := by
  simp [finishCollection, finishGeneration, tunedBudget]

end BudgetTable

@[simp] theorem HandleTable.intact_create (t : HandleTable) (kind : HandleKind) (target : Nat) :
    (t.create kind target).Intact := by
  unfold create
  split <;> simp

@[simp] theorem Counters.intact_add (c : Counters) (p : DataPoint) (amount : Nat) :
    Intact (c.add p amount) := by
  simp [add]

namespace Statistics

variable {s : Statistics}

@[simp] theorem intact_recordAllocation (size : Nat) : Intact (s.recordAllocation size) := by
  simp [recordAllocation]

@[simp] theorem intact_recordCollection (summary : CollectionSummary) :
    Intact (s.recordCollection summary) := by
  simp [recordCollection]

end Statistics

end GenHeap
