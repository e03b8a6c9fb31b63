import GenHeap.Proofs.Heap.Stages
import GenHeap.Proofs.Readiness

/-!
Collections neither reserve nor commit, so the refusals that a provider has in store make no difference
to them: with those refusals taken back, a collection does the same.
-/

namespace GenHeap

namespace Provider

variable {x : AddressRange}

/-- An operation to which the faults that are still to come make no difference. -/
abbrev Heals {α : Type} (t : Transition Provider α) : Prop :=
  Effect.Respects (fun p q => q = p.healed) t

theorem heals_enter {call : ProviderCall}
    (hcall : ∀ p : Provider, p.healed.refusals.get call = p.refusals.get call) :
    Heals (enter call x) := by
  rintro p _ p' _ rfl hrun
  unfold enter at hrun ⊢
  rw [Effect.get_bind] at hrun ⊢
  rw [hcall]
  split at hrun
  · cases hrun
  next hzero =>
    cases hrun
    exact ⟨_, if_neg hzero ▸ rfl, rfl⟩

theorem heals_decommit : Heals (Provider.decommit x) := by
  refine Effect.respects_bind (heals_enter fun _ => rfl) fun _ => ?_
  rintro p _ p' _ rfl hrun
  cases hrun
  exact ⟨_, rfl, rfl⟩

theorem heals_release : Heals (Provider.release x) := by
  refine Effect.respects_bind (heals_enter fun _ => rfl) fun _ => ?_
  rintro p _ p' _ rfl hrun
  cases hrun
  exact ⟨_, rfl, rfl⟩

end Provider

namespace SegmentArena

variable {s : Segment} {id : Nat} {space : ObjectSpace}

theorem table_healed (a : SegmentArena) : a.healed.table = a.table := rfl

abbrev Heals {α : Type} (t : Transition SegmentArena α) : Prop :=
  Effect.Respects (fun a b => b = a.healed) t

theorem heals_onProvider {α : Type} {t : Transition Provider α} (ht : Provider.Heals t) :
    Heals (onProvider t) := by
  rintro a _ a' x rfl hrun
  obtain ⟨provider, hprovider, rfl⟩ := onProvider_eq_ok.1 hrun
  obtain ⟨_, hprovider', rfl⟩ := ht rfl hprovider
  exact ⟨_, onProvider_eq_ok.2 ⟨_, hprovider', rfl⟩, rfl⟩

theorem heals_onTable {α : Type} {t : Transition SegmentTable α} : Heals (onTable t) := by
  rintro a _ a' x rfl hrun
  obtain ⟨table, htable, rfl⟩ := onTable_eq_ok.1 hrun
  exact ⟨_, onTable_eq_ok.2 ⟨_, htable, rfl⟩, rfl⟩

theorem heals_decommitPart : Heals (decommitPart s) := by
  unfold decommitPart
  split
  · exact heals_onProvider Provider.heals_decommit
  · exact Effect.respects_pure _

theorem heals_returnRange : Heals (returnRange s) := by
  rintro a _ a' x rfl hrun
  unfold returnRange at hrun ⊢
  rw [Effect.get_bind] at hrun ⊢
  rw [table_healed]
  split at hrun
  next hpooled =>
    cases hrun
    rw [if_pos hpooled]
    exact ⟨_, rfl, rfl⟩
  next hreleased =>
    rw [if_neg hreleased]
    exact heals_onProvider Provider.heals_release rfl hrun

theorem heals_decommitIfEmpty : Heals (decommitIfEmpty id space) := by
  rintro a _ a' b rfl hrun
  unfold decommitIfEmpty at hrun ⊢
  rw [Effect.get_bind] at hrun ⊢
  rw [table_healed]
  split at hrun
  next heph =>
    cases hrun
    rw [if_pos heph]
    exact ⟨_, rfl, rfl⟩
  next heph =>
    rw [if_neg heph]
    refine (?_ : Heals _) rfl hrun
    refine Effect.respects_bind (Transition.respects_ofExcept _) fun s => ?_
    refine Effect.respects_bind (Effect.respects_lift _) fun holds => ?_
    split
    · exact Effect.respects_pure false
    · refine Effect.respects_bind heals_decommitPart fun _ => ?_
      refine Effect.respects_bind heals_returnRange fun _ => ?_
      refine Effect.respects_bind (Effect.respects_modify ?_) fun _ => Effect.respects_pure true
      rintro a _ rfl
      rfl

end SegmentArena

namespace Heap

variable {h h' : Heap} {condemned : Generation} {live : Nat → Record → Bool} {i : Nat}
  {consumed : Option (List Nat)} {summary summary' : CollectionSummary}
  {survivals : List Survival}

/-- The same heap, whose provider refuses nothing of itself. -/
def healed (h : Heap) : Heap := { h with provider := h.provider.healed }

theorem discardCycle_healed (h : Heap) : h.healed.discardCycle = h.discardCycle.healed := by
  have hbackground : h.healed.background = h.background := rfl
  unfold discardCycle
  rw [hbackground]
  cases h.background <;> rfl

theorem updateHeap_healed {f : LogicalHeap → Checked LogicalHeap}
    (hrun : h.updateHeap i f = .ok h') : h.healed.updateHeap i f = .ok h'.healed := by
  have hheaps : h.healed.heaps = h.heaps := rfl
  unfold updateHeap at hrun ⊢
  rw [hheaps]
  cases hl : h.heaps[i]? with
  | none =>
    rw [hl] at hrun
    cases hrun
    rfl
  | some l =>
    simp only [hl, Checked.bind_eq_ok, Checked.pure_eq_ok] at hrun ⊢
    obtain ⟨l', hl', rfl⟩ := hrun
    exact ⟨l', hl', rfl⟩

/-- A loop of which no round minds the faults. -/
theorem foldlM_healed {α : Type} {f : Heap → α → Checked Heap}
    (hf : ∀ k x k', f k x = .ok k' → f k.healed x = .ok k'.healed) {xs : List α}
    (hrun : xs.foldlM f h = .ok h') : xs.foldlM f h.healed = .ok h'.healed := by
  have hround (s t : Heap) (x x' : α) (s' : Heap) (ht : t = s.healed) (hx : id x' = id x)
      (hs : f s x = .ok s') : ∃ t', f t x' = .ok t' ∧ t' = s'.healed := by
    subst ht
    cases hx
    exact ⟨_, hf s x s' hs, rfl⟩
  obtain ⟨_, hrun', rfl⟩ := Checked.exists_foldlM hround rfl rfl hrun
  exact hrun'

theorem countCards_healed {p : DataPoint} {cards : List Nat} (hrun : h.countCards p cards = .ok h') :
    h.healed.countCards p cards = .ok h'.healed := by
  refine foldlM_healed (fun k card k' hk => ?_) hrun
  simp only [Checked.bind_eq_ok] at hk ⊢
  obtain ⟨owner, howner, hcount⟩ := hk
  exact ⟨owner, howner, updateHeap_healed hcount⟩

theorem markCondemned_healed {scan : CardScan}
    (hrun : h.markCondemned condemned summary = .ok (scan, summary', h')) :
    h.healed.markCondemned condemned summary = .ok (scan, summary', h'.healed) := by
  simp only [markCondemned, Checked.bind_eq_ok, Checked.pure_eq_ok, Prod.exists,
    Prod.mk.injEq] at hrun ⊢
  obtain ⟨progress, cards, hmark, h₁, hscanned, h₂, hfalse, rfl, rfl, rfl⟩ := hrun
  exact ⟨progress, cards, hmark, _, countCards_healed hscanned, _, countCards_healed hfalse, rfl,
    rfl, rfl⟩

theorem swept_healed (live : Nat → Record → Bool) (h : Heap) :
    h.healed.swept live = ((h.swept live).1, (h.swept live).2.healed) := by
  have hfold (gone : List (Nat × Record)) (k : Heap) :
      gone.foldl (fun h x => h.modifyHeap x.2.heap fun l =>
        { l with budgets := l.budgets.discharge x.2.generation x.2.size }) k.healed =
      (gone.foldl (fun h x => h.modifyHeap x.2.heap fun l =>
        { l with budgets := l.budgets.discharge x.2.generation x.2.size }) k).healed := by
    induction gone generalizing k with
    | nil => rfl
    | cons x gone ih => exact ih (k.modifyHeap x.2.heap _)
  let swept := h.sweeper.sweep h.space fun a r => !live a r
  have hswept := congrArg (fun k : Heap => { k with sweeper := swept.2.1, space := swept.2.2 })
    (hfold swept.1 { h with
      handles := h.handles.clearDeadWeak fun a => (h.space.get? a).any (live a) })
  exact Prod.ext rfl hswept

theorem rebuildSegments_healed (hrun : h.rebuildSegments = .ok h') :
    h.healed.rebuildSegments = .ok h'.healed := by
  simp only [rebuildSegments, Checked.bind_eq_ok, Checked.pure_eq_ok] at hrun ⊢
  obtain ⟨heaps, hheaps, rfl⟩ := hrun
  exact ⟨heaps, hheaps, rfl⟩

theorem planHeaps_healed (h : Heap) (reason : CollectionReason) (fixed : Std.TreeSet Nat)
    (xs : List (LogicalHeap × Survival)) (plan : CompactionPlan) :
    h.healed.planHeaps condemned reason fixed xs plan =
      h.planHeaps condemned reason fixed xs plan := by
  induction xs generalizing plan with
  | nil => rfl
  | cons x xs ih =>
    unfold planHeaps
    simp only [ih]
    rfl

theorem applyPlan_healed {p : CompactionPlan} (hrun : applyPlan p h = .ok h') :
    applyPlan p h.healed = .ok h'.healed := by
  refine applyPlan_stages.2 ?_
  obtain ⟨hempty, rfl⟩ | ⟨hmoves, space, hspace, hrebuild⟩ := applyPlan_stages.1 hrun
  · exact .inl ⟨hempty, rfl⟩
  · have hrebuild' := rebuildSegments_healed hrebuild
    exact .inr ⟨hmoves, space, hspace, hrebuild'⟩

theorem compact_healed {fixed : Std.TreeSet Nat}
    (hrun : h.compact condemned fixed survivals summary = .ok (summary', h')) :
    h.healed.compact condemned fixed survivals summary = .ok (summary', h'.healed) := by
  obtain ⟨why, heaps, plan, hplan, hsummary, happly⟩ := compact_stages.1 hrun
  exact compact_stages.2 ⟨why, heaps, plan, (planHeaps_healed h _ _ _ _).trans hplan, hsummary,
    applyPlan_healed happly⟩

theorem compactIf_healed {compacts : Bool}
    (hrun : h.compactIf compacts condemned survivals summary = .ok (summary', h')) :
    h.healed.compactIf compacts condemned survivals summary = .ok (summary', h'.healed) := by
  cases compacts with
  | false =>
    cases hrun
    rfl
  | true => exact compact_healed hrun

theorem tuneBudgets_healed (hrun : h.tuneBudgets condemned survivals = .ok h') :
    h.healed.tuneBudgets condemned survivals = .ok h'.healed := by
  simp only [tuneBudgets, Checked.bind_eq_ok, Checked.pure_eq_ok] at hrun ⊢
  obtain ⟨heaps, hheaps, rfl⟩ := hrun
  exact ⟨heaps, hheaps, rfl⟩

theorem promoteSurvivors_healed
    (hrun : h.promoteSurvivors condemned summary = .ok (summary', h')) :
    h.healed.promoteSurvivors condemned summary = .ok (summary', h'.healed) := by
  simp only [promoteSurvivors, Checked.bind_eq_ok, Checked.pure_eq_ok, Prod.mk.injEq] at hrun ⊢
  obtain ⟨k, hpromoted, rfl, rfl⟩ := hrun
  refine ⟨_, foldlM_healed (fun k x k' hk => ?_) hpromoted, rfl, rfl⟩
  simp only [promote, Checked.bind_eq_ok, Checked.pure_eq_ok] at hk ⊢
  obtain ⟨mid, hmid, rfl⟩ := hk
  exact ⟨_, updateHeap_healed hmid, rfl⟩

theorem refreshCards_healed (hrun : h.refreshCards condemned consumed = .ok h') :
    h.healed.refreshCards condemned consumed = .ok h'.healed := by
  unfold refreshCards at hrun ⊢
  cases consumed with
  | none =>
    simp only [Checked.bind_eq_ok, Checked.pure_eq_ok] at hrun ⊢
    obtain ⟨cards, hcards, rfl⟩ := hrun
    exact ⟨cards, hcards, rfl⟩
  | some cards =>
    simp only [Checked.bind_eq_ok, Checked.pure_eq_ok] at hrun ⊢
    obtain ⟨cards₁, hcards₁, cards₂, hcards₂, rfl⟩ := hrun
    exact ⟨cards₁, hcards₁, cards₂, hcards₂, rfl⟩

theorem finishCollection_healed (hrun : finishCollection summary h = .ok h') :
    finishCollection summary h.healed = .ok h'.healed := by
  obtain ⟨statistics, hstatistics, rfl⟩ := finishCollection_stages.1 hrun
  exact finishCollection_stages.2 ⟨statistics, hstatistics, rfl⟩

/-! ## Operations -/

abbrev Heals {α : Type} (t : Transition Heap α) : Prop := Effect.Respects (fun h k => k = h.healed) t

theorem heals_onArena {α : Type} {t : Transition SegmentArena α} (ht : SegmentArena.Heals t) :
    Heals (onArena i t) := by
  rintro h _ h' x rfl hrun
  cases hl : h.heaps[i]? with
  | none =>
    simp only [onArena, fetchHeap, hl, Effect.get_bind, Transition.ofExcept_bind] at hrun
    cases hrun
  | some l =>
    have hl' : h.healed.heaps[i]? = some l := hl
    obtain ⟨arena, harena, rfl⟩ := (onArena_eq_ok hl).1 hrun
    obtain ⟨_, harena', rfl⟩ := ht rfl harena
    exact ⟨_, (onArena_eq_ok hl').2 ⟨_, harena', rfl⟩, rfl⟩

theorem heals_syncHeap : Heals (syncHeap condemned i) := by
  rintro h _ h' x rfl hrun
  rw [syncHeap_apply] at hrun ⊢
  exact heals_onArena SegmentArena.heals_onTable rfl hrun

theorem heals_decommitSegment {active : Option Nat} {kept id : Nat} :
    Heals (decommitSegment i active kept id) := by
  unfold decommitSegment
  split
  · exact Effect.respects_pure kept
  · rintro h _ h' x rfl hrun
    rw [Effect.get_bind] at hrun ⊢
    refine (?_ : Heals _) rfl hrun
    refine Effect.respects_bind (Transition.respects_ofExcept _) fun l => ?_
    refine Effect.respects_bind (Transition.respects_ofExcept _) fun s => ?_
    refine Effect.respects_bind (Effect.respects_lift _) fun holds => ?_
    split
    · exact Effect.respects_pure kept
    · split
      · exact Effect.respects_pure _
      · exact Effect.respects_bind (heals_onArena SegmentArena.heals_decommitIfEmpty) fun _ =>
          Effect.respects_pure kept

theorem heals_decommitEmpty : Heals (decommitEmpty i) := by
  refine Effect.respects_bind (Effect.respects_foldlM (fun kept g => ?_) _ 0) fun _ =>
    Effect.respects_pure _
  rintro h _ h' x rfl hrun
  unfold decommitGeneration at hrun ⊢
  rw [Effect.get_bind] at hrun ⊢
  refine (?_ : Heals _) rfl hrun
  refine Effect.respects_bind (Transition.respects_ofExcept _) fun l => ?_
  exact Effect.respects_foldlM (fun _ _ => heals_decommitSegment) _ kept

theorem heals_settle : Heals (settle condemned survivals consumed summary) := by
  rintro h _ h' x rfl hrun
  obtain ⟨h₁, h₂, h₃, h₄, htune, hpromote, hsync, hback, hrefresh⟩ := settle_stages.1 hrun
  obtain ⟨_, hsync', rfl⟩ := Effect.respects_forM (fun _ => heals_syncHeap) _ rfl hsync
  obtain ⟨_, hback', rfl⟩ := Effect.respects_forM (fun _ => heals_decommitEmpty) _ rfl hback
  exact ⟨_, settle_stages.2 ⟨_, _, _, _, tuneBudgets_healed htune, promoteSurvivors_healed hpromote,
    hsync', hback', refreshCards_healed hrefresh⟩, rfl⟩

theorem heals_checkReclaimed : Heals (checkReclaimed summary) := by
  rintro h _ h' x rfl hrun
  unfold checkReclaimed at hrun ⊢
  rw [Effect.get_bind] at hrun ⊢
  refine (?_ : Heals _) rfl hrun
  split
  · exact Effect.respects_lift _
  · exact Effect.respects_pure _

theorem heals_reclaim {compacts : Bool} : Heals (reclaim condemned live compacts consumed summary) := by
  rintro h _ h' x rfl hrun
  obtain ⟨h₁, summary₂, h₂, hsweep, hcompact, hsettle, hcheck⟩ := reclaim_stages.1 hrun
  obtain ⟨_, hsettle', rfl⟩ := heals_settle rfl hsettle
  obtain ⟨_, hcheck', rfl⟩ := heals_checkReclaimed rfl hcheck
  refine ⟨_, reclaim_stages.2 ⟨h₁.healed, summary₂, h₂.healed, ?_, ?_, ?_, hcheck'⟩, rfl⟩
  · rw [swept_healed]
    exact rebuildSegments_healed hsweep
  · rw [swept_healed]
    exact compactIf_healed hcompact
  · rw [swept_healed]
    exact hsettle'

theorem heals_collect {generation : Generation} {reason : CollectionReason} :
    Heals (collect generation reason) := by
  rintro h _ h' x rfl hrun
  obtain ⟨scan, summary₁, h₁, h₂, hmark, hreclaim, hfinish⟩ := collect_stages.1 hrun
  obtain ⟨_, hreclaim', rfl⟩ := heals_reclaim rfl hreclaim
  have hfinish' := finishCollection_healed hfinish
  refine ⟨h'.healed, collect_stages.2 ⟨scan, summary₁, h₁.healed, h₂.healed, ?_, hreclaim', hfinish'⟩,
    rfl⟩
  · have hbegin : h.healed.beginCollection = h.beginCollection.healed := by
      unfold beginCollection
      rw [discardCycle_healed]
      rfl
    rw [hbegin]
    exact markCondemned_healed hmark

theorem heals_startBackground : Heals startBackground := by
  rintro h _ h' x rfl hrun
  unfold startBackground at hrun ⊢
  rw [Effect.get_bind] at hrun ⊢
  have hstart : h.healed.canStartCycle = h.canStartCycle := rfl
  rw [hstart]
  split at hrun
  next hcan =>
    rw [if_pos hcan]
    cases hrun
    exact ⟨_, rfl, rfl⟩
  next hcan =>
    rw [if_neg hcan]
    cases hrun
    exact ⟨_, rfl, rfl⟩

theorem finishMarking_healed {b b' : BackgroundMark}
    (hrun : h.finishMarking b = .ok (summary, b', h')) :
    h.healed.finishMarking b = .ok (summary, b', h'.healed) := by
  simp only [finishMarking, Checked.bind_eq_ok, Checked.pure_eq_ok, Prod.exists,
    Prod.mk.injEq] at hrun ⊢
  obtain ⟨n, b₁, hpause, rfl, rfl, rfl⟩ := hrun
  exact ⟨n, b₁, hpause, rfl, rfl, rfl⟩

theorem heals_completeBackground : Heals completeBackground := by
  rintro h _ h' x rfl hrun
  have htrace : h.healed.trace.background = h.trace.background := rfl
  cases hb : h.trace.background with
  | none =>
    unfold completeBackground at hrun ⊢
    rw [Effect.get_bind] at hrun ⊢
    simp only [htrace, hb] at hrun ⊢
    cases hrun
    exact ⟨_, rfl, rfl⟩
  | some b =>
    unfold completeBackground at hrun ⊢
    rw [Effect.get_bind] at hrun ⊢
    simp only [htrace, hb, Effect.modify_bind, Effect.get_bind, Effect.lift_bind, Effect.set_bind,
      Effect.pure_apply, Effect.bind_eq_ok_ok, Checked.bind_eq_ok, Prod.exists, Except.ok.injEq,
      Prod.mk.injEq] at hrun ⊢
    obtain ⟨summary, b', k₁, hmark, summary', k₂, hreclaim, k₃, hfinish, rfl, rfl⟩ := hrun
    have hmark' := finishMarking_healed hmark
    have hfinish' := finishCollection_healed hfinish
    obtain ⟨_, hreclaim', rfl⟩ := heals_reclaim rfl hreclaim
    exact ⟨_, ⟨summary, b', _, hmark', summary', _, hreclaim', _, hfinish', rfl, rfl⟩, rfl⟩

theorem heals_collectFor {target condemned : Generation} {size : Nat} :
    Heals (collectFor i target size condemned) := by
  have hcollect : Heals (collect condemned .allocationBudget >>= fun _ => pure ()) :=
    Effect.respects_bind heals_collect fun _ => Effect.respects_pure _
  rintro h _ h' x rfl hrun
  unfold collectFor at hrun ⊢
  rw [Effect.get_bind] at hrun ⊢
  refine (?_ : Heals _) rfl hrun
  split
  · split
    · exact Effect.respects_pure _
    · exact hcollect
  · split
    · refine Effect.respects_bind heals_startBackground fun started => ?_
      split
      · exact Effect.respects_pure _
      · exact hcollect
    · exact hcollect

/-- Making room in the budget. -/
theorem heals_requireBudget {target : Generation} {size : Nat} :
    Heals (requireBudget i target size) := by
  rintro h _ h' x rfl hrun
  unfold requireBudget at hrun ⊢
  rw [Effect.get_bind] at hrun ⊢
  refine (?_ : Heals _) rfl hrun
  split
  · split
    · refine Effect.respects_bind heals_completeBackground fun _ => ?_
      rintro k _ k' y rfl hrun
      rw [Effect.get_bind] at hrun ⊢
      refine (?_ : Heals _) rfl hrun
      split
      · exact heals_collectFor
      · exact Effect.respects_pure _
    · exact heals_collectFor
  · exact Effect.respects_pure _

end Heap

end GenHeap
