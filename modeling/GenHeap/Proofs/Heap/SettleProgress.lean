import GenHeap.Proofs.Heap.ReclaimProgress
import GenHeap.Proofs.Heap.Zones

/-!
Settling and reclaiming as a whole do not fault, as long as no slot of the heap has been written:
then no card is dirty, and none becomes so.
-/

namespace GenHeap

open Checked (Runs)
open Memory (Rearranged)

/-- No object refers to anything. -/
def ObjectSpace.Unlinked (space : ObjectSpace) : Prop :=
  ∀ a r, space.get? a = some r → ∀ t ∈ r.slots, t = 0

/-- So it stays where the slots of every object are those of one from before, redirected. -/
theorem ObjectSpace.Unlinked.carried {space space' : ObjectSpace} (h : space.Unlinked)
    {f : Nat → Nat} (hf : f 0 = 0)
    (hs : ∀ a r, space'.get? a = some r → ∃ b q, space.get? b = some q ∧ r.slots = q.slots.map f) :
    space'.Unlinked := by
  intro a r hr t ht
  obtain ⟨b, q, hq, he⟩ := hs a r hr
  rw [he] at ht
  obtain ⟨x, hx, rfl⟩ := List.mem_map.1 ht
  rw [h b q hq x hx, hf]

/-- Nothing has been written to the slots of a heap. -/
structure Memory.Unwritten (m : Memory) : Prop where
  slots : m.space.Unlinked
  cards : m.cards.dirtyCards = []
  watch : m.writeWatch.dirtyCards = []

namespace Heap

variable {α : Type} {h h' : Heap} {n k i : Nat} {condemned : Generation}
  {live : Nat → Record → Bool} {consumed : Option (List Nat)} {survivals : List Survival}

/-! ## Budgets and generations -/

theorem tallied_tuneBudgets (ht : h.Tallied n) (htuning : h.config.tuning = {})
    (hpins : ∀ s ∈ survivals, s.pinnedObjects ≤ k) (hroom : n + k < Word.count)
    (condemned : Generation) :
    ∃ h', h.tuneBudgets condemned survivals = .ok h' ∧ h'.Tallied (n + k) := by
  have hall : ∀ x ∈ h.heaps.zip survivals, ∃ l, (do
      return { x.1 with
        budgets := ← x.1.budgets.finishCollection condemned (.ofFn x.2.rate) h.config.tuning
        counters := ← x.1.counters.add .pinnedSurvivors x.2.pinnedObjects } : Checked LogicalHeap) =
          .ok l ∧ l.Tallied (n + k) := by
    intro x hx
    have hl := ht.heaps x.1 (List.of_mem_zip hx).1
    have hpin := hpins x.2 (List.of_mem_zip hx).2
    obtain ⟨budgets, hbudgets, htallied⟩ := hl.budgets.finishCollection condemned (.ofFn x.2.rate)
    obtain ⟨counters, hcounters, hadded⟩ := hl.counters.add .pinnedSurvivors
      x.2.pinnedObjects (by omega)
    refine ⟨{ x.1 with budgets, counters }, ?_, htallied.mono (Nat.le_add_right n k), ?_⟩
    · rw [htuning, hbudgets, hcounters]
      rfl
    · intro m hm
      exact Nat.le_trans (hadded m hm) (Nat.add_le_add_left hpin n)
  obtain ⟨heaps, hheaps, htallied⟩ := Checked.exists_mapM_all hall
  refine ⟨{ h with heaps }, ?_, (ht.mono (Nat.le_add_right n k)).statistics, htallied⟩
  simp only [tuneBudgets, Checked.bind_eq_ok]
  exact ⟨heaps, hheaps, rfl⟩

theorem tallied_promote (ht : h.Tallied n) (a : Nat) {r : Record} (hpos : 0 < r.size)
    (hroom : n + r.size < Word.count) :
    ∃ h', h.promote a r = .ok h' ∧ h'.Tallied (n + r.size) := by
  obtain ⟨h₁, hupdate, ht₁⟩ := ht.updateHeap (i := r.heap) (f := fun l => do
    return { l with
      budgets := ← (l.budgets.discharge r.generation r.size).charge r.generation.promoted r.size
      counters := ← l.counters.add .objectsPromoted 1 }) (Nat.le_add_right n r.size) (by
    intro l hl
    obtain ⟨budgets, hbudgets, htallied⟩ :=
      (hl.budgets.discharge r.generation r.size).charge r.generation.promoted hroom
    obtain ⟨counters, hcounters, hadded⟩ := hl.counters.add .objectsPromoted 1 (by omega)
    refine ⟨{ l with budgets, counters }, ?_, htallied, ?_⟩
    · rw [hbudgets, hcounters]
      rfl
    · intro m hm
      exact Nat.le_trans (hadded m hm) (by omega))
  refine ⟨{ h₁ with space := h₁.space.update a fun r' =>
    { r' with generation := r.generation.promoted } }, ?_, ht₁.statistics, ht₁.heaps⟩
  simp only [promote, Checked.bind_eq_ok]
  exact ⟨h₁, hupdate, rfl⟩

theorem tallied_promoteSurvivors (hl : h.memory.Laid) (ht : h.Tallied n)
    (hroom : n + h.provider.space.range.size < Word.count) (condemned : Generation)
    (summary : CollectionSummary) :
    ∃ summary' h', h.promoteSurvivors condemned summary = .ok (summary', h') ∧
      h'.Tallied (n + h.provider.space.range.size) ∧
      summary'.bytesPromoted ≤ h.provider.space.range.size ∧
      summary'.objectsRelocated = summary.objectsRelocated ∧
      summary'.bytesFreed = summary.bytesFreed := by
  let promoted := h.space.entries.filter fun x => isPromoted condemned x.2
  have hweight : ObjectSpace.weight promoted ≤ h.provider.space.range.size := hl.weight_filter_le _
  have hpos : ∀ x ∈ promoted, 0 < x.2.size := fun x hx =>
    hl.apart.size_pos (ObjectSpace.mem_entries.1 (List.mem_of_mem_filter hx))
  let Q (rest : List (Nat × Record)) (h' : Heap) : Prop :=
    (∀ x ∈ rest, 0 < x.2.size) ∧ ∃ m, h'.Tallied m ∧
      m + ObjectSpace.weight rest ≤ n + h.provider.space.range.size
  have hstep (x : Nat × Record) (rest : List (Nat × Record)) (h₁ : Heap) (hQ : Q (x :: rest) h₁) :
      ∃ h₂, h₁.promote x.1 x.2 = .ok h₂ ∧ Q rest h₂ := by
    obtain ⟨hall, m, hm, hle⟩ := hQ
    rw [List.forall_mem_cons] at hall
    rw [ObjectSpace.weight_cons] at hle
    obtain ⟨h₂, hone, ht₂⟩ := tallied_promote hm x.1 hall.1 (by omega)
    exact ⟨h₂, hone, hall.2, _, ht₂, by omega⟩
  obtain ⟨h', hfold, -, m, hm, hle⟩ := Checked.exists_foldlM_rest Q hstep
    ⟨hpos, n, ht, Nat.add_le_add_left hweight n⟩
  refine ⟨{ summary with
    objectsPromoted := promoted.length, bytesPromoted := ObjectSpace.weight promoted }, h', ?_,
    hm.mono (Nat.le_trans (Nat.le_add_right m _) hle), hweight, rfl, rfl⟩
  simp only [promoteSurvivors, Checked.bind_eq_ok]
  exact ⟨h', hfold, rfl⟩

/-! ## Segments -/

theorem runs_onArena {t : Transition SegmentArena α}
    (ht : ∀ l, h.heaps[i]? = some l → Runs (t (h.arena l))) : Runs (onArena i t h) := by
  unfold onArena
  rw [Effect.get_bind, Transition.ofExcept_bind]
  cases hl : h.heaps[i]? with
  | none =>
    simp only [fetchHeap, hl]
    exact Checked.runs_ok _
  | some l =>
    simp only [fetchHeap, hl]
    exact Transition.runs_onPart.2 (ht l hl)

theorem runs_syncHeap : Runs (syncHeap condemned i h) := by
  rw [syncHeap_apply]
  exact runs_onArena fun _ _ => SegmentArena.runs_onTable.2 SegmentTable.runs_promoteRegions

theorem sameTallies_syncHeap : Steady SameTallies (syncHeap condemned i) := by
  intro k k' q hrun
  rw [syncHeap_apply] at hrun
  have hsorted : SameTallies k (k.sortQueue i) :=
    sameTallies_modifyHeap (fun _ => rfl) fun _ => rfl
  exact sameTallies_frame.trans hsorted (refits_onArena (fun hq =>
    SegmentArena.conforms_onTable SegmentTable.constants_promoteRegions hq) hrun).sameTallies

theorem runs_decommitSegment (hl : h.memory.Laid) {active : Option Nat} {kept id : Nat} :
    Runs (decommitSegment i active kept id h) := by
  unfold decommitSegment
  split
  · exact Effect.runs_pure _
  · rw [Effect.get_bind, Transition.ofExcept_bind]
    cases hi : h.heaps[i]? with
    | none =>
      simp only [fetchHeap, hi]
      exact Checked.runs_ok _
    | some l =>
      have hbounded : l.segments.Bounded := hl.bounded (getElem?_tables hi)
      simp only [fetchHeap, hi, Transition.ofExcept_bind]
      cases hs : l.segments.find? id with
      | none =>
        simp only [SegmentTable.fetch, hs]
        exact Checked.runs_ok _
      | some s =>
        simp only [SegmentTable.fetch, hs]
        rw [Effect.runs_lift_bind]
        constructor
        · exact SegmentArena.runs_holdsObject (hbounded hs)
        · intro holds _
          simp only [Effect.runs_ite, Effect.runs_bind, Effect.runs_pure, implies_true, true_and,
            and_true]
          intro _ _
          apply runs_onArena
          intro l' hl'
          exact SegmentArena.runs_decommitIfEmpty (hl.bounded (getElem?_tables hl'))

theorem runs_decommitEmpty (hl : h.memory.Laid) (hu : h.memory.SpansUnused) :
    Runs (decommitEmpty i h) := by
  have hone {active : Option Nat} {kept id : Nat} :
      Steady Resettles (decommitSegment i active kept id) :=
    steady_decommitSegment_of frame_resettles fun _ _ _ hback => resettles_decommitIfEmpty hback
  have hgeneration (kept : Nat) (g : Generation) (k : Heap)
      (hk : k.memory.Laid ∧ k.memory.SpansUnused) : Runs (decommitGeneration i kept g k) ∧
        ∀ q k', decommitGeneration i kept g k = .ok (q, k') →
          k'.memory.Laid ∧ k'.memory.SpansUnused := by
    unfold decommitGeneration
    rw [Effect.get_bind, Transition.ofExcept_bind]
    cases hi : k.heaps[i]? with
    | none =>
      simp only [fetchHeap, hi]
      refine ⟨Checked.runs_ok _, fun q k' hrun => ?_⟩
      cases hrun
      exact hk
    | some l =>
      simp only [fetchHeap, hi]
      refine Effect.runs_foldlM (fun k => k.memory.Laid ∧ k.memory.SpansUnused)
        (fun kept id k _ hk => ⟨runs_decommitSegment hk.1, fun q k' hrun => ?_⟩) hk
      obtain ⟨hr, -⟩ := hone hrun hk.1 hk.2
      exact ⟨hr.laid, hr.spans⟩
  unfold decommitEmpty
  rw [Effect.runs_bind]
  constructor
  · exact (Effect.runs_foldlM (fun k => k.memory.Laid ∧ k.memory.SpansUnused)
      (fun kept g k _ hk => hgeneration kept g k hk) ⟨hl, @hu⟩).1
  · intro _ _ _
    exact Effect.runs_pure _

/-! ## Cards -/

theorem markYounger_of_empty {space : ObjectSpace} {cards : CardTable} {a : Nat} {r : Record}
    (hr : ∀ t ∈ r.slots, t = 0) : markYounger space cards a r = .ok cards := by
  apply Checked.foldlM_of_fixed
  intro x hx
  obtain ⟨target, slot⟩ := x
  obtain rfl : target = 0 := hr target (List.fst_mem_of_mem_zipIdx hx)
  rfl

theorem refreshCards_unlinked (hs : h.space.Unlinked)
    (hconsumed : consumed = none ∨ consumed = some []) (condemned : Generation) :
    ∃ cards, h.refreshCards condemned consumed = .ok { h with cards } ∧
      (cards = h.cards ∨ cards = h.cards.clearAll) := by
  have hall (cards : CardTable) {objects : List (Nat × Record)} (hin : objects ⊆ h.space.entries) :
      markYoungerAll h.space cards objects = .ok cards :=
    Checked.foldlM_of_fixed fun x hx =>
      markYounger_of_empty (hs x.1 x.2 (ObjectSpace.mem_entries.1 (hin hx)))
  obtain rfl | rfl := hconsumed
  · refine ⟨h.cards.clearAll, ?_, .inr rfl⟩
    simp only [refreshCards, hall _ (List.Subset.refl _)]
    rfl
  · refine ⟨h.cards, ?_, .inl rfl⟩
    simp only [refreshCards, List.foldl_nil, List.foldlM_nil, Checked.bind_eq_ok]
    exact ⟨h.cards, rfl, h.cards, hall _ List.filter_sublist.subset, rfl⟩

/-! ## Settling as a whole -/

theorem slots_aged (r : Record) : (aged condemned r).slots = r.slots := by
  unfold aged
  split <;> rfl

/-- A heap in which nothing was written settles, with cards as clean as before. -/
theorem tallied_settle (hl : h.memory.Laid) (hu : h.memory.SpansUnused)
    (hwritten : h.memory.Unwritten) (ht : h.Tallied n) (htuning : h.config.tuning = {})
    (hlen : survivals.length = h.heaps.length)
    (hpins : ∀ s ∈ survivals, s.pinnedObjects ≤ h.provider.space.range.size)
    (hroom : n + 2 * h.provider.space.range.size < Word.count)
    (hconsumed : consumed = none ∨ consumed = some []) (condemned : Generation)
    (summary : CollectionSummary) :
    ∃ summary' h', settle condemned survivals consumed summary h = .ok (.ok summary', h') ∧
      h'.memory.Laid ∧ h'.memory.Unwritten ∧
      h'.Tallied (n + 2 * h.provider.space.range.size) ∧
      summary'.bytesPromoted ≤ h.provider.space.range.size ∧
      summary'.objectsRelocated = summary.objectsRelocated ∧
      summary'.bytesFreed = summary.bytesFreed := by
  obtain ⟨h₁, htune, ht₁⟩ := tallied_tuneBudgets ht htuning hpins (by omega) condemned
  have hm₁ := memory_tuneBudgets hlen htune
  have hp₁ : h₁.provider = h.provider := congrArg Memory.provider hm₁
  obtain ⟨summary', h₂, hpromote, ht₂, hpromoted, hrelocated, hfreed⟩ :=
    tallied_promoteSurvivors (hm₁ ▸ hl) ht₁ (by rw [hp₁]; omega) condemned summary
  rw [hp₁] at ht₂ hpromoted
  obtain ⟨hm₂, hspace, hl₂, hu₂⟩ := promoted_eq_ok hl hu hlen htune hpromote
  have hruns : Runs ((List.range h₂.heaps.length).forM (syncHeap condemned) h₂) :=
    (Effect.runs_forM (fun _ => True)
      (fun _ _ _ _ => ⟨runs_syncHeap, fun _ _ _ => trivial⟩) trivial).1
  obtain ⟨⟨x, h₃⟩, hsync⟩ := hruns
  obtain ⟨⟨⟨⟩, rfl⟩, hr₃⟩ := syncHeaps_eq_ok hl₂ hu₂ hsync
  have ht₃ := ht₂.same (steady_forM sameTallies_frame (fun _ => sameTallies_syncHeap) _ hsync)
  have hlen₃ : h₂.heaps.length = h₃.heaps.length := by
    rw [← length_tables (h := h₃), hr₃.heaps, ← length_tables]
  have hkeeps (i : Nat) (k : Heap) (_ : i ∈ List.range h₂.heaps.length)
      (hk : k.memory.Laid ∧ k.memory.SpansUnused) : Runs (decommitEmpty i k) ∧
        ∀ q k', decommitEmpty i k = .ok (q, k') → k'.memory.Laid ∧ k'.memory.SpansUnused := by
    constructor
    · exact runs_decommitEmpty hk.1 hk.2
    · intro q k' hrun
      obtain ⟨hr, -⟩ := steady_decommitEmpty_of frame_resettles
        (fun _ _ _ _ hone => resettles_decommitIfEmpty hone) hrun hk.1 hk.2
      exact ⟨hr.laid, hr.spans⟩
  obtain ⟨⟨y, h₄⟩, hback⟩ := (Effect.runs_forM _ hkeeps ⟨hr₃.laid, hr₃.spans⟩).1
  obtain ⟨⟨⟨⟩, rfl⟩, hr₄⟩ := decommitHeaps_eq_ok hr₃.laid hr₃.spans hlen₃ hback
  have hrefits : h₃.Refits h₄ := steady_forM frame_refits (fun _ => steady_decommitEmpty) _ hback
  have ht₄ := ht₃.same hrefits.sameTallies
  have hrest := (hr₃.trans hr₄).rest
  have hs₄ : h₄.space = h₂.space := congrArg Memory.space hrest
  have hc₄ : h₄.cards = h.cards :=
    (congrArg Memory.cards hrest).trans (congrArg Memory.cards hm₂)
  have hw₄ : h₄.writeWatch = h.writeWatch :=
    (congrArg Memory.writeWatch hrest).trans (congrArg Memory.writeWatch hm₂)
  have hslots : h₄.space.Unlinked := by
    rw [hs₄]
    apply hwritten.slots.carried (f := id) rfl
    intro a r hr
    rw [hspace, Option.map_eq_some_iff] at hr
    obtain ⟨q, hq, rfl⟩ := hr
    exact ⟨a, q, hq, by rw [slots_aged, List.map_id]⟩
  obtain ⟨cards, hrefresh, hcards⟩ := refreshCards_unlinked hslots hconsumed condemned
  have hclean : cards.dirtyCards = [] := by
    obtain rfl | rfl := hcards
    · rw [hc₄]
      exact hwritten.cards
    · exact CardTable.dirtyCards_clearAll h₄.cards
  refine ⟨summary', { h₄ with cards }, ?_, hr₄.laid.congr rfl rfl rfl, ⟨hslots, hclean, ?_⟩,
    ?_, hpromoted, hrelocated, hfreed⟩
  · exact settle_stages.2 ⟨h₁, h₂, h₃, h₄, htune, hpromote, hsync, hback, hrefresh⟩
  · exact hw₄ ▸ hwritten.watch
  · rw [Nat.two_mul, ← Nat.add_assoc]
    exact ⟨ht₄.statistics, ht₄.heaps⟩

theorem runs_requireSound (hl : h.memory.Laid) (hs : h.space.Unlinked) :
    h.requireSound = .ok () := by
  have hpasses : HeapCheck.Passes h.space h.tables := by
    constructor
    · intro a b r q hr hq hlt
      exact hl.apart.stop_le hr hq hlt
    · intro a r hr
      refine ⟨(hl.inside hr).2.2.2, hl.held hr, fun t ht => ?_⟩
      obtain ⟨hmem, hne⟩ := List.mem_filter.1 ht
      rw [hs a r hr t hmem] at hne
      cases hne
  rw [requireSound, HeapCheck.verify_eq_ok.2 hpasses]
  rfl

/-! ## Reclaiming as a whole -/

theorem laid_sweepDead (hl : h.memory.Laid) (live : Nat → Record → Bool) :
    (h.sweepDead live).2.memory.Laid := by
  rw [memory_sweepDead]
  apply hl.within
  intro a r hr
  rw [ObjectSpace.get?_removeWhere, Option.filter_eq_some_iff] at hr
  exact ⟨r, hr.1, rfl, rfl, rfl, rfl⟩

theorem weight_swept_le (hl : h.memory.Laid) :
    ObjectSpace.weight (h.swept live).1 ≤ h.provider.space.range.size := by
  have hparts := ObjectSpace.weight_perm (h.space.entries_parts fun a r => !live a r)
  rw [ObjectSpace.weight_append] at hparts
  have hle : ObjectSpace.weight h.space.entries ≤ h.provider.space.range.size := hl.weight_le
  exact Nat.le_trans (Nat.le_add_right _ _) (hparts ▸ hle)

theorem pinnedObjects_le (hl : h.memory.Laid) (condemned : Generation)
    (gone : List (Nat × Record)) :
    ∀ s ∈ h.survivalsOf condemned gone, s.pinnedObjects ≤ h.provider.space.range.size := by
  intro s hs
  obtain ⟨i, -, rfl⟩ := List.mem_map.1 hs
  exact Nat.le_trans List.countP_le_length (hl.length_filter_le _)

/-- Sweeping and compacting a heap in which nothing was written. -/
theorem tallied_compactIf (hl : h.memory.Laid) (hu : h.memory.SpansUnused)
    (hwritten : h.memory.Unwritten) (hw : h.space.Weighed) (ht : h.Tallied n)
    (hlen : survivals.length = h.heaps.length)
    (hroom : n + 2 * h.provider.space.range.size < Word.count) (compacts : Bool)
    (condemned : Generation) (summary : CollectionSummary)
    (hrelocated : summary.objectsRelocated ≤ h.provider.space.range.size) :
    ∃ summary' h', h.compactIf compacts condemned survivals summary = .ok (summary', h') ∧
      h'.memory.Laid ∧ h'.memory.SpansUnused ∧ h'.memory.Unwritten ∧ h.Stands h' ∧
      h'.provider = h.provider ∧ h'.Tallied (n + 2 * h.provider.space.range.size) ∧
      summary'.objectsRelocated ≤ h.provider.space.range.size ∧
      summary'.bytesFreed = summary.bytesFreed := by
  cases compacts with
  | false =>
    exact ⟨summary, h, rfl, hl, hu, hwritten, .refl h, rfl, ht.mono (Nat.le_add_right n _),
      hrelocated, rfl⟩
  | true =>
    obtain ⟨summary', h', hrun, ht', hle⟩ := tallied_compact hl hw ht hlen hroom
      condemned h.fixedAddresses summary
    obtain ⟨_, _, _, _, hsummary, _⟩ := compact_plans hl hlen hrun
    obtain ⟨f, hrel⟩ := compact_eq_ok hl hu hlen hrun
    have hzero : f 0 = 0 := by
      refine Classical.byContradiction fun hne => ?_
      obtain ⟨r, hr, -⟩ := hrel.space.moved hne
      exact absurd (hl.inside hr).1 (Nat.lt_irrefl 0)
    have hcards : h'.memory.cards = h.memory.cards := by rw [hrel.rest]
    have hwatch : h'.memory.writeWatch = h.memory.writeWatch := by rw [hrel.rest]
    refine ⟨summary', h', hrun, hrel.laid, hrel.spans, ⟨?_, ?_, ?_⟩, (stands_compact hlen hrun).1,
      congrArg Memory.provider hrel.rest, ht', hle, by rw [hsummary]⟩
    · apply hwritten.slots.carried hzero
      intro a r hr
      obtain ⟨b, q, hq, _, rfl⟩ := hrel.space.get?_iff.1 hr
      exact ⟨b, q, hq, rfl⟩
    · exact hcards ▸ hwritten.cards
    · exact hwatch ▸ hwritten.watch

/-- Nothing in a heap in which nothing was written stops a collection from reclaiming. -/
theorem tallied_reclaim (hl : h.memory.Laid) (hwritten : h.memory.Unwritten) (hw : h.space.Weighed)
    (ht : h.Tallied n) (htuning : h.config.tuning = {})
    (hroom : n + 4 * h.provider.space.range.size < Word.count)
    (hconsumed : consumed = none ∨ consumed = some []) (compacts : Bool)
    (condemned : Generation) (live : Nat → Record → Bool) (summary : CollectionSummary)
    (hrelocated : summary.objectsRelocated ≤ h.provider.space.range.size) :
    ∃ summary' h', reclaim condemned live compacts consumed summary h = .ok (.ok summary', h') ∧
      h'.memory.Unwritten ∧ h'.Tallied (n + 4 * h.provider.space.range.size) ∧
      summary'.bytesFreed ≤ h.provider.space.range.size ∧
      summary'.bytesPromoted ≤ h.provider.space.range.size ∧
      summary'.objectsRelocated ≤ h.provider.space.range.size := by
  let cleared : Heap := { h with
    handles := h.handles.clearDeadWeak fun a => (h.space.get? a).any (live a) }
  have hcleared : cleared.memory.Laid := hl.congr rfl rfl rfl
  have hswept : (h.swept live).2.Tallied n :=
    tallied_sweepDead (h := cleared) ⟨ht.statistics, ht.heaps⟩
  obtain ⟨h₁, hsweep⟩ := runs_rebuildSegments (laid_sweepDead hcleared live)
  have hsweep : (h.swept live).2.rebuildSegments = .ok h₁ := hsweep
  obtain ⟨hspace₁, hr₁⟩ := swept_eq_ok hl hsweep
  have hrefits := refits_rebuildSegments hsweep
  have ht₁ := hswept.same hrefits.sameTallies
  have hstands : cleared.Stands h₁ := (stands_sweepDead live).trans hrefits.stands
  have hrange : h₁.provider.space.range = h.provider.space.range := hr₁.range
  have hwritten₁ : h₁.memory.Unwritten := by
    have hcards : h₁.memory.cards = h.memory.cards := by rw [hr₁.rest]
    have hwatch : h₁.memory.writeWatch = h.memory.writeWatch := by rw [hr₁.rest]
    refine ⟨?_, hcards ▸ hwritten.cards, hwatch ▸ hwritten.watch⟩
    apply hwritten.slots.carried (f := id) rfl
    intro a r hr
    have hr : h₁.space.get? a = some r := hr
    rw [hspace₁, Option.filter_eq_some_iff] at hr
    exact ⟨a, r, hr.1, (List.map_id _).symm⟩
  have hlen : (h₁.survivalsOf condemned (h.swept live).1).length = h₁.heaps.length :=
    length_survivalsOf
  obtain ⟨summary₂, h₂, hcompact, hl₂, hu₂, hwritten₂, hstands₂, hp₂, ht₂, hmoved, hfreed⟩ :=
    tallied_compactIf hr₁.laid hr₁.spans hwritten₁ (hstands.weighed hw) ht₁ hlen
      (by rw [hrange]; omega) compacts condemned (freed (h.swept live).1 summary)
      (by rw [hrange]; exact hrelocated)
  have htuning₂ : h₂.config.tuning = {} := by
    rw [(hstands.trans hstands₂).config]
    exact htuning
  have hpins := pinnedObjects_le hr₁.laid condemned (h.swept live).1
  rw [hrange] at ht₂ hmoved
  rw [← hp₂] at hpins
  obtain ⟨summary', h', hsettle, hl', hwritten', ht', hpromoted, hsame, hbytes⟩ :=
    tallied_settle hl₂ hu₂ hwritten₂ ht₂ htuning₂
      (hlen.trans hstands₂.length.symm) hpins (by rw [hp₂, hrange]; omega) hconsumed
      condemned summary₂
  rw [hp₂, hrange] at ht' hpromoted
  refine ⟨summary', h', ?_, hwritten', ht'.mono (by omega), ?_, hpromoted, hsame ▸ hmoved⟩
  · refine reclaim_stages.2 ⟨h₁, summary₂, h₂, hsweep, hcompact, hsettle, ?_⟩
    unfold checkReclaimed
    rw [Effect.get_bind]
    split
    · rw [runs_requireSound hl' hwritten'.slots]
      rfl
    · rfl
  · rw [hbytes, hfreed]
    exact weight_swept_le hl

end Heap

end GenHeap
