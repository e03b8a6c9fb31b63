import GenHeap.Proofs.Heap.Owners
import GenHeap.Proofs.Heap.Zones

/-!
What a collection does with the segments that it finds empty. In the order of the generations, and
in each of them from the oldest segment on, it keeps as many spare segments as the configuration
asks for; the ranges of all others go to the pool or back to the provider.
-/

namespace GenHeap.Heap

open Provider (TakesBack)

variable {h h' k k' : Heap} {condemned : Generation} {live : Nat → Record → Bool} {compacts : Bool}
  {survivals : List Survival} {consumed : Option (List Nat)}
  {summary summary' : CollectionSummary}

/-! ## The heap in which a collection looks for empty segments -/

/-- What is made of swept segments before a look at the empty ones: with new budgets, and with
survivors and regions that are older. -/
def regrouped (condemned : Generation) (survivals : List Survival) (summary : CollectionSummary)
    (h : Heap) : Checked Heap := do
  let h ← h.tuneBudgets condemned survivals
  let (_, h) ← h.promoteSurvivors condemned summary
  after ((List.range h.heaps.length).forM (syncHeap condemned)) h

/-- What reclaiming makes of a marked heap before a look at the empty segments. -/
def tidied (condemned : Generation) (live : Nat → Record → Bool) (compacts : Bool)
    (summary : CollectionSummary) (h : Heap) : Checked Heap := do
  let swept ← (h.swept live).2.rebuildSegments
  let survivals := swept.survivalsOf condemned (h.swept live).1
  let (summary, h) ← swept.compactIf compacts condemned survivals (freed (h.swept live).1 summary)
  h.regrouped condemned survivals summary

/-- What a collection in a pause makes of a heap before a look at the empty segments. -/
def tidiedByCollect (generation : Generation) (reason : CollectionReason) (h : Heap) :
    Checked Heap := do
  let condemned := h.condemnedOf generation
  let (_, summary, marked) ← h.beginCollection.markCondemned condemned
    { index := h.beginCollection.collections, condemned, reason
      abortedBackground := h.background.isSome }
  marked.tidied condemned (outlives condemned) true summary

/-- What completing a cycle makes of a heap before a look at the empty segments. -/
def tidiedByCompletion (h : Heap) : Checked (Option Heap) := do
  let some cycle := h.trace.background | return none
  let (summary, cycle, marked) ← h.trace.stopCycle.finishMarking cycle
  return some (← marked.tidied .gen2 (fun a _ => cycle.isLive a) false summary)

/-- What becomes of the empty segments: each logical heap keeps what it may, and the provider takes
back the ranges that no pool takes, and all that was committed for what goes. -/
structure GivesBack (k h' : Heap) : Prop where
  length : h'.heaps.length = k.heaps.length
  space : h'.space = k.space
  tables : ∀ {i : Nat} {l l' : LogicalHeap}, k.heaps[i]? = some l → h'.heaps[i]? = some l' →
    l.segments.KeepsSpare k.retained k.space l'.segments
  provider : TakesBack (k.heaps.flatMap fun l => l.segments.released (k.surplus l))
    (Word.total ((k.heaps.flatMap k.surplus).map (·.committed))) k.provider h'.provider

/-- It depends on tables, objects and the provider only. -/
theorem GivesBack.congr (hg : k.GivesBack k') (htables : h'.memory.tables = k'.memory.tables)
    (hspace : h'.memory.space = k'.memory.space)
    (hprovider : h'.memory.provider = k'.memory.provider) : k.GivesBack h' where
  length := by
    rw [← length_tables, htables, length_tables]
    exact hg.length
  space := hspace.trans hg.space
  tables {i l l'} hl hl' := by
    have htable := getElem?_tables hl'
    rw [htables] at htable
    obtain ⟨x, hx, he⟩ := Option.map_eq_some_iff.1 ((List.getElem?_map ..).symm.trans htable)
    rw [← he]
    exact hg.tables hl hx
  provider := by
    rw [show h'.provider = k'.provider from hprovider]
    exact hg.provider

/-- All logical heaps have given their surplus back. -/
theorem Sheds.givesBack (hs : k.Sheds k.heaps.length k') (hl : k.memory.Laid) : k.GivesBack k' where
  length := by
    have hlen := hs.rearranged.heaps
    rwa [length_tables, length_tables] at hlen
  space := hs.space
  tables hheap hheap' := by
    obtain ⟨x, hx, hsheds⟩ := hs.done (List.getElem?_eq_some_iff.1 hheap).1 hheap
    cases hx.symm.trans hheap'
    exact hsheds.keepsSpare (hl.wellFormed (getElem?_tables hheap))
  provider := by
    have hprovider := hs.provider
    rwa [List.take_length] at hprovider

/-! ## Whole collections -/

theorem Standing.Shaped.anchored (hs : h.standing.Shaped) (hl : h.memory.Laid)
    (ht : h.memory.Tiered) : ∀ l ∈ h.heaps, l.segments.Anchored := by
  intro l hmem
  obtain ⟨i, hheap⟩ := List.mem_iff_getElem?.1 hmem
  have htable := getElem?_tables hheap
  refine (ht _ _ htable).anchored (hl.wellFormed htable) fun hregions => ?_
  have hconstants := hs.constants l.standing (List.mem_map_of_mem hmem)
  have hlayout : h.config.layout = .regions :=
    (congrArg SegmentTable.layout hconstants).symm.trans hregions
  exact (hs.regions hlayout hheap).2.1

theorem settle_givesBack (hl : h.memory.Laid) (hu : h.memory.SpansUnused) (ht : h.memory.Tiered)
    (hs : h.standing.Shaped) (hlen : survivals.length = h.heaps.length)
    (hrun : settle condemned survivals consumed summary h = .ok (.ok summary', h')) :
    ∃ k, h.regrouped condemned survivals summary = .ok k ∧ k.config = h.config ∧
      k.GivesBack h' := by
  obtain ⟨h₁, h₂, h₃, h₄, htune, hpromote, hsync, hback, hrefresh⟩ := settle_stages.1 hrun
  obtain ⟨hm₂, _, hl₂, hu₂⟩ := promoted_eq_ok hl hu hlen htune hpromote
  obtain ⟨_, hr₃⟩ := syncHeaps_eq_ok hl₂ hu₂ hsync
  have hstands := stands_regrouped hlen htune hpromote hsync
  have htables : h₂.memory.tables = h.memory.tables := by rw [hm₂]
  have htiered : h₃.memory.Tiered :=
    ((Memory.SameZones.of_tables htables).trans (zones_syncHeaps hl₂ hu₂ hsync)).tiered ht
  have hlen₃ : h₂.heaps.length = h₃.heaps.length := by
    rw [← length_tables (h := h₃), hr₃.heaps, ← length_tables]
  rw [hlen₃] at hback
  have hanchored := (hstands.standing.symm ▸ hs : h₃.standing.Shaped).anchored hr₃.laid htiered
  have hgiven := (decommitHeaps_sheds hr₃.laid hr₃.spans hanchored hback).givesBack hr₃.laid
  obtain ⟨cards, hm'⟩ := memory_refreshCards hrefresh
  refine ⟨h₃, ?_, hstands.config, hgiven.congr ?_ ?_ ?_⟩
  · refine Checked.bind_eq_ok.2 ⟨h₁, htune, Checked.bind_eq_ok.2 ⟨_, hpromote, ?_⟩⟩
    exact after_eq_ok.2 ⟨_, hsync⟩
  all_goals rw [hm']

theorem reclaim_givesBack (hl : h.memory.Laid) (ht : h.memory.Tiered) (hs : h.standing.Shaped)
    (hrun : reclaim condemned live compacts consumed summary h = .ok (.ok summary', h')) :
    ∃ k, h.tidied condemned live compacts summary = .ok k ∧ k.config = h.config ∧
      k.GivesBack h' := by
  obtain ⟨h₁, summary₂, h₂, hsweep, hcompact, hsettle, -⟩ := reclaim_stages.1 hrun
  obtain ⟨_, hr₁⟩ := swept_eq_ok hl hsweep
  obtain ⟨hl₂, hu₂, hlen₂⟩ := compactIf_eq_ok hr₁.laid hr₁.spans length_survivalsOf hcompact
  have hstands := (stands_swept hsweep).trans (stands_compactIf length_survivalsOf hcompact)
  have hzones := (sameZones_swept hsweep).trans
    (sameZones_compactIf hr₁.laid length_survivalsOf hcompact)
  have htiered := hzones.tiered ht
  obtain ⟨k, hgrouped, hconfig, hgiven⟩ := settle_givesBack hl₂ hu₂ htiered
    (hstands.standing.symm ▸ hs) (length_survivalsOf.trans hlen₂.symm) hsettle
  refine ⟨k, ?_, hconfig.trans hstands.config, hgiven⟩
  exact Checked.bind_eq_ok.2 ⟨h₁, hsweep, Checked.bind_eq_ok.2 ⟨_, hcompact, hgrouped⟩⟩

theorem collect_givesBack (hr : h.Reachable) {generation : Generation} {reason : CollectionReason}
    (hrun : collect generation reason h = .ok (.ok summary', h')) :
    ∃ k, h.tidiedByCollect generation reason = .ok k ∧ k.config = h.config ∧ k.GivesBack h' := by
  obtain ⟨scan, summary₁, h₁, h₂, hmark, hreclaim, hfinish⟩ := collect_stages.1 hrun
  obtain ⟨space, marked, hmarked⟩ := marked_of_markCondemned hr.sound hmark
  obtain ⟨hl₁, _, _⟩ := hmarked.keeps hr.sound
  obtain ⟨watching, watch, _, hm₁⟩ := hmarked.memory
  have hsame : h.memory.SameZones h₁.memory := .of_tables (by rw [hm₁])
  have hstands := (rests_beginCollection.trans (rests_markCondemned hmark).1).toStands
  obtain ⟨k, htidied, hconfig, hgiven⟩ := reclaim_givesBack hl₁ (hsame.tiered hr.consistent.tiered)
    (hstands.standing.symm ▸ hr.shaped.standing) hreclaim
  refine ⟨k, Checked.bind_eq_ok.2 ⟨_, hmark, htidied⟩, hconfig.trans hstands.config, ?_⟩
  refine hgiven.congr ?_ ?_ ?_
  all_goals rw [memory_finishCollection hfinish, memory_sweeper]

theorem completeBackground_givesBack (hr : h.Reachable) {b : BackgroundMark}
    (hb : h.background = some b)
    (hrun : completeBackground h = .ok (.ok (some summary'), h')) :
    ∃ k, h.tidiedByCompletion = .ok (some k) ∧ k.config = h.config ∧ k.GivesBack h' := by
  have htraced := background_trace hb
  obtain ⟨summary₁, b', h₁, h₂, hfinish, hreclaim, hlast⟩ :=
    (completeBackground_stages htraced).1 hrun
  obtain ⟨found, hpaused⟩ := paused_of_finishMarking hr.sound htraced hfinish
  obtain ⟨hl₁, _, _⟩ := hpaused.keeps hr.sound
  have hsame : h.memory.SameZones h₁.memory := .of_tables (by rw [hpaused.memory])
  have hrests := (rests_finishMarking hfinish).1
  have hstands : h.Stands h₁ := ⟨hrests.standing, hrests.willing, hrests.weighed⟩
  obtain ⟨k, htidied, hconfig, hgiven⟩ := reclaim_givesBack hl₁ (hsame.tiered hr.consistent.tiered)
    (hstands.standing.symm ▸ hr.shaped.standing) hreclaim
  refine ⟨k, ?_, hconfig.trans hstands.config, hgiven.congr ?_ ?_ ?_⟩
  · unfold tidiedByCompletion
    simp only [htraced]
    exact Checked.bind_eq_ok.2 ⟨_, hfinish, Checked.bind_eq_ok.2 ⟨k, htidied, rfl⟩⟩
  all_goals rw [memory_finishCollection hlast, memory_dropSaved, memory_sweeper]

/-- The spare segments of all logical heaps. -/
def spareIds (h : Heap) : List (List Nat) :=
  h.heaps.map fun l => (l.segments.spares h.space).map (·.id)

/-- In every collection the generations of a logical heap share one allowance of spare segments.
What is beyond it goes; segments with objects, and those in which a generation allocates, stay. -/
theorem spare_segments_shared (hr : h.Reachable) :
    (∀ {generation reason y h'}, collect generation reason h = .ok (y, h') → ∃ summary k,
      y = .ok summary ∧ h.tidiedByCollect generation reason = .ok k ∧ k.config = h.config ∧
        k.GivesBack h') ∧
    ∀ {y h'}, h.background ≠ none → completeBackground h = .ok (y, h') → ∃ summary k,
      y = .ok (some summary) ∧ h.tidiedByCompletion = .ok (some k) ∧ k.config = h.config ∧
        k.GivesBack h' := by
  constructor
  · intro generation reason y h' hrun
    obtain ⟨summary, _, rfl, _⟩ := collect_eq_ok hr.sound hrun
    obtain ⟨k, hgiven⟩ := collect_givesBack hr hrun
    exact ⟨summary, k, rfl, hgiven⟩
  · intro y h' hcycle hrun
    obtain ⟨b, hb⟩ := Option.ne_none_iff_exists'.1 hcycle
    obtain ⟨summary, _, rfl, _⟩ := completeBackground_eq_ok hr.sound hb hrun
    obtain ⟨k, hgiven⟩ := completeBackground_givesBack hr hb hrun
    exact ⟨summary, k, rfl, hgiven⟩

/-- Two generations have two regions each, and no objects. One of the regions that neither of them
allocates in is kept, and the other one goes to the pool, in a pause as well as in a cycle. -/
theorem spare_segments_shared_regions : ∃ h h₁ h₂ k₁ k₂ : Heap, h.Reachable ∧
    h.background ≠ none ∧ h.retained = 1 ∧ h.spareIds = [[]] ∧
    (∃ summary, collect .gen2 .induced h = .ok (.ok summary, h₁)) ∧
    h.tidiedByCollect .gen2 .induced = .ok k₁ ∧ k₁.spareIds = [[0, 2]] ∧ h₁.spareIds = [[0]] ∧
    (∃ summary, completeBackground h = .ok (.ok (some summary), h₂)) ∧
    h.tidiedByCompletion = .ok (some k₂) ∧ k₂.spareIds = [[0, 2]] ∧ h₂.spareIds = [[0]] ∧
    h₂.heaps.map (·.segments.freeRegions) = [[⟨12288, 4096⟩]] ∧
    k₁.GivesBack h₁ ∧ k₂.GivesBack h₂ := by
  have hempty : leadsTo { pageConfig with layout := .regions }
      [.allocate 0 { size := 4096, generation := .gen2 },
        .allocate 0 { size := 4096, generation := .gen2 },
        .allocate 0 { size := 4096, generation := .large },
        .allocate 0 { size := 4096, generation := .large }, .startBackground]
      (fun h => h.background.isSome && h.retained == 1 && h.spareIds == [[]] &&
        ((collect .gen2 .induced).apply h).toOption.any (fun x => x.2.spareIds == [[0]]) &&
        (h.tidiedByCollect .gen2 .induced).toOption.any (fun k => k.spareIds == [[0, 2]]) &&
        (completeBackground.apply h).toOption.any (fun x => x.2.spareIds == [[0]] &&
          x.2.heaps.map (·.segments.freeRegions) == [[⟨12288, 4096⟩]]) &&
        h.tidiedByCompletion.toOption.any fun k =>
          k.any fun k => k.spareIds == [[0, 2]]) = true := by
    decide +kernel
  obtain ⟨h, hr, hp⟩ := exists_of_leadsTo hempty
  simp only [Bool.and_eq_true, beq_iff_eq] at hp
  obtain ⟨⟨⟨⟨⟨⟨hcycle, hkept⟩, hnone⟩, hcollect⟩, hpaused⟩, hcomplete⟩, hcompleted⟩ := hp
  have hcycle : h.background ≠ none := Option.isSome_iff_ne_none.1 hcycle
  obtain ⟨⟨y₁, h₁⟩, hrun₁, hleft₁⟩ := Checked.of_any hcollect
  obtain ⟨⟨y₂, h₂⟩, hrun₂, hleft₂⟩ := Checked.of_any hcomplete
  obtain ⟨k₁, htidied₁, hfound₁⟩ := Checked.of_any hpaused
  obtain ⟨found, htidied₂, hfound₂⟩ := Checked.of_any hcompleted
  obtain ⟨k₂, rfl, hfound₂⟩ := (Option.any_eq_true _ found).1 hfound₂
  simp only [Bool.and_eq_true, beq_iff_eq] at hleft₁ hleft₂ hfound₁
  have hfound₂ : k₂.spareIds = [[0, 2]] := eq_of_beq hfound₂
  obtain ⟨summary₁, _, rfl, he₁, _, hgiven₁⟩ := (spare_segments_shared hr).1 hrun₁
  obtain ⟨summary₂, _, rfl, he₂, _, hgiven₂⟩ := (spare_segments_shared hr).2 hcycle hrun₂
  cases htidied₁.symm.trans he₁
  cases htidied₂.symm.trans he₂
  exact ⟨h, h₁, h₂, k₁, k₂, hr, hcycle, hkept, hnone, ⟨summary₁, hrun₁⟩, htidied₁, hfound₁, hleft₁,
    ⟨summary₂, hrun₂⟩, htidied₂, hfound₂, hleft₂.1, hleft₂.2, hgiven₁, hgiven₂⟩

/-- A generation that has one spare segment loses it, because another one has one as well. -/
theorem spare_segment_lost : ∃ (h h' k : Heap) (l l' : LogicalHeap) (summary : CollectionSummary),
    h.Reachable ∧ h.retained = 1 ∧ collect .gen2 .induced h = .ok (.ok summary, h') ∧
    h.tidiedByCollect .gen2 .induced = .ok k ∧ k.heaps[0]? = some l ∧ h'.heaps[0]? = some l' ∧
    (l.segments.sparesOf k.space .gen2).map (·.id) = [0] ∧
    (l.segments.sparesOf k.space .large).map (·.id) = [2] ∧
    l'.segments.find? 2 = none ∧ l'.segments.sparesOf h'.space .large ≠
      (l.segments.sparesOf k.space .large).take h.retained := by
  have hlost : leadsTo { pageConfig with concurrent := false }
      [.allocate 0 { size := 4096, generation := .gen2 },
        .allocate 0 { size := 4096, generation := .gen2 },
        .allocate 0 { size := 4096, generation := .large },
        .allocate 0 { size := 4096, generation := .large }]
      (fun h => h.retained == 1 && ((collect .gen2 .induced).apply h).toOption.any fun x =>
        x.1.toOption.isSome && (h.tidiedByCollect .gen2 .induced).toOption.any fun k =>
          k.heaps[0]?.any fun l => x.2.heaps[0]?.any fun l' =>
            (l.segments.sparesOf k.space .gen2).map (·.id) == [0] &&
            (l.segments.sparesOf k.space .large).map (·.id) == [2] &&
            l'.segments.find? 2 == none &&
            l'.segments.sparesOf x.2.space .large !=
              (l.segments.sparesOf k.space .large).take h.retained) = true := by
    decide +kernel
  obtain ⟨h, hr, hp⟩ := exists_of_leadsTo hlost
  simp only [Bool.and_eq_true, beq_iff_eq] at hp
  obtain ⟨hkept, hp⟩ := hp
  obtain ⟨⟨y, h'⟩, hrun, hp⟩ := Checked.of_any hp
  obtain ⟨hanswer, hp⟩ := Bool.and_eq_true_iff.1 hp
  obtain ⟨k, htidied, hp⟩ := Checked.of_any hp
  obtain ⟨l, hl, hp⟩ := (Option.any_eq_true _ _).1 hp
  obtain ⟨l', hl', hp⟩ := (Option.any_eq_true _ _).1 hp
  simp only [Bool.and_eq_true, beq_iff_eq, bne_iff_ne] at hp
  obtain ⟨⟨⟨hold, hlarge⟩, hgone⟩, hfewer⟩ := hp
  cases y with
  | error e => cases hanswer
  | ok summary =>
    exact ⟨h, h', k, l, l', summary, hr, hkept, hrun, htidied, hl, hl', hold, hlarge, hgone, hfewer⟩

end GenHeap.Heap
