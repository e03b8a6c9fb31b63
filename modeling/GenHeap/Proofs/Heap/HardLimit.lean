import GenHeap.Proofs.CompactionProgress
import GenHeap.Proofs.Heap.Shape

/-!
The hard limit of a heap bounds the bytes of its objects. An object that would pass the limit finds
no place, and nothing but a new object makes the objects heavier. What the provider has committed for
them is compared with nothing: it grows by whole granules, and may pass the limit.
-/

namespace GenHeap.Heap

open ObjectSpace (weight)

variable {h h' : Heap} {i size : Nat} {condemned target : Generation}
  {live : Nat → Record → Bool} {consumed : Option (List Nat)} {summary summary' : CollectionSummary}
  {survivals : List Survival} {x : Except HeapError CollectionSummary}

/-- Under the same configuration the objects weigh no more. -/
structure Lightens (h h' : Heap) : Prop where
  config : h'.config = h.config
  weight_le : weight h'.space.entries ≤ weight h.space.entries

theorem frame_lightens : Frame Lightens where
  refl _ := ⟨rfl, Nat.le_refl _⟩
  trans hl hl' := ⟨hl'.config.trans hl.config, Nat.le_trans hl'.weight_le hl.weight_le⟩

theorem lightens_of_space (hconfig : h'.config = h.config) (hspace : h'.space = h.space) :
    h.Lightens h' :=
  ⟨hconfig, Nat.le_of_eq (congrArg (fun s : ObjectSpace => weight s.entries) hspace)⟩

theorem Rests.lightens (hr : h.Rests h') : h.Lightens h' :=
  ⟨hr.config, Nat.le_of_eq hr.portions.weight⟩

/-! ## Collections -/

theorem lightens_swept (hrun : (h.swept live).2.rebuildSegments = .ok h') : h.Lightens h' := by
  refine ⟨(stands_swept hrun).config, ?_⟩
  have hleft := (refits_rebuildSegments hrun).rests.lightens.weight_le
  exact Nat.le_trans hleft (ObjectSpace.weight_removeWhere_le h.space _)

theorem lightens_compact {fixed : Std.TreeSet Nat} (hlen : survivals.length = h.heaps.length)
    (hrun : h.compact condemned fixed survivals summary = .ok (summary', h')) : h.Lightens h' := by
  refine ⟨(stands_compact hlen hrun).1.config, ?_⟩
  obtain ⟨_, heaps, p, _, _, happly⟩ := compact_stages.1 hrun
  obtain ⟨-, rfl⟩ | ⟨-, space, hspace, hrebuild⟩ := applyPlan_stages.1 happly
  · exact Nat.le_refl _
  · have hmoved := (refits_rebuildSegments hrebuild).rests.lightens.weight_le
    exact Nat.le_trans hmoved (CompactionPlan.weight_apply_le hspace)

/-- A promotion leaves the sizes of the objects. -/
theorem weight_promoteSurvivors
    (hrun : h.promoteSurvivors condemned summary = .ok (summary', h')) :
    weight h'.space.entries = weight h.space.entries := by
  simp only [promoteSurvivors, Checked.bind_eq_ok, Checked.pure_eq_ok, Prod.mk.injEq] at hrun
  obtain ⟨h₁, hfold, _, rfl⟩ := hrun
  refine Checked.foldlM_induct (fun k => weight k.space.entries = weight h.space.entries)
    (fun k x k' _ hk hstep => ?_) rfl hfold
  simp only [promote, Checked.bind_eq_ok, Checked.pure_eq_ok] at hstep
  obtain ⟨mid, hmid, rfl⟩ := hstep
  have hspace : mid.space = k.space := by
    rw [(map_updateHeap (g := fun _ => ()) (fun _ _ _ => rfl) hmid).1]
  have hresized (r : Record) : ({ r with generation := x.2.generation.promoted } : Record).size =
      r.size := rfl
  exact (ObjectSpace.weight_update hresized x.1).trans (hspace ▸ hk)

theorem lightens_settle (hlen : survivals.length = h.heaps.length)
    (hrun : settle condemned survivals consumed summary h = .ok (x, h')) : h.Lightens h' := by
  refine ⟨(stands_settle hlen hrun).config, ?_⟩
  obtain ⟨h₁, summary₁, h₂, htune, hpromote, hrun⟩ := settle_regroups.1 hrun
  simp only [tuneBudgets, Checked.bind_eq_ok, Checked.pure_eq_ok] at htune
  obtain ⟨heaps, _, rfl⟩ := htune
  have hpromoted := weight_promoteSurvivors (h := { h with heaps }) hpromote
  exact Nat.le_trans (steady_tidyUp hrun).lightens.weight_le (Nat.le_of_eq hpromoted)

theorem lightens_reclaim {compacts : Bool} :
    Steady Lightens (reclaim condemned live compacts consumed summary) :=
  steady_reclaim_of frame_lightens lightens_swept lightens_compact lightens_settle

theorem lightens_finishCollection (hrun : h.finishCollection summary = .ok h') :
    h.Lightens h' := by
  obtain ⟨_, -, rfl⟩ := finishCollection_stages.1 hrun
  exact lightens_of_space rfl rfl

theorem lightens_collect {generation : Generation} {reason : CollectionReason} :
    Steady Lightens (collect generation reason) := by
  intro k k' q hrun
  obtain ⟨scan, summary, k₁, y, k₂, hmark, hreclaim, hend⟩ := collect_cases hrun
  have hmarked := (rests_beginCollection.trans (rests_markCondemned hmark).1).lightens
  have hreclaimed := frame_lightens.trans hmarked (lightens_reclaim hreclaim)
  obtain ⟨e, -, -, rfl⟩ | ⟨summary', -, -, hfinish⟩ := hend
  · exact hreclaimed
  · have hturned : k₂.Lightens { k₂ with sweeper := { k₂.sweeper with next := 0 } } :=
      lightens_of_space rfl rfl
    exact frame_lightens.trans (frame_lightens.trans hreclaimed hturned)
      (lightens_finishCollection hfinish)

theorem lightens_completeBackground : Steady Lightens completeBackground := by
  intro k k' q hrun
  obtain ⟨-, -, rfl⟩ | ⟨b, summary, b₂, k₁, y, k₂, hb, hmark, hreclaim, hend⟩ :=
    completeBackground_cases hrun
  · exact frame_lightens.refl k
  · have hstopped : k.Lightens k.trace.stopCycle := lightens_of_space rfl rfl
    have hmarked := frame_lightens.trans hstopped (rests_finishMarking hmark).1.lightens
    have hreclaimed := frame_lightens.trans hmarked (lightens_reclaim hreclaim)
    obtain ⟨e, -, -, rfl⟩ | ⟨summary', -, -, hlast⟩ := hend
    · exact hreclaimed
    · have hdropped : k₂.Lightens ({ k₂ with
          sweeper := { k₂.sweeper with next := b₂.high } }.modifyHeaps fun l =>
            { l with savedEphemeral := none }) := lightens_of_space rfl rfl
      exact frame_lightens.trans (frame_lightens.trans hreclaimed hdropped)
        (lightens_finishCollection hlast)

/-! ## Allocations -/

theorem lightens_requireBudget : Steady Lightens (requireBudget i target size) :=
  steady_requireBudget_of frame_lightens (fun _ => lightens_collect)
    (steady_startBackground.mono Rests.lightens) lightens_completeBackground

theorem lightens_tryPlace : Steady Lightens (tryPlace i target size) := fun _ _ _ hrun =>
  (refits_tryPlace hrun).rests.lightens

theorem lightens_fail {α : Type} {reason : OutOfMemory.Reason} :
    Steady Lightens (@fail α i reason size target) := fun _ _ _ hrun =>
  lightens_of_space (congrArg Standing.config (standing_fail hrun).2)
    (congrArg Memory.space (memory_fail hrun).2)

theorem lightens_placeOrCollect : Steady Lightens (placeOrCollect i target size) :=
  steady_placeOrCollect_of frame_lightens lightens_tryPlace lightens_collect fun _ => lightens_fail

/-- No limit stands against so many bytes more. -/
def Spares (size : Nat) (h : Heap) : Prop :=
  ∀ limit, h.config.hardLimit = some limit → Word.addSat h.space.totalBytes size ≤ limit

/-- A place is found only where the limit leaves room. -/
theorem spares_tryPlace {p : Nat × Nat}
    (hrun : tryPlace i target size h = .ok (.ok (.ok p), h')) : h'.Spares size := by
  have hrefits := refits_tryPlace hrun
  have hspace : h'.space = h.space := by rw [hrefits.rest]
  obtain ⟨q, hplace, hq⟩ := tryPlace_stages.1 hrun
  cases hq
  rcases place_cases hplace with ⟨_, he, _⟩ | ⟨hunder, _⟩
  · cases he
  · intro limit hlimit
    rw [hrefits.stands.config] at hlimit
    rw [hlimit, Option.any_some, decide_eq_true_eq] at hunder
    rw [hspace]
    exact Nat.le_of_not_lt hunder

theorem spares_placeOrCollect {p : Nat × Nat}
    (hrun : placeOrCollect i target size h = .ok (.ok p, h')) : h'.Spares size := by
  rcases placeOrCollect_cases hrun with ⟨_, _, hfirst⟩ | ⟨_, h₁, _, hrest⟩
  · exact spares_tryPlace hfirst
  · rcases hrest with ⟨_, he, _⟩ | ⟨_, h₂, _, ⟨_, _, hsecond⟩ | ⟨_, h₃, _, hfail⟩⟩
    · cases he
    · exact spares_tryPlace hsecond
    · cases (standing_fail hfail).1

/-- The limit holds for the bytes of all objects. -/
def Capped (h : Heap) : Prop :=
  ∀ limit, h.config.hardLimit = some limit → weight h.space.entries ≤ limit

theorem Capped.lightens (hc : h.Capped) (hl : h.Lightens h') : h'.Capped := by
  intro limit hlimit
  rw [hl.config] at hlimit
  exact Nat.le_trans hl.weight_le (hc limit hlimit)

/-- An object that is put where the limit leaves room keeps within it. The sum that is compared with
the limit is the true one: one that does not fit a word could not be counted. -/
theorem capped_install (hs : h.Shaped) (hspares : h.Spares size) {request : AllocRequest} {a x : Nat}
    (hrun : install i request target size a x h = .ok h') : h'.Capped := by
  obtain ⟨total, htotal⟩ := standing_install hrun
  obtain ⟨space, hinsert, hm⟩ := install_eq_ok hrun
  have hspace : h'.space = space := congrArg Memory.space hm
  have hconfig : h'.config = h.config := congrArg Standing.config htotal
  have hweight := ObjectSpace.weight_insert_le hinsert
  have hfits : h.space.totalBytes + size < Word.count := by
    unfold ObjectSpace.insert at hinsert
    rw [Checked.bind_eq_ok] at hinsert
    obtain ⟨_, hadd, _⟩ := hinsert
    exact (Word.add_eq_ok_iff.1 hadd).1
  intro limit hlimit
  rw [hconfig] at hlimit
  have hsum : Word.addSat h.space.totalBytes size = h.space.totalBytes + size :=
    Nat.min_eq_left (Nat.le_pred_of_lt hfits)
  have hroom := hspares limit hlimit
  have hbytes : h.space.totalBytes = weight h.space.entries := hs.weighed
  rw [hsum] at hroom
  rw [hspace]
  exact Nat.le_trans hweight (hbytes ▸ hroom)

theorem capped_allocate (hs : h.Shaped) (hc : h.Capped) {request : AllocRequest}
    {y : Except HeapError Nat} (hrun : allocate i request h = .ok (y, h')) : h'.Capped := by
  cases allocate_cases hrun with
  | unknown => exact hc
  | oversized _ _ hfail => exact hc.lightens (lightens_fail hfail)
  | uncollected _ _ hbudget => exact hc.lightens (lightens_requireBudget hbudget)
  | unplaced _ _ hbudget hplace =>
    have hbudgeted := hc.lightens (lightens_requireBudget hbudget)
    exact hbudgeted.lightens (lightens_placeOrCollect hplace)
  | installed _ _ hbudget hplace hinstall =>
    have hplaced := (hs.stands (steady_requireBudget hbudget)).placeOrCollect hplace
    exact capped_install hplaced (spares_placeOrCollect hplace) hinstall

/-! ## Runs -/

theorem Capped.apply (hs : h.Shaped) (hc : h.Capped) {op : Operation}
    (hrun : op.apply h = .ok h') : h'.Capped := by
  cases op with
  | allocate i request =>
    obtain ⟨y, hrun⟩ := after_eq_ok.1 hrun
    exact capped_allocate hs hc hrun
  | findBlock i target size =>
    obtain ⟨y, hrun⟩ := after_eq_ok.1 hrun
    exact hc.lightens (lightens_tryPlace hrun)
  | collect generation reason =>
    obtain ⟨y, hrun⟩ := after_eq_ok.1 hrun
    exact hc.lightens (lightens_collect hrun)
  | startBackground =>
    obtain ⟨y, hrun⟩ := after_eq_ok.1 hrun
    exact hc.lightens (steady_startBackground hrun).lightens
  | completeBackground =>
    obtain ⟨y, hrun⟩ := after_eq_ok.1 hrun
    exact hc.lightens (lightens_completeBackground hrun)
  | _ =>
    obtain ⟨_, _, hrests⟩ := rests_apply hrun rfl nofun
    exact hc.lightens ⟨hrests.lightens.config, hrests.lightens.weight_le⟩

theorem Strained.capped (hs : h.Strained) : h.Capped := by
  induction hs with
  | start _ hrun =>
    intro limit _
    rw [(standing_onRange hrun).2, ObjectSpace.entries_empty]
    exact Nat.zero_le limit
  | step op hs hrun ih => exact ih.apply hs.shaped hrun
  | refuseReturns _ _ _ ih => exact ih

/-- The objects of a heap with a hard limit take no more bytes than that, in all its states, also
where the provider refuses to give or to take back memory. -/
theorem objects_within_limit (hs : h.Strained) {limit : Nat}
    (hlimit : h.config.hardLimit = some limit) :
    h.space.totalBytes = Word.total (h.space.entries.map (·.2.size)) ∧
      h.space.totalBytes ≤ limit := by
  have hbytes : h.space.totalBytes = weight h.space.entries := hs.shaped.weighed
  exact ⟨hbytes, hbytes ▸ hs.capped limit hlimit⟩

/-- Two live objects have room under a limit of 100 bytes. A third one is refused, after a collection
that finds nothing to free. -/
theorem objects_within_limit_hundred : ∃ h : Heap, h.Strained ∧ h.config.hardLimit = some 100 ∧
    Word.total (h.space.entries.map (·.2.size)) = 96 ∧ 96 ≤ 100 ∧
    h.statistics.allocationFailures = 1 := by
  have hhundred : leadsTo { pageConfig with hardLimit := some 100 }
      [.allocate 0 { size := 48 }, .createHandle .strong 4096, .allocate 0 { size := 48 },
        .createHandle .strong 4144, .allocate 0 { size := 48 }]
      (fun h => h.config.hardLimit == some 100 && h.space.totalBytes == 96 &&
        h.statistics.allocationFailures == 1) = true := by
    decide +kernel
  obtain ⟨h, hr, hp⟩ := exists_of_leadsTo hhundred
  simp only [Bool.and_eq_true, beq_iff_eq] at hp
  obtain ⟨⟨hlimit, hbytes⟩, hfailures⟩ := hp
  obtain ⟨hsum, hle⟩ := objects_within_limit hr.strained hlimit
  exact ⟨h, hr.strained, hlimit, hsum.symm.trans hbytes, hbytes ▸ hle, hfailures⟩

/-- One object of 48 bytes under a limit of 64, for which the provider has committed a whole page. -/
theorem limit_passed_by_commits : ∃ h : Heap, h.Reachable ∧ h.config.hardLimit = some 64 ∧
    h.provider.space.committed = 4096 := by
  have hpage : leadsTo { pageConfig with hardLimit := some 64 } [.allocate 0 { size := 48 }]
      (fun h => h.config.hardLimit == some 64 && h.provider.space.committed == 4096) = true := by
    decide +kernel
  obtain ⟨h, hr, hp⟩ := exists_of_leadsTo hpage
  simp only [Bool.and_eq_true, beq_iff_eq] at hp
  exact ⟨h, hr, hp.1, hp.2⟩

end GenHeap.Heap
