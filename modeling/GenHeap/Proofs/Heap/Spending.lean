import GenHeap.Proofs.Heap.Conservation
import GenHeap.Proofs.Spending

/-!
What is spent of the budgets of a heap. Every object that is installed and every collection is entered
in a log, with the objects that the collection promoted; the bytes that a generation counts are those
of the entries since the last collection that condemned it, with what that collection promoted into
it. Nothing that is not entered changes the count.
-/

namespace GenHeap

open ObjectSpace (posting)

/-- What is entered on the budgets: an object that was installed, or a collection with the objects that
it promoted, as they were before. -/
inductive BudgetEntry where
  | installed (object : Nat × Record)
  | collected (condemned : Generation) (promoted : List (Nat × Record))

namespace BudgetEntry

/-- The bytes with which an entry charges a generation of a logical heap. -/
def charge (i : Nat) (g : Generation) : BudgetEntry → Nat
  | installed x => charged id [x] i g
  | collected _ promoted => charged Generation.promoted promoted i g

/-- Whether a generation begins anew with an entry. -/
def resets (g : Generation) : BudgetEntry → Bool
  | installed _ => false
  | collected condemned _ => g.condemnedBy condemned

def isCollection : BudgetEntry → Bool
  | installed _ => false
  | collected .. => true

end BudgetEntry

/-- The bytes that entries charge to a generation, up to the last collection that condemned it. The
newest entry is the first. -/
def consumed (i : Nat) (g : Generation) : List BudgetEntry → Nat
  | [] => 0
  | e :: older => e.charge i g + if e.resets g then 0 else consumed i g older

namespace Heap

/-- The objects that a collection of `condemned` promotes: those that survive it in the generations
that it condemns, but for the oldest ones. -/
structure Promotes (h : Heap) (condemned : Generation) (survives : Nat → Prop)
    (promoted : List (Nat × Record)) : Prop where
  nodup : promoted.Nodup
  mem_iff : ∀ x, x ∈ promoted ↔
    h.space.get? x.1 = some x.2 ∧ isPromoted condemned x.2 = true ∧ survives x.1

variable {h h' : Heap} {i x a size : Nat} {condemned target : Generation}
  {live : Nat → Record → Bool} {consumed : Option (List Nat)}
  {summary summary' : CollectionSummary} {survivals : List Survival}
  {spent : Nat → Generation → Nat} {promoted : List (Nat × Record)} {survives : Nat → Prop}

theorem exists_promotes (h : Heap) (condemned : Generation) (survives : Nat → Prop) :
    ∃ promoted, h.Promotes condemned survives promoted := by
  classical
  refine ⟨h.space.entries.filter fun x => isPromoted condemned x.2 && decide (survives x.1),
    (ObjectSpace.entries_nodup h.space).filter _, fun x => ?_⟩
  rw [List.mem_filter, ObjectSpace.mem_entries, Bool.and_eq_true, decide_eq_true_iff]

/-- What is promoted can be read off a space with the survivors, whatever else changed there. -/
theorem Promotes.charged_eq (hp : h.Promotes condemned survives promoted) {s : ObjectSpace}
    (hs : ∀ a y, (s.get? a).map posting = some y ↔
      survives a ∧ (h.space.get? a).map posting = some y)
    {into : Generation → Generation} (g : Generation) : charged into promoted i g =
      charged into (s.entries.filter fun x => isPromoted condemned x.2) i g := by
  have hnodup : (promoted.map fun x => (x.1, posting x.2)).Nodup := by
    refine List.Nodup.map_on (fun x hx y hy he => ?_) hp.nodup
    have haddress : x.1 = y.1 := (Prod.mk.inj he).1
    have hget := ((hp.mem_iff x).1 hx).1
    rw [haddress, ((hp.mem_iff y).1 hy).1] at hget
    exact Prod.ext haddress (Option.some.inj hget).symm
  have hnodup' : ((s.entries.filter fun x => isPromoted condemned x.2).map
      fun x => (x.1, posting x.2)).Nodup := by
    refine List.Nodup.map_on (fun x hx y hy he => ?_) ((ObjectSpace.entries_nodup s).filter _)
    have haddress : x.1 = y.1 := (Prod.mk.inj he).1
    have hget := ObjectSpace.mem_entries.1 (List.mem_filter.1 hx).1
    rw [haddress, ObjectSpace.mem_entries.1 (List.mem_filter.1 hy).1] at hget
    exact Prod.ext haddress (Option.some.inj hget).symm
  have hperm : (promoted.map fun x => (x.1, posting x.2)).Perm
      ((s.entries.filter fun x => isPromoted condemned x.2).map fun x => (x.1, posting x.2)) := by
    refine (List.perm_ext_iff_of_nodup hnodup hnodup').2 fun (a, y) => ?_
    simp only [List.mem_map, List.mem_filter, Prod.exists, Prod.mk.injEq, ObjectSpace.mem_entries,
      hp.mem_iff]
    constructor
    · rintro ⟨_, r, ⟨hr, hpromoted, ha⟩, rfl, rfl⟩
      obtain ⟨q, hq, he⟩ := Option.map_eq_some_iff.1 ((hs _ (posting r)).2 ⟨ha, by rw [hr]; rfl⟩)
      have hsame : isPromoted condemned q = isPromoted condemned r :=
        congrArg (fun y : Nat × Nat × Generation =>
          y.2.2.ephemeral && y.2.2.condemnedBy condemned) he
      exact ⟨_, q, ⟨hq, hsame.trans hpromoted⟩, rfl, he⟩
    · rintro ⟨_, q, ⟨hq, hpromoted⟩, rfl, rfl⟩
      obtain ⟨ha, hr⟩ := (hs _ (posting q)).1 (by rw [hq]; rfl)
      obtain ⟨r, hr, he⟩ := Option.map_eq_some_iff.1 hr
      have hsame : isPromoted condemned r = isPromoted condemned q :=
        congrArg (fun y : Nat × Nat × Generation =>
          y.2.2.ephemeral && y.2.2.condemnedBy condemned) he
      exact ⟨_, r, ⟨hr, hsame.trans hpromoted, ha⟩, rfl, he⟩
  have hpostings := hperm.map Prod.snd
  rw [List.map_map, List.map_map] at hpostings
  unfold charged
  rw [ObjectSpace.portion_eq, ObjectSpace.portion_eq]
  exact Word.total_perm (hpostings.map _)

/-- The promoted objects of a space are a portion of it. -/
theorem charged_isPromoted (objects : List (Nat × Record)) (g : Generation) :
    charged Generation.promoted (objects.filter fun x => isPromoted condemned x.2) i g =
      ObjectSpace.portion (fun j k => (j == i && k.promoted == g) &&
        (k.ephemeral && k.condemnedBy condemned)) objects := by
  unfold charged ObjectSpace.portion
  rw [List.filter_filter]
  rfl

/-! ## Reclaiming -/

theorem spends_rests (hs : Spends h.budgets spent) (hr : h.Rests h') : Spends h'.budgets spent := by
  have hbudgets : h'.budgets = h.budgets := congrArg Accounts.budgets hr.accounts
  rw [hbudgets]
  exact hs

theorem spends_sweepDead (hs : Spends h.budgets spent) (live : Nat → Record → Bool) :
    Spends (h.sweepDead live).2.budgets spent := by
  have hfold (gone : List (Nat × Record)) (k : Heap) (hk : Spends k.budgets spent) :
      Spends (gone.foldl (fun h x => h.modifyHeap x.2.heap fun l =>
        { l with budgets := l.budgets.discharge x.2.generation x.2.size }) k).budgets spent := by
    induction gone generalizing k with
    | nil => exact hk
    | cons x gone ih =>
      refine ih _ ?_
      have hbudgets := map_modify (g := LogicalHeap.budgets) (f := fun l =>
        { l with budgets := l.budgets.discharge x.2.generation x.2.size })
        (k := (·.discharge x.2.generation x.2.size)) k.heaps x.2.heap fun _ => rfl
      show Spends ((k.heaps.modify x.2.heap _).map LogicalHeap.budgets) spent
      rw [hbudgets]
      exact hk.discharge _ _ _
  exact hfold _ h hs

theorem spends_tuneBudgets (hs : Spends h.budgets spent)
    (hrun : h.tuneBudgets condemned survivals = .ok h') :
    Spends h'.budgets fun i g => if g.condemnedBy condemned then 0 else spent i g := by
  simp only [tuneBudgets, Checked.bind_eq_ok, Checked.pure_eq_ok] at hrun
  obtain ⟨heaps, hheaps, rfl⟩ := hrun
  intro j t' ht' g
  obtain ⟨l', hl', rfl⟩ := Option.map_eq_some_iff.1 ((List.getElem?_map ..).symm.trans ht')
  rcases Checked.mapM_getElem? hheaps j with ⟨_, hnone⟩ | ⟨⟨l, s⟩, l'', hzip, hl'', hone⟩
  · rw [hnone] at hl'
    cases hl'
  · cases hl''.symm.trans hl'
    simp only [Checked.bind_eq_ok, Checked.pure_eq_ok] at hone
    obtain ⟨budgets, hbudgets, _, _, rfl⟩ := hone
    have hl : h.heaps[j]? = some l := (List.getElem?_zip_eq_some.1 hzip).1
    have ht : h.budgets[j]? = some l.budgets := by
      unfold Heap.budgets
      rw [List.getElem?_map, hl, Option.map_some]
    show (budgets.get g).allocated = if g.condemnedBy condemned then 0 else spent j g
    rw [BudgetTable.allocated_finishCollection hbudgets, hs j l.budgets ht]

/-- A survivor is charged to the generation that it goes to. -/
theorem spends_promote {x : Nat × Record} (hs : Spends h.budgets spent)
    (hrun : h.promote x.1 x.2 = .ok h') : Spends h'.budgets fun i g =>
      charged Generation.promoted [x] i g + spent i g := by
  simp only [promote, Checked.bind_eq_ok, Checked.pure_eq_ok] at hrun
  obtain ⟨mid, hmid, rfl⟩ := hrun
  obtain ⟨_, _, hbudgets⟩ := budgets_updateHeap
    (X := fun t =>
      (t.discharge x.2.generation x.2.size).charge x.2.generation.promoted x.2.size)
    (fun l l' hl => by
      simp only [Checked.bind_eq_ok, Checked.pure_eq_ok] at hl
      obtain ⟨budgets, hbudgets, _, _, rfl⟩ := hl
      exact hbudgets) hmid
  show Spends mid.budgets _
  rcases hbudgets with ⟨hnone, hsame⟩ | ⟨t, t', ht, hcharge, hset⟩
  · rw [hsame]
    exact hs.of_none _ hnone
  · rw [hset]
    refine hs.charge _ ht fun k => ?_
    rw [BudgetTable.allocated_charge hcharge, BudgetTable.allocated_discharge]

theorem spends_promoteAll {objects : List (Nat × Record)} (hs : Spends h.budgets spent)
    (hrun : objects.foldlM (fun h x => h.promote x.1 x.2) h = .ok h') : Spends h'.budgets fun i g =>
      charged Generation.promoted objects i g + spent i g := by
  induction objects generalizing h spent with
  | nil =>
    cases hrun
    exact hs.congr fun i g => by rw [charged_nil, Nat.zero_add]
  | cons x objects ih =>
    rw [List.foldlM_cons, Checked.bind_eq_ok] at hrun
    obtain ⟨mid, hmid, hrun⟩ := hrun
    refine (ih (spends_promote hs hmid) hrun).congr fun i g => ?_
    rw [charged_cons, charged_cons, charged_nil]
    omega

/-- The condemned generations begin anew, and what is promoted is charged after that. -/
theorem spends_settle {consumed : Option (List Nat)} (hs : Spends h.budgets spent)
    (hrun : settle condemned survivals consumed summary h = .ok (.ok summary', h')) :
    Spends h'.budgets fun i g => charged Generation.promoted
      (h.space.entries.filter fun x => isPromoted condemned x.2) i g +
        if g.condemnedBy condemned then 0 else spent i g := by
  obtain ⟨h₁, summary₁, h₂, htune, hpromote, hrun⟩ := settle_regroups.1 hrun
  have hs₁ := spends_tuneBudgets hs htune
  have hspace : h₁.space = h.space := by
    simp only [tuneBudgets, Checked.bind_eq_ok, Checked.pure_eq_ok] at htune
    obtain ⟨_, _, rfl⟩ := htune
    rfl
  simp only [promoteSurvivors, Checked.bind_eq_ok, Checked.pure_eq_ok, Prod.mk.injEq] at hpromote
  obtain ⟨k, hfold, _, rfl⟩ := hpromote
  rw [hspace] at hfold
  exact spends_rests (spends_promoteAll hs₁ hfold) (steady_tidyUp hrun)

/-- Sweeping and compacting charge nothing, and change nothing that is charged. -/
theorem spends_reclaim (hl : h.memory.Laid) {compacts : Bool} (hs : Spends h.budgets spent)
    (hrun : reclaim condemned live compacts consumed summary h = .ok (.ok summary', h')) :
    Spends h'.budgets fun i g => charged Generation.promoted
      ((h.swept live).2.space.entries.filter fun x => isPromoted condemned x.2) i g +
        if g.condemnedBy condemned then 0 else spent i g := by
  obtain ⟨h₁, summary₂, h₂, hsweep, hcompact, hsettle, -⟩ := reclaim_stages.1 hrun
  obtain ⟨_, hr₁⟩ := swept_eq_ok hl hsweep
  have hrebuilt := (refits_rebuildSegments hsweep).rests
  have hswept : Spends (h.swept live).2.budgets spent := spends_sweepDead (h := { h with
    handles := h.handles.clearDeadWeak fun a => (h.space.get? a).any (live a) }) hs live
  have hs₁ := spends_rests hswept hrebuilt
  have hlen : (h₁.survivalsOf condemned (h.swept live).1).length = h₁.heaps.length :=
    length_survivalsOf
  have hcompacted : h₂.budgets = h₁.budgets ∧ h₁.space.SamePortions h₂.space := by
    obtain ⟨-, hcompact⟩ | ⟨-, rfl, rfl⟩ := compactIf_stages.1 hcompact
    · obtain ⟨f, hmoved⟩ := compact_eq_ok hr₁.laid hr₁.spans hlen hcompact
      exact ⟨congrArg Accounts.budgets (stands_compact hlen hcompact).2,
        hmoved.space.samePortions⟩
    · exact ⟨rfl, .refl _⟩
  have hs₂ : Spends h₂.budgets spent := hcompacted.1 ▸ hs₁
  refine (spends_settle hs₂ hsettle).congr fun i g => ?_
  rw [charged_isPromoted, charged_isPromoted, hcompacted.2, hrebuilt.portions]

/-! ## Collections -/

theorem spends_finishCollection (hs : Spends h.budgets spent)
    (hrun : h.finishCollection summary = .ok h') : Spends h'.budgets spent := by
  have hbudgets : h'.budgets = h.budgets :=
    congrArg Accounts.budgets (accounts_finishCollection hrun).2
  rw [hbudgets]
  exact hs

theorem spends_collect (hm : h.memory.Sound) (hs : Spends h.budgets spent)
    {generation : Generation} {reason : CollectionReason}
    (hp : h.Promotes (h.condemnedOf generation) (h.memory.Survives (h.condemnedOf generation))
      promoted) (hrun : collect generation reason h = .ok (.ok summary, h')) :
    Spends h'.budgets fun i g =>
      (BudgetEntry.collected (h.condemnedOf generation) promoted).charge i g +
        if g.condemnedBy (h.condemnedOf generation) then 0 else spent i g := by
  obtain ⟨scan, summary₁, h₁, h₂, hmark, hreclaim, hfinish⟩ := collect_stages.1 hrun
  generalize h.condemnedOf generation = c at hp hmark hreclaim ⊢
  obtain ⟨space, found, hmarked⟩ := marked_of_markCondemned hm hmark
  have hs₁ := spends_rests hs (rests_beginCollection.trans (rests_markCondemned hmark).1)
  have hs₂ := spends_reclaim (hmarked.keeps hm).1 hs₁ hreclaim
  have hspace : h₁.space = space := by
    obtain ⟨_, _, _, hm₁⟩ := hmarked.memory
    exact congrArg Memory.space hm₁
  have hleft : ∀ a y, ((h₁.swept (outlives c)).2.space.get? a).map posting = some y ↔
      h.memory.Survives c a ∧ (h.space.get? a).map posting = some y := by
    intro a y
    have hswept : (h₁.swept (outlives c)).2.space.get? a = (space.get? a).filter (outlives c a) :=
      hspace ▸ get?_sweepDead
    simp only [hswept, Option.map_eq_some_iff, Option.filter_eq_some_iff]
    constructor
    · rintro ⟨q, ⟨hq, hout⟩, rfl⟩
      obtain ⟨_, hr⟩ := hmarked.same.symm.get? hq
      exact ⟨(hmarked.outlives_iff a q hq).1 hout, _, hr, rfl⟩
    · rintro ⟨ha, r, hr, rfl⟩
      obtain ⟨_, hq⟩ := hmarked.same.get? hr
      exact ⟨_, ⟨hq, (hmarked.outlives_iff a _ hq).2 ha⟩, rfl⟩
  refine (spends_finishCollection (h := { h₂ with sweeper := { h₂.sweeper with next := 0 } }) hs₂
    hfinish).congr fun i g => ?_
  rw [← hp.charged_eq hleft]
  rfl

theorem spends_completeBackground (hm : h.memory.Sound) (hs : Spends h.budgets spent)
    (hp : h.Promotes .gen2 (h'.space.contains · = true) promoted)
    (hrun : completeBackground h = .ok (.ok (some summary), h')) :
    Spends h'.budgets fun i g => (BudgetEntry.collected .gen2 promoted).charge i g +
      if g.condemnedBy .gen2 then 0 else spent i g := by
  obtain ⟨b, hb⟩ : ∃ b, h.background = some b := by
    refine Option.isSome_iff_exists.1 (Option.isSome_iff_ne_none.2 fun hnone => ?_)
    cases (completeBackground_of_none hnone hrun).1
  have htraced := background_trace hb
  obtain ⟨summary₁, b', h₁, h₂, hfinish, hreclaim, hlast⟩ :=
    (completeBackground_stages htraced).1 hrun
  obtain ⟨found, hpaused⟩ := paused_of_finishMarking hm htraced hfinish
  obtain ⟨hlaid, hpos, _⟩ := hpaused.keeps hm
  have hstopped : Spends h.trace.stopCycle.budgets spent := hs
  have hs₁ := spends_rests hstopped (rests_finishMarking hfinish).1
  have hs₂ := spends_reclaim hlaid hs₁ hreclaim
  have hdropped : Spends ({ h₂ with sweeper := { h₂.sweeper with next := b'.high } }.modifyHeaps
      fun l => { l with savedEphemeral := none }).budgets _ :=
    spends_rests (h := { h₂ with sweeper := { h₂.sweeper with next := b'.high } }) hs₂
      (rests_modifyHeaps (fun _ => rfl) fun _ => rfl)
  have hspace : h₁.space = h.space := congrArg Memory.space hpaused.memory
  have hend : h'.space = h₂.space := (accounts_finishCollection hlast).1
  have hleft : ∀ a y, ((h₁.swept fun a _ => b'.isLive a).2.space.get? a).map posting = some y ↔
      h'.space.contains a = true ∧ (h.space.get? a).map posting = some y := by
    obtain ⟨_, f, hid, hreclaimed, _⟩ := reclaim_eq_ok hlaid hpos hreclaim
    cases hid rfl
    intro a y
    have hswept : (h₁.swept fun a _ => b'.isLive a).2.space.get? a =
        (h.space.get? a).filter fun _ => b'.isLive a := hspace ▸ get?_sweepDead
    simp only [hswept, Option.map_eq_some_iff, Option.filter_eq_some_iff]
    constructor
    · rintro ⟨r, ⟨hr, hl⟩, rfl⟩
      refine ⟨?_, r, hr, rfl⟩
      rw [hend]
      exact hreclaimed.contains_of_live (hspace ▸ hr) hl
    · rintro ⟨ha, r, hr, rfl⟩
      rw [hend] at ha
      obtain ⟨q, hq⟩ := ObjectSpace.contains_iff.1 ha
      obtain ⟨c, _, _, hl, rfl, _⟩ := hreclaimed.get?_iff.1 hq
      exact ⟨r, ⟨hr, hl⟩, rfl⟩
  refine (spends_finishCollection hdropped hlast).congr fun i g => ?_
  rw [← hp.charged_eq hleft]
  rfl

/-! ## Allocations -/

/-- A new object is charged to its generation. -/
theorem spends_install {request : AllocRequest} (hs : Spends h.budgets spent)
    (hrun : install i request target size a x h = .ok h') : Spends h'.budgets fun j g =>
      (BudgetEntry.installed (a, newRecord i request target size x)).charge j g + spent j g := by
  simp only [install, Checked.bind_eq_ok] at hrun
  obtain ⟨space, _, statistics, _, hrun⟩ := hrun
  obtain ⟨_, _, hbudgets⟩ := budgets_updateHeap
    (X := fun t => t.charge target size) (fun l l' hl => by
      simp only [Checked.bind_eq_ok, Checked.pure_eq_ok] at hl
      obtain ⟨budgets, hbudgets, rfl⟩ := hl
      exact hbudgets) hrun
  rcases hbudgets with ⟨hnone, hsame⟩ | ⟨t, t', ht, hcharge, hset⟩
  · rw [hsame]
    exact hs.of_none (a, newRecord i request target size x) hnone
  · rw [hset]
    exact hs.charge (a, newRecord i request target size x) ht fun k =>
      BudgetTable.allocated_charge hcharge k

theorem spends_fail {α : Type} {reason : OutOfMemory.Reason} {y : Except HeapError α}
    (hs : Spends h.budgets spent) (hrun : fail i reason size target h = .ok (y, h')) :
    Spends h'.budgets spent := by
  have hbudgets : h'.budgets = h.budgets := congrArg Accounts.budgets (accounts_fail hrun)
  rw [hbudgets]
  exact hs

end Heap

end GenHeap
