import GenHeap.Proofs.Heap.Completion

/-!
What a background cycle keeps although nothing refers to it any more. The tracer follows references as
it finds them, so it reaches nothing but what the roots of the beginning, the roots of the end and new
objects reach by references that were there at some moment of the cycle; entries made ready keep what
they reach besides.
-/

namespace GenHeap

open Worklist (Reached)

namespace Memory

variable {m m' m'' : Memory} {next next' : Nat → List Nat} {seeds seeds' : Nat → Prop} {a : Nat}

/-- There is a cycle, and all that it has reached, or is to reach, is reached from the seeds by
references that are known. -/
def Tracked (m : Memory) (next : Nat → List Nat) (seeds : Nat → Prop) : Prop :=
  ∃ b, m.background = some b ∧ b.Confined m.space next seeds (· ∈ b.worklist)

theorem Tracked.mono (h : m.Tracked next seeds) (hseeds : ∀ t, seeds t → seeds' t)
    (hnext : ∀ o t, t ∈ next o → t ∈ next' o) : m.Tracked next' seeds' := by
  obtain ⟨b, hb, hc⟩ := h
  refine ⟨b, hb, fun a ha hl => ?_⟩
  exact ((hc a ha hl).mono fun t ht hin => .seed (hseeds t ht) hin).along hnext

theorem Tracked.congr (h : m.Tracked next seeds) (hb : m'.background = m.background)
    (hc : ∀ a, m'.space.contains a = true ↔ m.space.contains a = true) :
    m'.Tracked next seeds := by
  obtain ⟨b, hbm, hconfined⟩ := h
  refine ⟨b, hb.trans hbm, fun a ha hl => ?_⟩
  exact (hconfined a ((hc a).1 ha) hl).widen fun t ht => (hc t).2 ht

/-- The cycle, the objects and the roots are as before. -/
structure Idle (m m' : Memory) : Prop where
  background : m'.background = m.background
  collections : m'.collections = m.collections
  space : m'.space = m.space
  handles : m'.handles = m.handles
  queues : m'.queues = m.queues

theorem Idle.refl (m : Memory) : Idle m m := ⟨rfl, rfl, rfl, rfl, rfl⟩

theorem Idle.trans (h : Idle m m') (h' : Idle m' m'') : Idle m m'' where
  background := h'.background.trans h.background
  collections := h'.collections.trans h.collections
  space := h'.space.trans h.space
  handles := h'.handles.trans h.handles
  queues := h'.queues.trans h.queues

theorem root_congr (hh : m'.handles = m.handles)
    (hq : m'.queues.map (·.roots) = m.queues.map (·.roots)) : m'.Root = m.Root := by
  funext a
  have hqueues (m : Memory) : (∃ q ∈ m.queues, a ∈ q.roots) ↔ a ∈ (m.queues.map (·.roots)).flatten := by
    simp only [List.mem_flatten, List.mem_map, exists_exists_and_eq_and]
  simp only [Root, hqueues, hh, hq]

theorem Idle.root (h : Idle m m') : m'.Root = m.Root :=
  root_congr h.handles (congrArg _ h.queues)

/-- The cycle in progress in `m'` began after `m`. -/
def Begins (m m' : Memory) : Prop :=
  m'.background.isSome = true ∧ (m.background = none ∨ m.collections < m'.collections)

theorem not_begins (hb : m'.background.isSome = m.background.isSome)
    (hn : m'.collections = m.collections) : ¬ m.Begins m' := by
  rintro ⟨hsome, hnone | hlt⟩
  · rw [hb, hnone] at hsome
    cases hsome
  · omega

theorem Idle.not_begins (h : Idle m m') : ¬ m.Begins m' :=
  Memory.not_begins (by rw [h.background]) h.collections

/-- The cycle before is over, and one that began since has reached nothing but from its roots. -/
def Anew (m m' : Memory) : Prop :=
  (m.background = none ∨ m.collections < m'.collections) ∧
    (m'.background = none ∨ m'.Tracked m'.space.references m'.Root)

theorem Anew.tracked (h : m.Anew m') (hb : m.Begins m') :
    m'.Tracked m'.space.references m'.Root := by
  refine h.2.resolve_left fun hnone => ?_
  have hsome := hb.1
  rw [hnone] at hsome
  cases hsome

end Memory

namespace Operation

/-- Whether an operation that has led from `h` to `h'` was an allocation that answered an address. -/
def Allocates (h h' : Heap) (op : Operation) (a : Nat) : Prop :=
  ∃ i request, op = allocate i request ∧ Heap.allocate i request h = .ok (.ok a, h')

end Operation

namespace Heap

variable {h h' h₀ h₁ h₂ k k' : Heap} {op : Operation} {ops : List Operation}
  {next : Nat → List Nat} {seeds : Nat → Prop} {a i x size : Nat}

/-! ## Moments -/

/-- The heap between the operations of a sequence, before the first and after the last. -/
def moments (h : Heap) : List Operation → List Heap
  | [] => [h]
  | op :: ops => h :: match op.apply h with
    | .ok h' => h'.moments ops
    | .error _ => []

/-- What an object refers to at some moment of a run. -/
def seen (h : Heap) (ops : List Operation) (a : Nat) : List Nat :=
  (h.moments ops).flatMap (·.space.references a)

theorem self_mem_moments (h : Heap) (ops : List Operation) : h ∈ h.moments ops := by
  cases ops <;> exact List.mem_cons_self

theorem mem_moments_of_apply (hstep : op.apply h = .ok h') (hk : k ∈ h'.moments ops) :
    k ∈ h.moments (op :: ops) := by
  refine List.mem_cons_of_mem _ ?_
  rw [hstep]
  exact hk

theorem last_mem_moments (hrun : h.run ops = .ok h') : h' ∈ h.moments ops := by
  induction ops generalizing h with
  | nil =>
    cases hrun
    exact List.mem_cons_self
  | cons op ops ih =>
    rw [run, List.foldlM_cons, Checked.bind_eq_ok] at hrun
    obtain ⟨mid, hstep, hrun⟩ := hrun
    exact mem_moments_of_apply hstep (ih hrun)

theorem mem_seen (hk : k ∈ h.moments ops) {o t : Nat} (ht : t ∈ k.space.references o) :
    t ∈ h.seen ops o :=
  List.mem_flatMap.2 ⟨k, hk, ht⟩

/-! ## The parts of an allocation -/

/-- What a part of an allocation does to a cycle: nothing, or it ends it or begins one. -/
theorem idle_or_anew_apply (hm : h.memory.Sound) (hop : op.prepares = true)
    (hrun : op.apply h = .ok h') : h.memory.Idle h'.memory ∨ h.memory.Anew h'.memory := by
  have hended (hb : h'.memory.background = none)
      (hn : h'.memory.collections = h.memory.collections + 1) : h.memory.Anew h'.memory :=
    ⟨.inr (by omega), .inl hb⟩
  cases op with
  | findBlock heap target size =>
    obtain ⟨r, hrun⟩ := after_eq_ok.1 hrun
    obtain ⟨_, _, hfinds, _⟩ := tryPlace_eq_ok hm hrun
    rw [hfinds.rest]
    exact .inl ⟨rfl, rfl, rfl, rfl, rfl⟩
  | collect generation reason =>
    obtain ⟨r, hrun⟩ := after_eq_ok.1 hrun
    obtain ⟨_, _, _, hc⟩ := collect_eq_ok hm hrun
    exact .inr (hended hc.background hc.collections)
  | startBackground =>
    obtain ⟨r, hrun⟩ := after_eq_ok.1 hrun
    obtain ⟨-, rfl⟩ | ⟨-, hnone, rfl⟩ := startBackground_cases hrun
    · exact .inl (.refl _)
    · refine .inr ⟨.inl hnone, .inr ?_⟩
      rw [memory_beginCycle]
      refine ⟨h.firstCycle, rfl, fun a ha hl => ?_⟩
      have hreached := confined_firstCycle hm.laid a ha hl
      exact hreached.mono fun t ht hin => .seed (mem_roots.1 ht) hin
  | completeBackground =>
    obtain ⟨r, hrun⟩ := after_eq_ok.1 hrun
    cases hb : h.background with
    | none =>
      obtain ⟨_, rfl⟩ := completeBackground_of_none hb hrun
      exact .inl (.refl _)
    | some b =>
      obtain ⟨_, _, _, hc⟩ := completeBackground_eq_ok hm hb hrun
      exact .inr (hended hc.background hc.collections)
  | _ => cases hop

theorem idle_or_anew_prepares (hm : h.memory.Sound) (hp : h.Prepares k) :
    h.memory.Idle k.memory ∨ h.memory.Anew k.memory := by
  obtain ⟨ops, hops, hrun⟩ := hp
  have hall := Checked.foldlM_induct (fun k => k.memory.Sound ∧
    (h.memory.Idle k.memory ∨ h.memory.Anew k.memory)) ?_ ⟨hm, .inl (.refl _)⟩ hrun
  · exact hall.2
  · intro k op k' hop ⟨hk, hcases⟩ hstep
    refine ⟨(apply_eq_ok hk hstep).1, ?_⟩
    have hle : k.memory.collections ≤ k'.memory.collections := by
      refine ((apply_eq_ok hk hstep).2.2 ?_).collections_le
      rintro rfl
      exact nomatch hops _ hop
    rcases idle_or_anew_apply hk (hops op hop) hstep with hidle | hanew
    · rcases hcases with hsame | hbegan
      · exact .inl (hsame.trans hidle)
      · refine .inr ⟨hbegan.1.imp_right fun hlt => Nat.lt_of_lt_of_le hlt hle, ?_⟩
        refine hbegan.2.imp hidle.background.trans fun ht => ?_
        rw [hidle.root, hidle.space]
        exact ht.congr hidle.background fun a => by rw [hidle.space]
    · refine .inr ⟨?_, hanew.2⟩
      rcases hcases with hsame | hbegan
      · exact hanew.1.imp hsame.background.symm.trans fun hlt => hsame.collections ▸ hlt
      · exact hbegan.1.imp_right fun hlt => Nat.lt_of_lt_of_le hlt hle

/-- The object that is put in its place is live at once, and nothing else becomes so. -/
theorem tracked_install {request : AllocRequest} {target : Generation} (hm : h.memory.Sound)
    (hm' : h'.memory.Sound) (hf : h.memory.Fresh i x a size) (hpos : 0 < size)
    (hrun : install i request target size a x h = .ok h') (ht : h.memory.Tracked next seeds)
    (ha : seeds a) : h'.memory.Tracked next seeds := by
  obtain ⟨b, hb, hconfined⟩ := ht
  obtain ⟨space, hadds, he⟩ := adds_install hm.laid hf hpos hrun
  rw [he] at hm' ⊢
  refine ⟨b.allocateBlack a, ?_, fun c hc hl => ?_⟩
  · show h.background.map _ = _
    rw [show h.background = some b from hb, Option.map_some]
  · by_cases hca : c = a
    · exact .seed (hca ▸ ha) hc
    · obtain ⟨r, hr⟩ := ObjectSpace.contains_iff.1 hc
      have hold := (hadds.eq_or_contains hc).resolve_left hca
      rw [BackgroundMark.worklist_allocateBlack, BackgroundMark.isLive_allocateBlack
        (hm.guarded b hb).matched hm'.laid.apart hadds.self hr, or_iff_left hca] at hl
      exact (hconfined c hold hl).widen fun _ => hadds.contains

/-! ## The beginning -/

/-- A cycle that begins has reached nothing but from its roots, and from the object that the operation
made with it. -/
theorem tracked_of_begins (hm : h.memory.Sound) (hop : op.apply h = .ok h')
    (hb : h.memory.Begins h'.memory) :
    h'.memory.Tracked h'.space.references fun a => h'.memory.Root a ∨ op.Allocates h h' a := by
  have hm' := (apply_eq_ok hm hop).1
  have hprepares (hprepares : op.prepares = true) :
      h'.memory.Tracked h'.space.references fun a => h'.memory.Root a ∨ op.Allocates h h' a := by
    rcases idle_or_anew_apply hm hprepares hop with hidle | hanew
    · exact absurd hb (hidle.not_begins)
    · exact (hanew.tracked hb).mono (fun _ => .inl) fun _ _ => id
  cases op with
  | allocate i request =>
    obtain ⟨answer, hrun⟩ := after_eq_ok.1 hop
    obtain ⟨k, hp, hlast⟩ := prepares_allocate hm hrun
    have hcases := idle_or_anew_prepares hm hp
    rcases hlast with ⟨_, hsame, _⟩ | ⟨target, size, a, x, rfl, hpos, hf, hinstall⟩
    · rw [← hsame] at hcases
      rcases hcases with hidle | hanew
      · exact absurd hb hidle.not_begins
      · exact (hanew.tracked hb).mono (fun _ => .inl) fun _ _ => id
    · have hk := sound_prepares hm hp
      obtain ⟨space, hadds, he⟩ := adds_install hk.laid hf hpos hinstall
      have hs : h'.space = space := congrArg Memory.space he
      have hbegan : h.memory.Begins k.memory := by
        rw [he] at hb
        exact ⟨Option.isSome_map.symm.trans hb.1, hb.2⟩
      rcases hcases with hidle | hanew
      · exact absurd hbegan hidle.not_begins
      · have hroots : h'.memory.Root = k.memory.Root := by
          rw [he]
          refine Memory.root_congr rfl ?_
          show (k.memory.queues.modify i _).map _ = _
          rw [map_modify (k := id) _ _ fun q => by split <;> rfl, List.modify_id]
        have hrefs (o t : Nat) (ht : t ∈ k.space.references o) : t ∈ h'.space.references o := by
          obtain ⟨r, hr, ht⟩ := ObjectSpace.mem_references.1 ht
          exact hs ▸ ObjectSpace.mem_references.2 ⟨r, hadds.old hr, ht⟩
        rw [hroots]
        exact tracked_install hk hm' hf hpos hinstall
          ((hanew.tracked hbegan).mono (fun _ => .inl) hrefs) (.inr ⟨i, request, rfl, hrun⟩)
  | startBackground => exact hprepares rfl
  | collect generation reason => exact hprepares rfl
  | completeBackground => exact hprepares rfl
  | traceStep =>
    cases hop
    exact absurd hb (Memory.not_begins Option.isSome_map rfl)
  | abortBackground =>
    obtain ⟨r, hrun⟩ := after_eq_ok.1 hop
    have hnone := (sound_abortBackground hm hrun).2
    have hsome := hb.1
    rw [show h'.memory.background = none from hnone] at hsome
    cases hsome
  | _ =>
    have hs := stays_apply hm rfl hop
    exact absurd hb (Memory.not_begins (by rw [hs.background]) hs.collections)

/-! ## The course of a cycle -/

/-- One operation goes on with a cycle by references of the moment, and from new objects. -/
theorem tracked_apply (hm : h.memory.Sound) (hop : op ≠ .abortBackground)
    (hrun : op.apply h = .ok h') (hn : h'.collections = h.collections)
    (hnext : ∀ o t, t ∈ h.space.references o → t ∈ next o)
    (hseeds : ∀ a, h.space.contains a = false → seeds a) (ht : h.memory.Tracked next seeds) :
    h'.memory.Tracked next seeds := by
  have hm' := (apply_eq_ok hm hrun).1
  have hnone : h.background ≠ none := by
    obtain ⟨b, hb, _⟩ := ht
    rw [show h.background = some b from hb]
    nofun
  have hnot {m : Memory} (hnm : m.collections = h.collections) : ¬ h.memory.Anew m := by
    rintro ⟨hold | hlt, _⟩
    · exact hnone hold
    · have hlt : h.collections < m.collections := hlt
      omega
  have hprepares (hprepares : op.prepares = true) : h'.memory.Tracked next seeds := by
    have hidle := (idle_or_anew_apply hm hprepares hrun).resolve_right (hnot hn)
    exact ht.congr hidle.background fun a => by rw [hidle.space]
  cases op with
  | allocate i request =>
    obtain ⟨answer, hrun⟩ := after_eq_ok.1 hrun
    obtain ⟨k, hp, hlast⟩ := prepares_allocate hm hrun
    have hcases := idle_or_anew_prepares hm hp
    rcases hlast with ⟨_, hsame, _⟩ | ⟨target, size, a, x, rfl, hpos, hf, hinstall⟩
    · rw [← hsame] at hcases
      have hidle := hcases.resolve_right (hnot hn)
      exact ht.congr hidle.background fun a => by rw [hidle.space]
    · have hk := sound_prepares hm hp
      obtain ⟨space, hadds, he⟩ := adds_install hk.laid hf hpos hinstall
      have hcount : h'.memory.collections = k.memory.collections := by rw [he]
      have hidle := hcases.resolve_right (hnot (hcount.symm.trans hn))
      have hs : k.space = h.space := hidle.space
      refine tracked_install hk hm' hf hpos hinstall
        (ht.congr hidle.background fun a => by rw [hidle.space]) (hseeds a ?_)
      have hfree := hadds.free
      rw [hs] at hfree
      exact Bool.eq_false_iff.2 fun hc => by
        obtain ⟨r, hr⟩ := ObjectSpace.contains_iff.1 hc
        rw [hfree] at hr
        cases hr
  | startBackground => exact hprepares rfl
  | collect generation reason => exact hprepares rfl
  | completeBackground => exact hprepares rfl
  | traceStep =>
    cases hrun
    obtain ⟨b, hb, hconfined⟩ := ht
    have hmatched := (hm.guarded b hb).matched
    refine ⟨b.step h.space h.config.tuning.backgroundChunk, ?_,
      hconfined.step hnext hmatched hm.laid.apart⟩
    show h.background.map _ = _
    rw [show h.background = some b from hb, Option.map_some]
  | abortBackground => exact absurd rfl hop
  | _ =>
    have hs := stays_apply hm rfl hrun
    exact ht.congr hs.background hs.contains

/-- A run without a collection goes on with a cycle by references of its moments. -/
theorem tracked_run (hm : h.memory.Sound) (hops : ∀ op ∈ ops, op ≠ .abortBackground)
    (hrun : h.run ops = .ok h') (hn : h'.collections = h.collections)
    (hnext : ∀ k ∈ h.moments ops, ∀ o t, t ∈ k.space.references o → t ∈ next o)
    (hseeds : ∀ a, h.space.contains a = false → seeds a) (ht : h.memory.Tracked next seeds) :
    h'.memory.Tracked next seeds := by
  induction ops generalizing h with
  | nil =>
    cases hrun
    exact ht
  | cons op ops ih =>
    rw [run, List.foldlM_cons, Checked.bind_eq_ok] at hrun
    obtain ⟨mid, hstep, hrun⟩ := hrun
    have hop := hops op List.mem_cons_self
    have hops' : ∀ op ∈ ops, op ≠ .abortBackground :=
      fun op hop => hops op (List.mem_cons_of_mem _ hop)
    obtain ⟨hmid, _, hleads⟩ := apply_eq_ok hm hstep
    have hfirst := hleads hop
    have hrest := leads_run hmid hops' hrun
    -- the count of collections never falls, so it stands at the moments between as well
    have hcount : mid.collections = h.collections := by
      have hle : h.collections ≤ mid.collections := hfirst.collections_le
      have hle' : mid.collections ≤ h'.collections := hrest.collections_le
      omega
    apply ih hmid hops' hrun (hn.trans hcount.symm)
    · intro k hk
      exact hnext k (mem_moments_of_apply hstep hk)
    · intro a ha
      refine hseeds a (Bool.eq_false_iff.2 fun hc => ?_)
      rw [show mid.space.contains a = true from (hfirst.continues hcount).contains a hc] at ha
      cases ha
    · exact tracked_apply hm hop hstep hcount (hnext h (self_mem_moments h _)) hseeds ht

/-! ## The end -/

/-- The objects with entries that have become ready. -/
def Readies (h h' : Heap) (a : Nat) : Prop :=
  ∃ (i : Nat) (l l' : LogicalHeap) (made : List FinalizableEntry), h.heaps[i]? = some l ∧
    h'.heaps[i]? = some l' ∧ l'.finalization.ready = l.finalization.ready ++ made ∧
    ∃ e ∈ made, e.object = a

/-- Why a cycle keeps an object that it begins with: it is a root when the cycle begins in `h₁`, by the
operation `op` on `h₀`, or when it ends in `h₂`; it is made between; or `h'` after its end has an entry
for it made ready. -/
inductive Cause (op : Operation) (h₀ h₁ h₂ h' : Heap) : Nat → Prop where
  | firstRoot {a : Nat} : a ∈ h₁.roots → Cause op h₀ h₁ h₂ h' a
  | lastRoot {a : Nat} : a ∈ h₂.roots → Cause op h₀ h₁ h₂ h' a
  | madeFirst {a : Nat} : op.Allocates h₀ h₁ a → Cause op h₀ h₁ h₂ h' a
  | made {a : Nat} : h₁.space.contains a = false → Cause op h₀ h₁ h₂ h' a
  | ready {a : Nat} : h₂.Readies h' a → Cause op h₀ h₁ h₂ h' a

/-- What the end of a cycle leaves, the cycle has a cause to keep: it is reached from such objects by
references each of which was there at some moment of the cycle. So garbage of its beginning that
nothing else ever refers to is freed. -/
theorem floating_bounded {answer : Except HeapError (Option CollectionSummary)} (hr : h₀.Reachable)
    (hop : op.apply h₀ = .ok h₁) (hb : h₀.memory.Begins h₁.memory)
    (hops : ∀ op ∈ ops, op ≠ .abortBackground) (hrun : h₁.run ops = .ok h₂)
    (hn : h₂.collections = h₁.collections) (hend : completeBackground h₂ = .ok (answer, h')) :
    (∃ summary, answer = .ok (some summary)) ∧
    (∀ a, h'.space.contains a = true → h₂.space.contains a = true ∧
      Reached (h₂.space.contains · = true) (h₁.seen ops) (Cause op h₀ h₁ h₂ h') a) ∧
    ∀ garbage : Nat → Prop,
      (∀ a, garbage a → h₂.space.contains a = true → ¬ Cause op h₀ h₁ h₂ h' a) →
      (∀ o t, t ∈ h₁.seen ops o → h₂.space.contains o = true → garbage t → garbage o) →
      ∀ a, garbage a → h'.space.contains a = false := by
  have hm := hr.sound
  have hm₁ := (apply_eq_ok hm hop).1
  have hm₂ := (leads_run hm₁ hops hrun).sound
  have htracked : h₂.memory.Tracked (h₁.seen ops) (Cause op h₀ h₁ h₂ h') := by
    refine tracked_run hm₁ hops hrun hn (fun k hk o t => mem_seen hk) (fun a => .made) ?_
    refine (tracked_of_begins hm hop hb).mono ?_ fun o t => mem_seen (self_mem_moments h₁ ops)
    rintro t (hroot | hmade)
    · exact .firstRoot (mem_roots.2 hroot)
    · exact .madeFirst hmade
  obtain ⟨b, hcycle, hconfined⟩ := htracked
  obtain ⟨summary, live, rfl, hc⟩ := completeBackground_eq_ok hm₂ hcycle hend
  obtain ⟨found, hfinds, hqueues⟩ := hc.revived
  have hlast (o t : Nat) : t ∈ h₂.space.references o → t ∈ h₁.seen ops o :=
    mem_seen (last_mem_moments hrun)
  have hkept (a : Nat) (ha : h'.space.contains a = true) : h₂.space.contains a = true ∧
      Reached (h₂.space.contains · = true) (h₁.seen ops) (Cause op h₀ h₁ h₂ h') a := by
    obtain ⟨q, hq⟩ := ObjectSpace.contains_iff.1 ha
    obtain ⟨ha, hl⟩ := hc.back hq
    refine ⟨ha, ?_⟩
    rcases hfinds.revived ha hl with hfound | hready
    · refine (hfinds.confined hlast hconfined ha hfound).mono fun t ht hin => .seed ?_ hin
      exact ht.elim id fun hroot => .lastRoot (mem_roots.2 hroot)
    · refine (hready.along hlast).mono fun t ⟨q, hq, e, he, het⟩ hin => .seed (.ready ?_) hin
      obtain ⟨i, hi⟩ := List.mem_iff_getElem?.1 hq
      have hi : (h₂.heaps.map (·.finalization))[i]? = some q := hi
      rw [List.getElem?_map, Option.map_eq_some_iff] at hi
      obtain ⟨l, hl, rfl⟩ := hi
      obtain ⟨l', hl', hsame⟩ := getElem?_queues hqueues hl
      exact ⟨i, l, l', _, hl, hl', by rw [hsame]; rfl, e, he, het⟩
  refine ⟨⟨summary, rfl⟩, hkept, fun garbage hcause hrefers a ha => ?_⟩
  refine Bool.eq_false_iff.2 fun hleft => ?_
  obtain ⟨_, hreached⟩ := hkept a hleft
  exact hreached.avoids (fun t ht hin hg => hcause t hg hin ht)
    (fun o t ho ht hg => hrefers o t ht ho hg) ha

/-- One object refers to another when the cycle begins and no longer when it ends, a third one refers
to a fourth and nothing to it, and an entry waits for a fifth: the second object is kept, the two
after it are not, and the fifth is made ready. -/
theorem floating_bounded_page : ∃ h₀ h₁ h₂ h' ops answer, h₀.Reachable ∧
    Operation.apply h₀ .startBackground = .ok h₁ ∧ h₀.memory.Begins h₁.memory ∧
    h₁.run ops = .ok h₂ ∧ h₂.collections = h₁.collections ∧
    completeBackground h₂ = .ok (answer, h') ∧ h₁.roots = [4096] ∧
    h₁.space.references 4096 = [4144] ∧ h₂.space.references 4096 = [] ∧
    h₂.space.entries.map (·.1) = [4096, 4144, 4192, 4240, 4288, 4336] ∧
    h'.space.entries.map (·.1) = [4096, 4144, 4288, 4336] ∧ h'.roots = [4096, 4288] ∧
    ∀ a, h'.space.contains a = true → h₂.space.contains a = true ∧
      Reached (h₂.space.contains · = true) (h₁.seen ops)
        (Cause .startBackground h₀ h₁ h₂ h') a := by
  have hpage : leadsTo pageConfig
      [.allocate 0 { size := 48, generation := .gen2, slots := 1 },
        .allocate 0 { size := 48, generation := .gen2 },
        .allocate 0 { size := 48, generation := .gen2, slots := 1 },
        .allocate 0 { size := 48, generation := .gen2 },
        .allocate 0 { size := 48, generation := .gen2, finalizable := true },
        .writeSlot 4096 0 4144, .writeSlot 4192 0 4240, .createHandle .strong 4096]
      (fun h₀ => h₀.background.isNone &&
        (Operation.apply h₀ .startBackground).toOption.any fun h₁ => (h₁.background.isSome &&
            h₁.roots == [4096] && h₁.space.references 4096 == [4144]) &&
          (h₁.run [.traceStep, .allocate 0 { size := 48, generation := .gen2 },
            .writeSlot 4096 0 0]).toOption.any fun h₂ => (h₂.collections == h₁.collections &&
              h₂.space.references 4096 == [] &&
              h₂.space.entries.map (·.1) == [4096, 4144, 4192, 4240, 4288, 4336]) &&
            (completeBackground.apply h₂).toOption.any fun x =>
              x.2.space.entries.map (·.1) == [4096, 4144, 4288, 4336] &&
                x.2.roots == [4096, 4288]) = true := by
    decide +kernel
  obtain ⟨h₀, hr, hp⟩ := exists_of_leadsTo hpage
  obtain ⟨hnone, hp⟩ := Bool.and_eq_true_iff.1 hp
  obtain ⟨h₁, hop, hp⟩ := Checked.of_any hp
  obtain ⟨hbegin, hp⟩ := Bool.and_eq_true_iff.1 hp
  obtain ⟨h₂, hrun, hp⟩ := Checked.of_any hp
  obtain ⟨hlast, hp⟩ := Bool.and_eq_true_iff.1 hp
  obtain ⟨⟨answer, h'⟩, hend, hleft⟩ := Checked.of_any hp
  simp only [Bool.and_eq_true, beq_iff_eq] at hbegin hlast hleft
  obtain ⟨⟨hsome, hroots⟩, hfirst⟩ := hbegin
  obtain ⟨⟨hn, hnow⟩, hobjects⟩ := hlast
  obtain ⟨hobjects', hroots'⟩ := hleft
  have hb : h₀.memory.Begins h₁.memory := ⟨hsome, .inl (Option.isNone_iff_eq_none.1 hnone)⟩
  obtain ⟨_, hkept, _⟩ := floating_bounded hr hop hb (by simp) hrun hn hend
  exact ⟨h₀, h₁, h₂, h', _, answer, hr, hop, hb, hrun, hn, hend, hroots, hfirst, hnow, hobjects,
    hobjects', hroots', hkept⟩

end Heap

end GenHeap
