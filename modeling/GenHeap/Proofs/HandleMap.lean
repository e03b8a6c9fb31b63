import GenHeap.Proofs.HandleTable
import GenHeap.Proofs.Progress
import Mathlib.Data.Set.Card

/-!
A handle table as a map from identifiers to handles. Whatever is done with it, an identifier that is
given out belongs to no other handle, and one behind which there is no handle is refused without an
effect. The list of freed identifiers is kept with the empty slots, so that no identifier is on it
twice and none in use is on it.
-/

namespace GenHeap.HandleTable

open Checked (Runs)

/-- What is done with a table. -/
inductive Operation where
  | create (kind : HandleKind) (target : Nat)
  | release (id : Nat)
  | setTarget (id target : Nat)
  | clearDeadWeak (live : Nat → Bool)
  | relocate (forward : Nat → Nat)

inductive Answer where
  | created (id : Nat)
  | done
  | refused (e : HeapError)
  | cleared (count : Nat)
  deriving DecidableEq

/-- The answer to an operation that may be refused, and the table after it. -/
def ofExcept (t : HandleTable) : Except HeapError HandleTable → Answer × HandleTable
  | .ok t' => (.done, t')
  | .error e => (.refused e, t)

def Operation.apply (t : HandleTable) : Operation → Checked (Answer × HandleTable)
  | create kind target => do
    let (id, t') ← t.create kind target
    return (.created id, t')
  | release id => return t.ofExcept (t.release id)
  | setTarget id target => return t.ofExcept (t.setTarget id target)
  | clearDeadWeak live => return (.cleared (t.deadWeakCount live), t.clearDeadWeak live)
  | relocate forward => return (.done, t.relocate forward)

/-- All answers, and the table at the end. -/
def run (t : HandleTable) : List Operation → Checked (List Answer × HandleTable)
  | [] => return ([], t)
  | op :: ops => do
    let (answer, t₁) ← op.apply t
    let (answers, t₂) ← run t₁ ops
    return (answer :: answers, t₂)

/-! ## The map -/

/-- What an operation answers by a map of handles and makes of it. -/
inductive Does (m : Nat → Option Handle) : Operation → Answer → (Nat → Option Handle) → Prop
  | create {kind : HandleKind} {target id : Nat} (hnew : m id = none) :
    Does m (.create kind target) (.created id) (Function.update m id (some ⟨kind, target⟩))
  | release {id : Nat} {x : Handle} (hlive : m id = some x) :
    Does m (.release id) .done (Function.update m id none)
  | refuseRelease {id : Nat} (hdead : m id = none) :
    Does m (.release id) (.refused (.invalidHandle id)) m
  | setTarget {id target : Nat} {x : Handle} (hlive : m id = some x) :
    Does m (.setTarget id target) .done (Function.update m id (some { x with target }))
  | refuseSetTarget {id target : Nat} (hdead : m id = none) :
    Does m (.setTarget id target) (.refused (.invalidHandle id)) m
  | clearDeadWeak (live : Nat → Bool) : Does m (.clearDeadWeak live)
    (.cleared {id | (m id).any (·.isStale live) = true}.ncard)
    fun id => (m id).map fun x => if x.isStale live then { x with target := 0 } else x
  | relocate (forward : Nat → Nat) : Does m (.relocate forward) .done
    fun id => (m id).map fun x => { x with target := forward x.target }

/-- What a list of operations answers by a map of handles and makes of it. -/
inductive Trace :
    (Nat → Option Handle) → List Operation → List Answer → (Nat → Option Handle) → Prop
  | nil {m : Nat → Option Handle} : Trace m [] [] m
  | cons {m m₁ m' : Nat → Option Handle} {op : Operation} {answer : Answer} {ops : List Operation}
    {answers : List Answer} (hop : Does m op answer m₁) (hops : Trace m₁ ops answers m') :
    Trace m (op :: ops) (answer :: answers) m'

variable {t t' : HandleTable} {id target : Nat} {x : Handle} {kind : HandleKind}
  {op : Operation} {ops : List Operation} {answer : Answer} {answers before : List Answer}

/-! ## The handles in order -/

/-- The identifiers behind which there is a handle. -/
def liveIds (t : HandleTable) : List Nat :=
  (List.range t.slots.length).filter fun id => (t.find? id).isSome

/-- The targets of some kinds of handles, without those of empty ones. -/
def targetsBy (m : Nat → Option Handle) (p : HandleKind → Bool) (ids : List Nat) : List Nat :=
  ids.filterMap fun id => ((m id).filter fun x => x.target != 0 && p x.kind).map (·.target)

theorem mem_liveIds : id ∈ t.liveIds ↔ ∃ x, t.find? id = some x := by
  rw [liveIds, List.mem_filter, List.mem_range, Option.isSome_iff_exists]
  exact and_iff_right_of_imp fun ⟨_, hx⟩ => lt_of_find? hx

theorem ascending_liveIds (t : HandleTable) : t.liveIds.Pairwise (· < ·) :=
  List.pairwise_lt_range.filter _

theorem slots_eq_map (t : HandleTable) : t.slots = (List.range t.slots.length).map t.find? := by
  refine List.ext_getElem (by simp) fun i hi _ => ?_
  rw [List.getElem_map, List.getElem_range, find?, List.getElem?_eq_getElem hi]
  rfl

theorem handles_eq_filterMap (t : HandleTable) : t.handles = t.liveIds.filterMap t.find? := by
  have hslots : t.handles = (List.range t.slots.length).filterMap t.find? := by
    rw [handles, slots_eq_map t, List.filterMap_map, List.length_map, List.length_range]
    rfl
  rw [hslots, liveIds, List.filterMap_filter]
  refine List.filterMap_congr fun id _ => ?_
  cases t.find? id <;> rfl

/-- The targets of the kinds that are asked for stand in the order of the identifiers. -/
theorem targetsBy_liveIds (p : HandleKind → Bool) :
    (t.occupied.filter fun x => p x.kind).map (·.target) = targetsBy t.find? p t.liveIds := by
  rw [occupied, handles_eq_filterMap, List.filter_filter, List.filter_filterMap, List.map_filterMap]
  refine List.filterMap_congr fun id _ => ?_
  simp only [Bool.and_comm]

theorem deadWeakCount_eq (live : Nat → Bool) :
    t.deadWeakCount live = {id | (t.find? id).any (·.isStale live) = true}.ncard := by
  have hids : {id | (t.find? id).any (·.isStale live) = true} =
      ((t.liveIds.filter fun id => (t.find? id).any (·.isStale live)).toFinset : Set Nat) := by
    ext id
    simp only [Set.mem_ofPred_eq, List.coe_toFinset, List.mem_filter, mem_liveIds,
      Option.any_eq_true]
    exact (and_iff_right_of_imp fun ⟨x, hx, _⟩ => ⟨x, hx⟩).symm
  have hnodup : t.liveIds.Nodup := (ascending_liveIds t).imp Nat.ne_of_lt
  rw [hids, Set.ncard_coe_finset, List.toFinset_card_of_nodup (hnodup.filter _),
    ← List.countP_eq_length_filter, deadWeakCount, handles_eq_filterMap, List.countP_filterMap]
  refine List.countP_congr fun id _ => ?_
  cases t.find? id <;> rfl

/-! ## The freed identifiers -/

/-- The empty slots are those of the freed identifiers, which were all given out before. -/
structure Kept (t : HandleTable) (answers : List Answer) : Prop where
  length_lt : t.slots.length < idCount
  created_iff : ∀ id, .created id ∈ answers ↔ id < t.slots.length
  nodup_free : t.free.Nodup
  mem_free_iff : ∀ id, id ∈ t.free ↔ id < t.slots.length ∧ t.find? id = none

theorem kept_empty : Kept {} [] :=
  ⟨by decide, fun id => by simp, .nil, fun id => by simp⟩

/-- An operation that gives no identifier out and leaves empty slots empty and others full. -/
theorem Kept.of_slots (h : Kept t before) (hanswer : ∀ id, answer ≠ .created id)
    (hfree : t'.free = t.free) (hlength : t'.slots.length = t.slots.length)
    (hnone : ∀ id, t'.find? id = none ↔ t.find? id = none) : Kept t' (before ++ [answer]) where
  length_lt := hlength ▸ h.length_lt
  created_iff id := by
    rw [List.mem_append, List.mem_singleton, or_iff_left fun he => hanswer id he.symm, hlength]
    exact h.created_iff id
  nodup_free := hfree ▸ h.nodup_free
  mem_free_iff id := by
    rw [hfree, hlength, hnone]
    exact h.mem_free_iff id

/-- A slot is filled anew. -/
theorem Kept.reuse {free : List Nat} (h : Kept t before) (hfree : t.free = id :: free) :
    Kept { slots := t.slots.set id (some x), free } (before ++ [.created id]) := by
  have hnodup := hfree ▸ h.nodup_free
  obtain ⟨hlt, _⟩ := (h.mem_free_iff id).1 (hfree ▸ List.mem_cons_self)
  refine ⟨?_, fun i => ?_, (List.nodup_cons.1 hnodup).2, fun i => ?_⟩
  · rw [List.length_set]
    exact h.length_lt
  · rw [List.length_set, List.mem_append, h.created_iff, List.mem_singleton]
    refine or_iff_left_of_imp ?_
    rintro ⟨⟩
    exact hlt
  · have hmem := h.mem_free_iff i
    rw [hfree, List.mem_cons] at hmem
    rw [List.length_set, find?_set hlt, Function.update_apply]
    by_cases hi : i = id
    · subst hi
      simpa using (List.nodup_cons.1 hnodup).1
    · rw [if_neg hi, ← hmem, or_iff_right hi]

/-- A slot is added behind the others. -/
theorem Kept.extend (h : Kept t before) (hroom : t.slots.length + 1 < idCount) :
    Kept { t with slots := t.slots ++ [some x] } (before ++ [.created t.slots.length]) := by
  have hlength : (t.slots ++ [some x]).length = t.slots.length + 1 := List.length_append
  refine ⟨hlength ▸ hroom, fun i => ?_, h.nodup_free, fun i => ?_⟩
  · rw [hlength, List.mem_append, h.created_iff, List.mem_singleton, Nat.lt_succ_iff_lt_or_eq]
    simp
  · rw [hlength, find?_append, Function.update_apply, h.mem_free_iff]
    split
    next hi =>
      subst hi
      simp
    next hi =>
      refine and_congr_left' ?_
      omega

/-- A slot is emptied. -/
theorem Kept.vacate (h : Kept t before) (hlive : t.find? id = some x) :
    Kept { slots := t.slots.set id none, free := id :: t.free } (before ++ [.done]) := by
  have hlt := lt_of_find? hlive
  have hnew : id ∉ t.free := fun hmem => by
    rw [h.mem_free_iff, hlive] at hmem
    cases hmem.2
  refine ⟨?_, fun i => ?_, List.nodup_cons.2 ⟨hnew, h.nodup_free⟩, fun i => ?_⟩
  · rw [List.length_set]
    exact h.length_lt
  · rw [List.length_set, ← h.created_iff]
    simp
  · rw [List.mem_cons, List.length_set, find?_set hlt, Function.update_apply, h.mem_free_iff]
    by_cases hi : i = id
    · subst hi
      simpa using hlt
    · rw [if_neg hi, or_iff_right hi]

/-! ## Steps and runs -/

/-- There is an identifier for what is to be created. -/
def Operation.HasRoom (t : HandleTable) : Operation → Prop
  | create _ _ => t.free = [] → t.slots.length + 1 < idCount
  | _ => True

theorem Kept.runs_apply (h : Kept t before) (op : Operation) :
    Runs (op.apply t) ↔ op.HasRoom t := by
  cases op with
  | create kind target =>
    have hlt := h.length_lt
    have hcreate : Runs (t.create kind target) ↔ (t.free = [] → t.slots.length + 1 < idCount) := by
      unfold create
      split
      next hfree => simp [hfree]
      next hfree =>
        simp only [hfree, Checked.runs_bind, Word.runs_sub, Checked.runs_pure, implies_true,
          and_true, List.length_append, List.length_singleton, forall_const]
        by_cases hroom : t.slots.length + 1 < idCount
        · rw [Nat.mod_eq_of_lt hroom]
          omega
        · have hfull : t.slots.length + 1 = idCount := by omega
          rw [hfull, Nat.mod_self]
          omega
    simpa [Operation.apply, Operation.HasRoom] using hcreate
  | release | setTarget | clearDeadWeak | relocate => exact iff_of_true (Checked.runs_ok _) trivial

theorem Kept.create (h : Kept t before) (hrun : t.create kind target = .ok (id, t')) :
    t.find? id = none ∧ t'.find? = Function.update t.find? id (some ⟨kind, target⟩) ∧
      Kept t' (before ++ [.created id]) := by
  obtain ⟨free, hfree, rfl⟩ | ⟨_, hnew, rfl⟩ := create_cases hrun
  · obtain ⟨hlt, hnone⟩ := (h.mem_free_iff id).1 (hfree ▸ List.mem_cons_self)
    exact ⟨hnone, find?_set hlt, h.reuse hfree⟩
  · -- the last number of slots is cut to zero, of which there is no predecessor
    have hroom : t.slots.length + 1 < idCount := by
      refine Nat.lt_of_le_of_ne h.length_lt fun hfull => ?_
      rw [hfull, Nat.mod_self] at hnew
      cases hnew
    rw [Nat.mod_eq_of_lt hroom] at hnew
    cases hnew
    exact ⟨find?_eq_none_of_le (Nat.le_refl _), find?_append, h.extend hroom⟩

theorem Kept.release (h : Kept t before) (id : Nat) :
    let (answer, t') := t.ofExcept (t.release id)
    Does t.find? (.release id) answer t'.find? ∧ Kept t' (before ++ [answer]) := by
  cases hx : t.find? id with
  | none =>
    rw [release_of_dead hx]
    exact ⟨.refuseRelease hx, h.of_slots nofun rfl rfl fun _ => .rfl⟩
  | some x =>
    rw [release_of_live hx]
    refine ⟨?_, h.vacate hx⟩
    show Does t.find? _ _ (find? { slots := _, free := _ })
    rw [find?_set (lt_of_find? hx)]
    exact .release hx

theorem Kept.setTarget (h : Kept t before) (id target : Nat) :
    let (answer, t') := t.ofExcept (t.setTarget id target)
    Does t.find? (.setTarget id target) answer t'.find? ∧ Kept t' (before ++ [answer]) := by
  cases hx : t.find? id with
  | none =>
    rw [setTarget_of_dead hx]
    exact ⟨.refuseSetTarget hx, h.of_slots nofun rfl rfl fun _ => .rfl⟩
  | some x =>
    rw [setTarget_of_live hx]
    have hfind : find? { t with slots := t.slots.set id (some { x with target }) } =
        Function.update t.find? id (some { x with target }) := find?_set (lt_of_find? hx)
    refine ⟨?_, h.of_slots nofun rfl List.length_set fun i => ?_⟩
    · exact hfind ▸ .setTarget hx
    · rw [hfind, Function.update_apply]
      split
      next hi => simp [hi, hx]
      · rfl

/-- A step of the table is a step of the map, and keeps the freed identifiers right. -/
theorem Kept.step (h : Kept t before) (hrun : op.apply t = .ok (answer, t')) :
    Does t.find? op answer t'.find? ∧ Kept t' (before ++ [answer]) := by
  cases op with
  | create kind target =>
    obtain ⟨⟨id, t₁⟩, hcreate, hanswer⟩ := Checked.bind_eq_ok.1 hrun
    cases hanswer
    obtain ⟨hnone, hfind, hkept⟩ := h.create hcreate
    exact ⟨hfind ▸ .create hnone, hkept⟩
  | release id =>
    rw [Operation.apply, Checked.pure_eq_ok] at hrun
    have hrelease := h.release id
    rwa [hrun] at hrelease
  | setTarget id target =>
    rw [Operation.apply, Checked.pure_eq_ok] at hrun
    have hset := h.setTarget id target
    rwa [hrun] at hset
  | clearDeadWeak live =>
    cases hrun
    have hfind : (t.clearDeadWeak live).find? = fun id =>
        (t.find? id).map fun x => if x.isStale live then { x with target := 0 } else x :=
      funext fun _ => find?_clearDeadWeak
    refine ⟨?_, h.of_slots nofun rfl (List.length_map _) fun id => ?_⟩
    · rw [hfind, deadWeakCount_eq]
      exact .clearDeadWeak live
    · rw [hfind, Option.map_eq_none_iff]
  | relocate forward =>
    cases hrun
    have hfind : (t.relocate forward).find? = fun id =>
        (t.find? id).map fun x => { x with target := forward x.target } :=
      funext fun _ => find?_relocate
    refine ⟨hfind ▸ .relocate forward, h.of_slots nofun rfl (List.length_map _) fun id => ?_⟩
    rw [hfind, Option.map_eq_none_iff]

theorem Kept.run (h : Kept t before) (hrun : t.run ops = .ok (answers, t')) :
    Trace t.find? ops answers t'.find? ∧ Kept t' (before ++ answers) := by
  induction ops generalizing t before answers with
  | nil =>
    cases hrun
    exact ⟨.nil, (List.append_nil before).symm ▸ h⟩
  | cons op ops ih =>
    simp only [HandleTable.run, Checked.bind_eq_ok, Checked.pure_eq_ok] at hrun
    obtain ⟨⟨answer, t₁⟩, hop, ⟨later, t₂⟩, hops, hanswers⟩ := hrun
    cases hanswers
    obtain ⟨hdoes, hkept⟩ := h.step hop
    obtain ⟨htrace, hkept'⟩ := ih hkept hops
    refine ⟨.cons hdoes htrace, ?_⟩
    rwa [List.append_assoc] at hkept'

/-! ## Questions -/

/-- What a table answers is what its map says, in the order of the identifiers. -/
structure Serves (t : HandleTable) : Prop where
  mem_liveIds : ∀ id, id ∈ t.liveIds ↔ ∃ x, t.find? id = some x
  ascending_liveIds : t.liveIds.Pairwise (· < ·)
  count_eq : t.count = t.liveIds.length
  roots_eq : t.roots = targetsBy t.find? (· != .weak) t.liveIds
  targets_eq : t.targets = targetsBy t.find? (fun _ => true) t.liveIds
  mem_pinnedTargets : ∀ a, a ∈ t.pinnedTargets ↔ a ∈ targetsBy t.find? (· == .pinned) t.liveIds
  of_live : ∀ id x, t.find? id = some x → t.kind id = .ok x.kind ∧
    t.target id = .ok (if x.target = 0 then none else some x.target)
  of_dead : ∀ id, t.find? id = none → t.kind id = .error (.invalidHandle id) ∧
    t.target id = .error (.invalidHandle id) ∧
    ∀ op : Operation, op = .release id ∨ (∃ target, op = .setTarget id target) →
      op.apply t = .ok (.refused (.invalidHandle id), t)

theorem serves (t : HandleTable) : t.Serves where
  mem_liveIds _ := mem_liveIds
  ascending_liveIds := ascending_liveIds t
  count_eq := by
    rw [count, handles_eq_filterMap, List.length_filterMap_eq_countP, List.countP_eq_length]
    intro id hid
    exact Option.isSome_iff_exists.2 (mem_liveIds.1 hid)
  roots_eq := targetsBy_liveIds (· != .weak)
  targets_eq := by
    rw [← targetsBy_liveIds, List.filter_true]
    rfl
  mem_pinnedTargets a := by rw [← targetsBy_liveIds, pinnedTargets]
  of_live id x hx := by
    rw [kind, target, fetch_of_live hx]
    exact ⟨rfl, rfl⟩
  of_dead id hx := by
    refine ⟨?_, ?_, ?_⟩
    · rw [kind, fetch_of_dead hx]
      rfl
    · rw [target, fetch_of_dead hx]
      rfl
    · rintro op (rfl | ⟨target, rfl⟩)
      · rw [Operation.apply, release_of_dead hx]
        rfl
      · rw [Operation.apply, setTarget_of_dead hx]
        rfl

/-- The answers of a table that has run are those of a map that was empty at first, and the next
one will be too. The list of freed identifiers has each one once that was given out and is not in
use, and a run ends only where no number of 32 bits is left for a new handle. -/
theorem handles_refine_map (hrun : run {} ops = .ok (answers, t)) :
    Trace (fun _ => none) ops answers t.find? ∧ t.Serves ∧
      (t.free.Nodup ∧ ∀ id, id ∈ t.free ↔ .created id ∈ answers ∧ t.find? id = none) ∧
      t.slots.length < idCount ∧
      ∀ op : Operation, (Runs (op.apply t) ↔ op.HasRoom t) ∧
        ∀ answer t', op.apply t = .ok (answer, t') → Does t.find? op answer t'.find? := by
  obtain ⟨htrace, hkept⟩ := kept_empty.run hrun
  have hfreed (id : Nat) : id ∈ t.free ↔ .created id ∈ answers ∧ t.find? id = none := by
    rw [hkept.mem_free_iff]
    exact and_congr_left' (hkept.created_iff id).symm
  refine ⟨htrace, serves t, ⟨hkept.nodup_free, hfreed⟩, hkept.length_lt, fun op => ?_⟩
  exact ⟨hkept.runs_apply op, fun _ _ hop => (hkept.step hop).1⟩

/-- A freed identifier is refused until it is given out again, for a handle of another kind. -/
theorem handles_refine_map_reused :
    let ops : List Operation := [.create .strong 0x100, .create .weak 0x200, .release 0, .release 0,
      .setTarget 7 0x10, .clearDeadWeak fun a => a != 0x200, .create .pinned 0x300,
      .relocate fun a => if a = 0x300 then 0x80 else a]
    let answers : List Answer := [.created 0, .created 1, .done, .refused (.invalidHandle 0),
      .refused (.invalidHandle 7), .cleared 1, .created 0, .done]
    ∃ t, run {} ops = .ok (answers, t) ∧ Trace (fun _ => none) ops answers t.find? ∧
      t.roots = [0x80] ∧ t.free = [] ∧ t.count = 2 := by
  intro ops answers
  have hrun : run {} ops =
      .ok (answers, { slots := [some ⟨.pinned, 0x80⟩, some ⟨.weak, 0⟩] }) := rfl
  exact ⟨_, hrun, (handles_refine_map hrun).1, rfl, rfl, rfl⟩

end GenHeap.HandleTable
