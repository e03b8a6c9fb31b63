import GenHeap.HandleTable
import GenHeap.Proofs.Effect
import Mathlib.Logic.Function.Basic

/-!
The view of a handle table: the handle behind an identifier after each operation.
-/

namespace GenHeap.HandleTable

variable {t t' : HandleTable} {id target a : Nat} {x : Handle} {kind : HandleKind}

theorem find?_eq_some : t.find? id = some x ↔ t.slots[id]? = some (some x) := by
  unfold find?
  cases t.slots[id]? with
  | none => simp
  | some y => simp

theorem find?_eq_none_of_le (h : t.slots.length ≤ id) : t.find? id = none := by
  rw [find?, List.getElem?_eq_none h]
  rfl

theorem lt_of_find? (h : t.find? id = some x) : id < t.slots.length :=
  (List.getElem?_eq_some_iff.1 (find?_eq_some.1 h)).1

theorem find?_set {free : List Nat} {slot : Option Handle} (h : id < t.slots.length) :
    find? { slots := t.slots.set id slot, free } = Function.update t.find? id slot := by
  funext i
  rw [find?, List.getElem?_set, Function.update_apply]
  by_cases hi : i = id
  · subst hi
    simp [h]
  · rw [if_neg (Ne.symm hi), if_neg hi, find?]

theorem find?_append {free : List Nat} {slot : Option Handle} :
    find? { slots := t.slots ++ [slot], free } = Function.update t.find? t.slots.length slot := by
  funext i
  rw [find?, Function.update_apply]
  split
  next hi =>
    subst hi
    rw [List.getElem?_concat_length]
    rfl
  next hi =>
    rcases Nat.lt_or_gt_of_ne hi with hlt | hgt
    · rw [List.getElem?_append_left hlt, find?]
    · have hend : (t.slots ++ [slot]).length ≤ i := by
        rw [List.length_append, List.length_singleton]
        exact hgt
      rw [List.getElem?_eq_none hend, find?_eq_none_of_le (Nat.le_of_lt hgt)]
      rfl

theorem mem_handles : x ∈ t.handles ↔ ∃ id, t.find? id = some x := by
  unfold handles
  rw [List.mem_filterMap]
  constructor
  · rintro ⟨y, hy, rfl⟩
    obtain ⟨i, hi⟩ := List.mem_iff_getElem?.1 hy
    exact ⟨i, find?_eq_some.2 hi⟩
  · rintro ⟨i, hi⟩
    exact ⟨some x, List.mem_of_getElem? (find?_eq_some.1 hi), rfl⟩

theorem mem_targets : a ∈ t.targets ↔ a ≠ 0 ∧ ∃ id kind, t.find? id = some ⟨kind, a⟩ := by
  unfold targets occupied
  simp only [List.mem_map, List.mem_filter, mem_handles, bne_iff_ne]
  constructor
  · rintro ⟨x, ⟨⟨id, hid⟩, hne⟩, rfl⟩
    exact ⟨hne, id, x.kind, hid⟩
  · rintro ⟨hne, id, kind, hid⟩
    exact ⟨⟨kind, a⟩, ⟨⟨id, hid⟩, hne⟩, rfl⟩

theorem mem_roots : a ∈ t.roots ↔
    a ≠ 0 ∧ ∃ id kind, t.find? id = some ⟨kind, a⟩ ∧ kind ≠ .weak := by
  unfold roots occupied
  simp only [List.mem_map, List.mem_filter, mem_handles, bne_iff_ne]
  constructor
  · rintro ⟨x, ⟨⟨⟨id, hid⟩, hne⟩, hkind⟩, rfl⟩
    exact ⟨hne, id, x.kind, hid, hkind⟩
  · rintro ⟨hne, id, kind, hid, hkind⟩
    exact ⟨⟨kind, a⟩, ⟨⟨⟨id, hid⟩, hne⟩, hkind⟩, rfl⟩

theorem mem_targets_of_mem_roots (h : a ∈ t.roots) : a ∈ t.targets := by
  obtain ⟨hne, id, kind, hid, _⟩ := mem_roots.1 h
  exact mem_targets.2 ⟨hne, id, kind, hid⟩

theorem mem_pinnedTargets : a ∈ t.pinnedTargets ↔ a ≠ 0 ∧ ∃ id, t.find? id = some ⟨.pinned, a⟩ := by
  unfold pinnedTargets occupied
  simp only [List.mem_map, List.mem_filter, mem_handles, bne_iff_ne, beq_iff_eq]
  constructor
  · rintro ⟨⟨kind, b⟩, ⟨⟨⟨id, hid⟩, hne⟩, rfl⟩, rfl⟩
    exact ⟨hne, id, hid⟩
  · rintro ⟨hne, id, hid⟩
    exact ⟨⟨.pinned, a⟩, ⟨⟨⟨id, hid⟩, hne⟩, rfl⟩, rfl⟩

/-! ## Operations -/

theorem fetch_of_live (h : t.find? id = some x) : t.fetch id = .ok x := by
  rw [fetch, h]

theorem fetch_of_dead (h : t.find? id = none) : t.fetch id = .error (.invalidHandle id) := by
  rw [fetch, h]

theorem release_of_live (h : t.find? id = some x) :
    t.release id = .ok { slots := t.slots.set id none, free := id :: t.free } := by
  rw [release, fetch_of_live h]
  rfl

theorem release_of_dead (h : t.find? id = none) : t.release id = .error (.invalidHandle id) := by
  rw [release, fetch_of_dead h]
  rfl

theorem setTarget_of_dead (h : t.find? id = none) :
    t.setTarget id target = .error (.invalidHandle id) := by
  rw [setTarget, fetch_of_dead h]
  rfl

theorem setTarget_of_live (h : t.find? id = some x) : t.setTarget id target =
    .ok { t with slots := t.slots.set id (some { x with target }) } := by
  rw [setTarget, fetch_of_live h]
  rfl

/-- A new handle has the identifier that was freed last, or one more than there were. -/
theorem create_cases {new : Nat} (hrun : t.create kind a = .ok (new, t')) :
    (∃ free, t.free = new :: free ∧
      t' = { slots := t.slots.set new (some ⟨kind, a⟩), free }) ∨
    t.free = [] ∧ new + 1 = (t.slots.length + 1) % idCount ∧
      t' = { t with slots := t.slots ++ [some ⟨kind, a⟩] } := by
  unfold create at hrun
  split at hrun
  next free hfree =>
    rw [Checked.pure_eq_ok] at hrun
    cases hrun
    exact .inl ⟨free, hfree, rfl⟩
  next hfree =>
    simp only [Checked.bind_eq_ok, Checked.pure_eq_ok, Word.sub_eq_ok_iff, Prod.mk.injEq] at hrun
    obtain ⟨_, ⟨hle, rfl⟩, rfl, rfl⟩ := hrun
    rw [List.length_append, List.length_singleton] at hle ⊢
    exact .inr ⟨hfree, by omega, rfl⟩

theorem of_find?_create {new : Nat} (hrun : t.create kind a = .ok (new, t'))
    (h : t'.find? id = some x) : t.find? id = some x ∨ x = ⟨kind, a⟩ := by
  obtain ⟨_, _, rfl⟩ | ⟨_, _, rfl⟩ := create_cases hrun
  · rcases Nat.lt_or_ge new t.slots.length with hlt | hge
    · rw [find?_set hlt, Function.update_apply] at h
      split at h
      · exact .inr (Option.some.inj h).symm
      · exact .inl h
    · rw [List.set_eq_of_length_le hge] at h
      exact .inl h
  · rw [find?_append, Function.update_apply] at h
    split at h
    · exact .inr (Option.some.inj h).symm
    · exact .inl h

theorem of_find?_release {i : Nat} (hrun : t.release i = .ok t') (h : t'.find? id = some x) :
    t.find? id = some x := by
  cases hi : t.find? i with
  | none =>
    rw [release_of_dead hi] at hrun
    cases hrun
  | some y =>
    rw [release_of_live hi] at hrun
    cases hrun
    rw [find?_set (lt_of_find? hi), Function.update_apply] at h
    split at h
    · cases h
    · exact h

theorem find?_map {f : Handle → Handle} :
    ({ t with slots := t.slots.map (·.map f) } : HandleTable).find? id = (t.find? id).map f := by
  unfold find?
  rw [List.getElem?_map]
  cases t.slots[id]? with
  | none => rfl
  | some y => cases y <;> rfl

theorem find?_clearDeadWeak {live : Nat → Bool} : (t.clearDeadWeak live).find? id =
    (t.find? id).map fun x => if x.isStale live then { x with target := 0 } else x :=
  find?_map

theorem find?_relocate {f : Nat → Nat} : (t.relocate f).find? id =
    (t.find? id).map fun x => { x with target := f x.target } :=
  find?_map

/-- What is left behind a handle after dead targets are cleared: nothing or a live object. -/
theorem of_find?_clearDeadWeak {live : Nat → Bool}
    (h : (t.clearDeadWeak live).find? id = some ⟨kind, a⟩) (hne : a ≠ 0) :
    t.find? id = some ⟨kind, a⟩ ∧ (kind = .weak → live a = true) := by
  rw [find?_clearDeadWeak, Option.map_eq_some_iff] at h
  obtain ⟨y, hy, he⟩ := h
  split at he
  · cases he
    exact absurd rfl hne
  next hstale =>
    subst he
    refine ⟨hy, ?_⟩
    rintro rfl
    simpa [Handle.isStale, hne] using hstale

theorem find?_clearDeadWeak_of_ne {live : Nat → Bool} (h : t.find? id = some ⟨kind, a⟩)
    (hkind : kind ≠ .weak) : (t.clearDeadWeak live).find? id = some ⟨kind, a⟩ := by
  have hstale : Handle.isStale live ⟨kind, a⟩ = false := by
    simp [Handle.isStale, hkind]
  rw [find?_clearDeadWeak, h, Option.map_some, hstale]
  rfl

theorem mem_pinnedTargets_clearDeadWeak {live : Nat → Bool} (h : a ∈ t.pinnedTargets) :
    a ∈ (t.clearDeadWeak live).pinnedTargets := by
  obtain ⟨hne, id, hid⟩ := mem_pinnedTargets.1 h
  exact mem_pinnedTargets.2 ⟨hne, id, find?_clearDeadWeak_of_ne hid nofun⟩

end GenHeap.HandleTable
