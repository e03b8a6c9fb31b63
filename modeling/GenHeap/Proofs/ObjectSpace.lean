import GenHeap.ObjectSpace
import GenHeap.Proofs.Effect
import Std.Data.TreeMap.Lemmas

/-!
The view of an object space: what is at an address after each operation, and the objects of a
range. In a space whose objects do not overlap, `overlapping` finds all that reach into a range.
-/

namespace GenHeap.ObjectSpace

variable {s s' : ObjectSpace} {a b t : Nat} {r q : Record}

theorem mem_entries : (a, r) ∈ s.entries ↔ s.get? a = some r :=
  Std.TreeMap.mem_toList_iff_getElem?_eq_some

theorem contains_iff : s.contains a = true ↔ ∃ r, s.get? a = some r := by
  rw [contains, Std.TreeMap.contains_eq_isSome_getElem?, Option.isSome_iff_exists]
  rfl

theorem entries_pairwise (s : ObjectSpace) : s.entries.Pairwise (·.1 < ·.1) := by
  have h := Std.TreeMap.ordered_keys_toList (t := s.objects)
  exact h.imp fun hlt => Nat.compare_eq_lt.1 hlt

theorem distinct_filter_entries (s : ObjectSpace) (p : Nat × Record → Bool) :
    (s.entries.filter p).Pairwise fun x y => x.1 ≠ y.1 :=
  ((entries_pairwise s).imp fun hlt => Nat.ne_of_lt hlt).filter p

/-- In a list sorted by address, what holds of any two objects in list order holds of the one at the
lower address and the other one. -/
theorem pairwise_of_lt {R : Nat × Record → Nat × Record → Prop} {objects : List (Nat × Record)}
    {x y : Nat × Record} (hsorted : objects.Pairwise (·.1 < ·.1)) (h : objects.Pairwise R)
    (hx : x ∈ objects) (hy : y ∈ objects) (hlt : x.1 < y.1) : R x y := by
  induction objects with
  | nil => cases hx
  | cons z rest ih =>
    rw [List.pairwise_cons] at hsorted h
    rcases List.mem_cons.1 hx with rfl | hx'
    · rcases List.mem_cons.1 hy with rfl | hy'
      · exact absurd hlt (Nat.lt_irrefl _)
      · exact h.1 y hy'
    · rcases List.mem_cons.1 hy with rfl | hy'
      · exact absurd hlt (Nat.lt_asymm (hsorted.1 x hx'))
      · exact ih hsorted.2 h.2 hx' hy'

@[simp] theorem get?_update (f : Record → Record) :
    (s.update a f).get? b = if a = b then (s.get? b).map f else s.get? b := by
  unfold update get?
  simp only [Std.TreeMap.getElem?_modify, Nat.compare_eq_eq]
  by_cases h : a = b
  · rw [if_pos h, if_pos h, h]
  · rw [if_neg h, if_neg h]

@[simp] theorem get?_mapRecords (f : Nat → Record → Record) :
    (s.mapRecords f).get? a = (s.get? a).map (f a) :=
  Std.TreeMap.getElem?_map

theorem get?_insert (h : s.insert a r = .ok s') :
    s'.get? b = if a = b then some r else s.get? b := by
  unfold insert at h
  rw [Checked.bind_eq_ok] at h
  obtain ⟨total, _, h⟩ := h
  rw [Checked.pure_eq_ok] at h
  subst h
  simp only [get?, Std.TreeMap.getElem?_insert, Nat.compare_eq_eq]

@[simp] theorem get?_erase : (s.erase a).get? b = if a = b then none else s.get? b := by
  simp only [erase, get?, Std.TreeMap.getElem?_erase, Nat.compare_eq_eq]

@[simp] theorem get?_removeWhere (p : Nat → Record → Bool) :
    (s.removeWhere p).2.get? a = (s.get? a).filter fun r => !p a r := by
  simp only [removeWhere, get?, Std.TreeMap.getElem?_filter']

@[simp] theorem get?_clearMarks :
    s.clearMarks.get? a = (s.get? a).map fun r => { r with marked := false } :=
  get?_mapRecords _

@[simp] theorem get?_empty : ({} : ObjectSpace).get? a = none :=
  Std.TreeMap.getElem?_emptyc

/-! ## Ranges -/

theorem startingIn_eq_ok {start stop : Nat} {objects : List (Nat × Record)}
    (h : s.startingIn start stop = .ok objects) :
    objects = s.entries.filter fun (a, _) => start ≤ a && a < stop := by
  unfold startingIn at h
  split at h
  · cases h
  · exact (Except.ok.inj h).symm

theorem mem_startingIn {start stop : Nat} {objects : List (Nat × Record)}
    (h : s.startingIn start stop = .ok objects) :
    (a, r) ∈ objects ↔ s.get? a = some r ∧ start ≤ a ∧ a < stop := by
  rw [startingIn_eq_ok h, List.mem_filter, mem_entries]
  simp only [Bool.and_eq_true, decide_eq_true_eq]

/-- Objects are of some size, and each ends where the next one starts or before. -/
structure Apart (s : ObjectSpace) : Prop where
  minBytes_le : ∀ {a r}, s.get? a = some r → Object.minBytes ≤ r.size
  stop_le : ∀ {a b r q}, s.get? a = some r → s.get? b = some q → a < b → a + r.size ≤ b

/-- Objects hold the header and their slots. -/
def SlotsFit (s : ObjectSpace) : Prop :=
  ∀ a r, s.get? a = some r → Object.headerBytes + r.slots.length * Object.slotBytes ≤ r.size

/-- Every slot that is not empty holds the address of an object. -/
def NoDangling (s : ObjectSpace) : Prop :=
  ∀ o r t, s.get? o = some r → t ∈ r.slots → t ≠ 0 → s.contains t = true

theorem Apart.size_pos (h : s.Apart) (hr : s.get? a = some r) : 0 < r.size :=
  Nat.lt_of_lt_of_le (by decide) (h.minBytes_le hr)

/-- Objects of some size, each of which ends where the next one starts or before. -/
structure Spread (s : ObjectSpace) : Prop where
  size_pos : ∀ {a r}, s.get? a = some r → 0 < r.size
  stop_le : ∀ {a b r q}, s.get? a = some r → s.get? b = some q → a < b → a + r.size ≤ b

theorem Apart.spread (h : s.Apart) : s.Spread := ⟨h.size_pos, h.stop_le⟩

theorem predecessor?_eq_none {start : Nat} (h : s.predecessor? start = none)
    (hr : s.get? a = some r) : start ≤ a := by
  rw [predecessor?, List.getLast?_eq_none_iff, List.filter_eq_nil_iff] at h
  have := h (a, r) (mem_entries.2 hr)
  simpa using this

theorem predecessor?_eq_some {start : Nat} (h : s.predecessor? start = some (b, q)) :
    s.get? b = some q ∧ b < start ∧ ∀ a r, s.get? a = some r → a < start → a ≤ b := by
  unfold predecessor? at h
  have hmem := List.mem_of_getLast? h
  rw [List.mem_filter, mem_entries] at hmem
  refine ⟨hmem.1, by simpa using hmem.2, ?_⟩
  intro a r hr ha
  obtain ⟨front, hfront⟩ := List.getLast?_eq_some_iff.1 h
  have hsorted := (entries_pairwise s).filter fun x => decide (x.1 < start)
  have hin : (a, r) ∈ s.entries.filter fun x => decide (x.1 < start) :=
    List.mem_filter.2 ⟨mem_entries.2 hr, by simpa using ha⟩
  rw [hfront] at hsorted hin
  rcases List.mem_append.1 hin with hin | hin
  · exact Nat.le_of_lt ((List.pairwise_append.1 hsorted).2.2 _ hin _ List.mem_cons_self)
  · cases List.mem_singleton.1 hin
    exact Nat.le_refl _

theorem Spread.mem_straddling (h : s.Spread) {start : Nat} {found : List Nat}
    (hrun : s.straddling start = .ok found) :
    a ∈ found ↔ ∃ r, s.get? a = some r ∧ a < start ∧ start < a + r.size := by
  unfold straddling at hrun
  cases hp : s.predecessor? start with
  | none =>
    rw [hp] at hrun
    cases hrun
    constructor
    · intro ha
      cases ha
    · rintro ⟨r, hr, ha, _⟩
      have := predecessor?_eq_none hp hr
      omega
  | some p =>
    obtain ⟨b, q⟩ := p
    obtain ⟨hb, hlt, hmax⟩ := predecessor?_eq_some hp
    rw [hp] at hrun
    simp only [Checked.bind_eq_ok, Checked.pure_eq_ok, Word.add_eq_ok_iff] at hrun
    obtain ⟨_, ⟨_, rfl⟩, rfl⟩ := hrun
    constructor
    · intro ha
      split at ha
      · cases List.mem_singleton.1 ha
        exact ⟨q, hb, hlt, by assumption⟩
      · cases ha
    · rintro ⟨r, hr, ha, hover⟩
      have heq : a = b := by
        rcases Nat.lt_or_eq_of_le (hmax a r hr ha) with hab | hab
        · have := h.stop_le hr hb hab
          omega
        · exact hab
      subst heq
      cases hb.symm.trans hr
      rw [if_pos hover]
      exact List.mem_singleton.2 rfl

theorem Spread.mem_overlapping (h : s.Spread) {start stop : Nat} {found : List Nat}
    (hrun : s.overlapping start stop = .ok found) (hle : start ≤ stop) :
    a ∈ found ↔ ∃ r, s.get? a = some r ∧ a < stop ∧ start < a + r.size := by
  unfold overlapping at hrun
  simp only [Checked.bind_eq_ok, Checked.pure_eq_ok] at hrun
  obtain ⟨before, hbefore, inside, hinside, rfl⟩ := hrun
  have hin : a ∈ inside.map (·.1) ↔ ∃ r, s.get? a = some r ∧ start ≤ a ∧ a < stop := by
    rw [List.mem_map]
    constructor
    · rintro ⟨⟨b, q⟩, hb, rfl⟩
      exact ⟨q, (mem_startingIn hinside).1 hb⟩
    · rintro ⟨r, hr⟩
      exact ⟨(a, r), (mem_startingIn hinside).2 hr, rfl⟩
  rw [List.mem_append, h.mem_straddling hbefore, hin]
  constructor
  · rintro (⟨r, hr, ha, hover⟩ | ⟨r, hr, ha, hlt⟩)
    · exact ⟨r, hr, by omega, hover⟩
    · exact ⟨r, hr, hlt, by have := h.size_pos hr; omega⟩
  · rintro ⟨r, hr, hlt, hover⟩
    by_cases ha : a < start
    · exact .inl ⟨r, hr, ha, hover⟩
    · exact .inr ⟨r, hr, by omega, hlt⟩

end GenHeap.ObjectSpace
