import GenHeap.Provider
import GenHeap.Proofs.Effect
import Mathlib.Order.Bounds.Defs

/-!
Ranges are handed out once: the ranges that are taken and the holes keep apart and lie below the
untouched end of the address space, whatever is reserved and released.
-/

namespace GenHeap

namespace Word

/-- A sum rounded down is the least multiple that is not below the first summand. -/
theorem isLeast_div_mul {v a : Nat} (h : 0 < a) :
    IsLeast {m | a ∣ m ∧ v ≤ m} ((v + (a - 1)) / a * a) := by
  refine ⟨⟨Nat.dvd_mul_left .., ?_⟩, ?_⟩
  · have hdiv := Nat.div_add_mod (v + (a - 1)) a
    have hmod := Nat.mod_lt (v + (a - 1)) h
    rw [Nat.mul_comm] at hdiv
    omega
  · rintro m ⟨⟨k, rfl⟩, hle⟩
    rw [Nat.mul_comm a k] at hle ⊢
    refine Nat.mul_le_mul_right a (Nat.le_of_lt_succ ?_)
    rw [Nat.div_lt_iff_lt_mul h, Nat.succ_mul]
    omega

theorem isPowerOfTwo_pos {a : Nat} (h : isPowerOfTwo a = true) : 0 < a := by
  rw [isPowerOfTwo, Bool.and_eq_true, bne_iff_ne] at h
  exact Nat.pos_of_ne_zero h.1

theorem isLeast_alignUp {v a w : Nat} (h : alignUp v a = .ok w) :
    IsLeast {m | a ∣ m ∧ v ≤ m} w := by
  unfold alignUp at h
  cases hp : isPowerOfTwo a with
  | false =>
    simp only [hp] at h
    cases h
  | true =>
    simp only [hp, if_true, Checked.bind_eq_ok, Checked.pure_eq_ok, add_eq_ok_iff] at h
    obtain ⟨_, ⟨_, rfl⟩, rfl⟩ := h
    have hpos := isPowerOfTwo_pos hp
    rw [Nat.add_sub_assoc hpos]
    exact isLeast_div_mul hpos

theorem le_of_alignUp {v a w : Nat} (h : alignUp v a = .ok w) : v ≤ w :=
  (isLeast_alignUp h).1.2

theorem isLeast_alignUp? {v a w : Nat} (h : alignUp? v a = .ok (some w)) :
    IsLeast {m | a ∣ m ∧ v ≤ m} w := by
  unfold alignUp? at h
  cases hp : isPowerOfTwo a with
  | false =>
    simp only [hp] at h
    cases h
  | true =>
    simp only [hp, if_true, Checked.pure_eq_ok, Option.map_eq_some_iff, add?_eq_some_iff] at h
    obtain ⟨_, ⟨_, rfl⟩, rfl⟩ := h
    exact isLeast_div_mul (isPowerOfTwo_pos hp)

end Word

namespace AddressRange

/-- No address lies in both ranges. -/
def Apart (r q : AddressRange) : Prop :=
  r.start + r.size ≤ q.start ∨ q.start + q.size ≤ r.start

theorem Apart.symm {r q : AddressRange} (h : r.Apart q) : q.Apart r := Or.symm h

/-- The addresses of `q` all lie in `r`. -/
def Encloses (r q : AddressRange) : Prop :=
  r.start ≤ q.start ∧ q.start + q.size ≤ r.start + r.size

/-- An aligned range of `size` bytes from `a` on lies in the range. -/
structure Room (r : AddressRange) (size alignment a : Nat) : Prop where
  dvd : alignment ∣ a
  encloses : r.Encloses ⟨a, size⟩

theorem Apart.of_encloses {r q x : AddressRange} (h : r.Apart x) (hq : r.Encloses q) :
    q.Apart x := by
  unfold Apart Encloses at *
  omega

end AddressRange

namespace AddressSpace

open AddressRange (Apart Encloses)

/-- Where the ranges of an address space lie. -/
structure Inside (s : AddressSpace) (r : AddressRange) : Prop where
  start_le : s.range.start ≤ r.start
  stop_le_next : r.start + r.size ≤ s.next
  stop_le : r.start + r.size ≤ s.range.start + s.range.size
  stop_lt : r.start + r.size < Word.count

theorem Inside.encloses {s : AddressSpace} {r : AddressRange} (h : s.Inside r) :
    s.range.Encloses r :=
  ⟨h.start_le, h.stop_le⟩

/-- The taken ranges and the holes share no address. -/
structure Exclusive (s : AddressSpace) (taken : List AddressRange) : Prop where
  apart : (taken ++ s.holes).Pairwise Apart
  inside : ∀ r ∈ taken ++ s.holes, s.Inside r
  start_le_next : s.range.start ≤ s.next
  next_le : s.next ≤ s.range.start + s.range.size

variable {s s' : AddressSpace} {taken taken' : List AddressRange}

theorem Exclusive.perm (h : s.Exclusive taken) (hp : taken.Perm taken') : s.Exclusive taken' where
  apart := (hp.append_right s.holes).pairwise h.apart fun h => h.symm
  inside r hr := h.inside r ((hp.append_right s.holes).mem_iff.2 hr)
  start_le_next := h.start_le_next
  next_le := h.next_le

/-- Counters and limits do not matter. -/
theorem Exclusive.of_same (h : s.Exclusive taken) (hrange : s'.range = s.range)
    (hnext : s'.next = s.next) (hholes : s'.holes = s.holes) : s'.Exclusive taken := by
  refine ⟨hholes ▸ h.apart, fun r hr => ?_, by rw [hrange, hnext]; exact h.start_le_next,
    by rw [hrange, hnext]; exact h.next_le⟩
  obtain ⟨h₁, h₂, h₃, h₄⟩ := h.inside r (hholes ▸ hr)
  exact ⟨hrange ▸ h₁, hnext ▸ h₂, hrange ▸ h₃, h₄⟩

theorem Exclusive.apart_taken (h : s.Exclusive taken) : taken.Pairwise Apart :=
  (List.pairwise_append.1 h.apart).1

theorem Exclusive.inside_taken (h : s.Exclusive taken) {r : AddressRange} (hr : r ∈ taken) :
    s.Inside r :=
  h.inside r (List.mem_append_left _ hr)

/-- A place in a hole, and what is left of the hole. -/
theorem mem_leftover {hole r : AddressRange} {start stop : Nat} : r ∈ leftover hole start stop ↔
    (hole.start < start ∧ r = ⟨hole.start, start - hole.start⟩) ∨
      (stop < hole.start + hole.size ∧ r = ⟨stop, hole.start + hole.size - stop⟩) := by
  simp only [leftover, List.mem_append, List.mem_ite_nil_right, List.mem_singleton]

/-- A range taken from a hole and what is left of the hole share no address. -/
theorem pieces_of_hole {hole : AddressRange} {start stop size : Nat} (hs : hole.start ≤ start)
    (hstop : stop = start + size) (he : stop ≤ hole.start + hole.size) :
    (⟨start, size⟩ :: leftover hole start stop).Pairwise Apart ∧
      ∀ r ∈ (⟨start, size⟩ :: leftover hole start stop : List AddressRange), hole.Encloses r := by
  subst hstop
  constructor
  · unfold leftover
    split <;> split <;> simp [Apart] <;> omega
  · intro r hr
    rcases List.mem_cons.1 hr with rfl | hr
    · exact ⟨hs, he⟩
    · rcases mem_leftover.1 hr with ⟨hlt, rfl⟩ | ⟨hlt, rfl⟩
      · exact ⟨Nat.le_refl _, by show hole.start + (start - hole.start) ≤ _; omega⟩
      · exact ⟨by show hole.start ≤ start + size; omega, by
          show start + size + (hole.start + hole.size - (start + size)) ≤ _; omega⟩

theorem fit?_eq_some {size alignment start stop : Nat} {hole : AddressRange}
    (h : fit? size alignment hole = .ok (some (start, stop))) :
    hole.Room size alignment start ∧ stop = start + size := by
  unfold fit? at h
  rw [Checked.bind_eq_ok] at h
  obtain ⟨start?, hstart, h⟩ := h
  cases start? with
  | none => cases h
  | some first =>
    cases hadd : Word.add? first size with
    | none =>
      simp only [hadd] at h
      cases h
    | some last =>
      simp only [hadd, Checked.bind_eq_ok, Checked.pure_eq_ok, AddressRange.stop,
        Word.add_eq_ok_iff] at h
      obtain ⟨_, ⟨_, rfl⟩, h⟩ := h
      split at h
      next hle =>
        cases h
        obtain ⟨_, rfl⟩ := Word.add?_eq_some_iff.1 hadd
        obtain ⟨hdvd, hlow⟩ := (Word.isLeast_alignUp? hstart).1
        exact ⟨⟨hdvd, hlow, hle⟩, rfl⟩
      next => cases h

theorem firstFit?_eq_some {size alignment i k start stop : Nat} {hole : AddressRange}
    {holes : List AddressRange}
    (h : firstFit? size alignment holes k = .ok (some (i, hole, start, stop))) :
    k ≤ i ∧ holes[i - k]? = some hole ∧ hole.Room size alignment start ∧ stop = start + size := by
  induction holes generalizing k with
  | nil => cases h
  | cons x holes ih =>
    unfold firstFit? at h
    rw [Checked.bind_eq_ok] at h
    obtain ⟨place, hplace, h⟩ := h
    cases place with
    | none =>
      obtain ⟨hk, hi, hrest⟩ := ih h
      refine ⟨by omega, ?_, hrest⟩
      rw [show i - k = (i - (k + 1)) + 1 by omega, List.getElem?_cons_succ, hi]
    | some p =>
      cases h
      exact ⟨Nat.le_refl _, by rw [Nat.sub_self]; rfl, fit?_eq_some hplace⟩

/-- A place in a hole is taken, and the hole shrinks to what is left of it. -/
theorem Exclusive.fill {i start stop size : Nat} {hole : AddressRange} (h : s.Exclusive taken)
    (hi : s.holes[i]? = some hole) (hs : hole.start ≤ start) (hstop : stop = start + size)
    (he : stop ≤ hole.start + hole.size) {reserved : Nat} :
    Exclusive { s with holes := swapErase s.holes i ++ leftover hole start stop, reserved }
      (⟨start, size⟩ :: taken) := by
  obtain ⟨hpieces, henc⟩ := pieces_of_hole hs hstop he
  have hperm : (taken ++ s.holes).Perm (hole :: (taken ++ swapErase s.holes i)) :=
    ((perm_cons_swapErase hi).append_left taken).trans List.perm_middle
  have hbefore := hperm.pairwise h.apart fun h => h.symm
  rw [List.pairwise_cons] at hbefore
  have hperm' : ((⟨start, size⟩ :: taken) ++ (swapErase s.holes i ++ leftover hole start stop)).Perm
      ((⟨start, size⟩ :: leftover hole start stop) ++ (taken ++ swapErase s.holes i)) := by
    rw [List.cons_append, List.cons_append, ← List.append_assoc]
    exact List.perm_append_comm.cons _
  refine ⟨?_, ?_, h.start_le_next, h.next_le⟩
  · refine hperm'.symm.pairwise ?_ fun h => h.symm
    refine List.pairwise_append.2 ⟨hpieces, hbefore.2, ?_⟩
    intro r hr q hq
    exact (hbefore.1 q hq).of_encloses (henc r hr)
  · intro r hr
    have hhole := h.inside hole (hperm.mem_iff.2 List.mem_cons_self)
    rcases List.mem_append.1 (hperm'.mem_iff.1 hr) with hr | hr
    · obtain ⟨hlo, hhi⟩ := henc r hr
      exact ⟨Nat.le_trans hhole.start_le hlo, Nat.le_trans hhi hhole.stop_le_next,
        Nat.le_trans hhi hhole.stop_le, Nat.lt_of_le_of_lt hhi hhole.stop_lt⟩
    · have := h.inside r (hperm.mem_iff.2 (List.mem_cons_of_mem _ hr))
      exact ⟨this.start_le, this.stop_le_next, this.stop_le, this.stop_lt⟩

/-- A range behind the untouched end is taken, and the end moves behind it. -/
theorem Exclusive.extend {start size : Nat} (h : s.Exclusive taken) (hs : s.next ≤ start)
    (he : start + size ≤ s.range.start + s.range.size) (hw : start + size < Word.count)
    {reserved : Nat} :
    Exclusive { s with next := start + size, reserved } (⟨start, size⟩ :: taken) := by
  refine ⟨?_, ?_, ?_, he⟩
  · rw [List.cons_append, List.pairwise_cons]
    refine ⟨fun r hr => ?_, h.apart⟩
    have := (h.inside r hr).stop_le_next
    exact .inr (Nat.le_trans this hs)
  · intro r hr
    have hnext := h.start_le_next
    rcases List.mem_cons.1 hr with rfl | hr
    · exact ⟨Nat.le_trans hnext hs, Nat.le_refl _, he, hw⟩
    · have := h.inside r hr
      exact ⟨this.start_le, by have := this.stop_le_next; simp only; omega, this.stop_le,
        this.stop_lt⟩
  · have := h.start_le_next
    simp only
    omega

/-- How a reservation goes: it is made to fail, takes a place in a hole or at the untouched end, or
finds none. -/
inductive Reserves (size alignment : Nat) (s : AddressSpace) :
    Except HeapError AddressRange → AddressSpace → Prop where
  | fault (hpos : 0 < s.failingReserves) : Reserves size alignment s (.error (.reserveFailed size))
      { s with failingReserves := s.failingReserves - 1 }
  | hole {i hole start stop}
      (hfit : firstFit? size alignment s.holes 0 = .ok (some (i, hole, start, stop))) :
      Reserves size alignment s (.ok ⟨start, size⟩) { s with
        holes := swapErase s.holes i ++ leftover hole start stop, reserved := s.reserved + size }
  | untouched {start} (hfit : firstFit? size alignment s.holes 0 = .ok none)
      (hstart : Word.alignUp s.next alignment = .ok start) (hword : start + size < Word.count)
      (hle : start + size ≤ s.range.start + s.range.size) :
      Reserves size alignment s (.ok ⟨start, size⟩)
        { s with next := start + size, reserved := s.reserved + size }
  | full {start} (hfit : firstFit? size alignment s.holes 0 = .ok none)
      (hstart : Word.alignUp s.next alignment = .ok start)
      (hover : start + size < Word.count → s.range.start + s.range.size < start + size)
      (hzero : s.failingReserves = 0) :
      Reserves size alignment s (.error (.reserveFailed size)) s

theorem reserve_cases {size alignment : Nat} {r : Except HeapError AddressRange}
    (hrun : AddressSpace.reserve size alignment s = .ok (r, s')) : Reserves size alignment s r s' := by
  unfold AddressSpace.reserve at hrun
  rw [Effect.get_bind] at hrun
  by_cases hpos : 0 < s.failingReserves
  · simp only [hpos, if_true, Effect.set_bind, Effect.throw_bind] at hrun
    cases hrun
    exact .fault hpos
  · simp only [hpos, if_false, Effect.lift_bind, Checked.bind_eq_ok] at hrun
    obtain ⟨place, hfit, hrun⟩ := hrun
    cases place with
    | some p =>
      simp only [Effect.lift_bind, Effect.set_bind, Effect.pure_apply, Checked.bind_eq_ok,
        Word.add_eq_ok_iff] at hrun
      obtain ⟨_, ⟨_, rfl⟩, hrun⟩ := hrun
      cases hrun
      exact .hole hfit
    | none =>
      simp only [Effect.lift_bind, Checked.bind_eq_ok] at hrun
      obtain ⟨start, hstart, hrun⟩ := hrun
      cases hadd : Word.add? start size with
      | none =>
        simp only [hadd, Effect.throw_apply] at hrun
        cases hrun
        refine .full hfit hstart (fun hword => ?_) (Nat.eq_zero_of_not_pos hpos)
        cases hadd.symm.trans (Word.add?_eq_some_iff.2 ⟨hword, rfl⟩)
      | some stop =>
        obtain ⟨hword, rfl⟩ := Word.add?_eq_some_iff.1 hadd
        simp only [hadd, Effect.lift_bind, Checked.bind_eq_ok, AddressRange.stop,
          Word.add_eq_ok_iff] at hrun
        obtain ⟨_, ⟨_, rfl⟩, hrun⟩ := hrun
        split at hrun
        next hover =>
          simp only [Effect.throw_bind] at hrun
          cases hrun
          exact .full hfit hstart (fun _ => hover) (Nat.eq_zero_of_not_pos hpos)
        next hle =>
          simp only [Effect.lift_bind, Effect.set_bind, Effect.pure_apply,
            Checked.bind_eq_ok, Word.add_eq_ok_iff] at hrun
          obtain ⟨_, ⟨_, rfl⟩, hrun⟩ := hrun
          cases hrun
          exact .untouched hfit hstart hword (Nat.le_of_not_lt hle)

/-- A reservation fails and takes nothing, or takes a place in a hole or behind the untouched end. -/
theorem reserve_eq_ok {size alignment : Nat} {r : Except HeapError AddressRange}
    (hrun : AddressSpace.reserve size alignment s = .ok (r, s')) :
    (∃ e failingReserves, r = .error e ∧ s' = { s with failingReserves } ∧
        failingReserves ≤ s.failingReserves) ∨
      (∃ i hole start, s.holes[i]? = some hole ∧ hole.start ≤ start ∧
        start + size ≤ hole.start + hole.size ∧ r = .ok ⟨start, size⟩ ∧ s' = { s with
          holes := swapErase s.holes i ++ leftover hole start (start + size)
          reserved := s.reserved + size }) ∨
      ∃ start, s.next ≤ start ∧ start + size ≤ s.range.start + s.range.size ∧
        start + size < Word.count ∧ r = .ok ⟨start, size⟩ ∧
        s' = { s with next := start + size, reserved := s.reserved + size } := by
  cases reserve_cases hrun with
  | fault => exact .inl ⟨_, _, rfl, rfl, Nat.sub_le ..⟩
  | full => exact .inl ⟨_, _, rfl, rfl, Nat.le_refl _⟩
  | hole hfit =>
    obtain ⟨_, hi, hroom, rfl⟩ := firstFit?_eq_some hfit
    exact .inr (.inl ⟨_, _, _, hi, hroom.encloses.1, hroom.encloses.2, rfl, rfl⟩)
  | untouched _ hstart hword hle =>
    exact .inr (.inr ⟨_, Word.le_of_alignUp hstart, hle, hword, rfl, rfl⟩)

/-- A reservation hands out a range that nobody has, or nothing. -/
theorem Exclusive.reserve (h : s.Exclusive taken) {size alignment : Nat}
    {r : Except HeapError AddressRange}
    (hrun : AddressSpace.reserve size alignment s = .ok (r, s')) : s'.range = s.range ∧
      ((∃ x, r = .ok x ∧ x.size = size ∧ s'.Exclusive (x :: taken)) ∨
        ∃ e, r = .error e ∧ s'.Exclusive taken) := by
  rcases reserve_eq_ok hrun with ⟨e, failing, rfl, rfl, _⟩ |
    ⟨i, hole, start, hi, hs, he, rfl, rfl⟩ | ⟨start, hs, he, hw, rfl, rfl⟩
  · exact ⟨rfl, .inr ⟨e, rfl, h.of_same rfl rfl rfl⟩⟩
  · exact ⟨rfl, .inl ⟨_, rfl, rfl, h.fill hi hs rfl he⟩⟩
  · exact ⟨rfl, .inl ⟨_, rfl, rfl, h.extend hs he hw⟩⟩

theorem Exclusive.commit (h : s.Exclusive taken) {x : AddressRange} {r : Except HeapError Unit}
    (hrun : AddressSpace.commit x s = .ok (r, s')) :
    s'.range = s.range ∧ s'.Exclusive taken := by
  unfold AddressSpace.commit at hrun
  rw [Effect.get_bind] at hrun
  by_cases hf : 0 < s.failingCommits
  · simp only [hf, if_true, Effect.set_bind, Effect.throw_bind] at hrun
    cases hrun
    exact ⟨rfl, h.of_same rfl rfl rfl⟩
  · simp only [hf, if_false, Effect.lift_bind, Checked.bind_eq_ok] at hrun
    obtain ⟨committed, _, hrun⟩ := hrun
    split at hrun
    · rw [Effect.throw_bind] at hrun
      cases hrun
      exact ⟨rfl, h⟩
    · rw [Effect.set_apply] at hrun
      cases hrun
      exact ⟨rfl, h.of_same rfl rfl rfl⟩

theorem Exclusive.release {x : AddressRange} (h : s.Exclusive (x :: taken)) :
    (s.release x).Exclusive taken := by
  have hperm : (x :: taken ++ s.holes).Perm (taken ++ (s.holes ++ [x])) := by
    rw [← List.append_assoc]
    exact (List.perm_append_singleton x _).symm
  refine ⟨hperm.pairwise h.apart fun h => h.symm, fun r hr => ?_, h.start_le_next, h.next_le⟩
  have := h.inside r (hperm.mem_iff.2 hr)
  exact ⟨this.start_le, this.stop_le_next, this.stop_le, this.stop_lt⟩

theorem exclusive_ofRange (range : AddressRange) : (AddressSpace.ofRange range).Exclusive [] :=
  ⟨.nil, fun _ hr => absurd hr List.not_mem_nil, Nat.le_refl _, Nat.le_add_right ..⟩

end AddressSpace

namespace Provider

/-- A provider from whose books the ranges are taken, and which takes back what it gave out: only
reservations and commits can be refused. -/
structure Serves (p : Provider) (taken : List AddressRange) : Prop where
  exclusive : p.space.Exclusive taken
  decommits : p.refusals.decommit = 0
  releases : p.refusals.release = 0

variable {p p' : Provider} {taken taken' : List AddressRange} {x : AddressRange}

theorem Serves.perm (h : p.Serves taken) (hp : taken.Perm taken') : p.Serves taken' :=
  ⟨h.exclusive.perm hp, h.decommits, h.releases⟩

theorem serves_ofRange (range : AddressRange) : (Provider.ofRange range).Serves [] :=
  ⟨AddressSpace.exclusive_ofRange range, rfl, rfl⟩

/-- What a call meets behind the gate: the provider with the refusal used up, or the same one. -/
theorem enter_eq_ok {call : ProviderCall} {r : Except HeapError PUnit}
    (h : enter call x p = .ok (r, p')) :
    (∃ e, r = .error e ∧ 0 < p.refusals.get call ∧
        p' = p.refuse call (p.refusals.get call - 1)) ∨ (r = .ok ⟨⟩ ∧ p' = p) := by
  unfold enter at h
  rw [Effect.get_bind] at h
  by_cases hr : 0 < p.refusals.get call
  · simp only [hr, if_true, Effect.set_bind, Effect.throw_apply] at h
    cases h
    exact .inl ⟨_, rfl, hr, rfl⟩
  · simp only [hr, if_false, Effect.pure_apply] at h
    cases h
    exact .inr ⟨rfl, rfl⟩

/-- A call is refused, which uses up one refusal of its kind. -/
def Refuses (p : Provider) (call : ProviderCall) {α : Type} (r : Except HeapError α)
    (p' : Provider) : Prop :=
  ∃ e, r = .error e ∧ 0 < p.refusals.get call ∧ p' = p.refuse call (p.refusals.get call - 1)

/-- Behind the gate is the rest of the call, unless it is refused. -/
theorem enter_bind_cases {α : Type} {call : ProviderCall} {rest : Transition Provider α}
    {r : Except HeapError α} (hrun : (enter call x >>= fun _ => rest) p = .ok (r, p')) :
    p.Refuses call r p' ∨ rest p = .ok (r, p') := by
  rw [Effect.bind_eq_ok] at hrun
  rcases hrun with ⟨_, p₁, hin, hrun⟩ | ⟨e, hin, rfl⟩
  · obtain ⟨e, he, -⟩ | ⟨-, rfl⟩ := enter_eq_ok hin
    · cases he
    · exact .inr hrun
  · obtain ⟨_, -, hpos, rfl⟩ | ⟨he, -⟩ := enter_eq_ok hin
    · exact .inl ⟨e, rfl, hpos, rfl⟩
    · cases he

theorem reserve_cases {size alignment : Nat} {r : Except HeapError AddressRange}
    (hrun : Provider.reserve size alignment p = .ok (r, p')) : p.Refuses .reserve r p' ∨
      ∃ space, AddressSpace.reserve size alignment p.space = .ok (r, space) ∧
        p' = { p with space } := by
  obtain hrefused | hrun := enter_bind_cases hrun
  · exact .inl hrefused
  · exact .inr (Transition.onPart_eq_ok.1 hrun)

theorem commit_cases {r : Except HeapError Unit} (hrun : Provider.commit x p = .ok (r, p')) :
    p.Refuses .commit r p' ∨
      ∃ space, AddressSpace.commit x p.space = .ok (r, space) ∧ p' = { p with space } := by
  obtain hrefused | hrun := enter_bind_cases hrun
  · exact .inl hrefused
  · exact .inr (Transition.onPart_eq_ok.1 hrun)

theorem decommit_cases {r : Except HeapError Unit} (hrun : Provider.decommit x p = .ok (r, p')) :
    p.Refuses .decommit r p' ∨ r = .ok ⟨⟩ ∧ p' = { p with space := p.space.decommit x } := by
  obtain hrefused | hrun := enter_bind_cases hrun
  · exact .inl hrefused
  · cases hrun
    exact .inr ⟨rfl, rfl⟩

theorem release_cases {r : Except HeapError Unit} (hrun : Provider.release x p = .ok (r, p')) :
    p.Refuses .release r p' ∨ r = .ok ⟨⟩ ∧ p' = { p with space := p.space.release x } := by
  obtain hrefused | hrun := enter_bind_cases hrun
  · exact .inl hrefused
  · cases hrun
    exact .inr ⟨rfl, rfl⟩

theorem Serves.refuse (h : p.Serves taken) {call : ProviderCall}
    (hc : call = .reserve ∨ call = .commit) (n : Nat) : (p.refuse call n).Serves taken := by
  rcases hc with rfl | rfl
  · exact ⟨h.exclusive, h.decommits, h.releases⟩
  · exact ⟨h.exclusive, h.decommits, h.releases⟩

theorem Serves.reserve (h : p.Serves taken) {size alignment : Nat}
    {r : Except HeapError AddressRange} (hrun : Provider.reserve size alignment p = .ok (r, p')) :
    p'.space.range = p.space.range ∧
      ((∃ x, r = .ok x ∧ x.size = size ∧ p'.Serves (x :: taken)) ∨
        ∃ e, r = .error e ∧ p'.Serves taken) := by
  obtain ⟨e, he, -, rfl⟩ | ⟨space, hspace, rfl⟩ := reserve_cases hrun
  · exact ⟨rfl, .inr ⟨e, he, h.refuse (.inl rfl) _⟩⟩
  · obtain ⟨hrange, hres⟩ := h.exclusive.reserve hspace
    refine ⟨hrange, hres.imp ?_ ?_⟩
    · rintro ⟨x, hx, hsize, hex⟩
      exact ⟨x, hx, hsize, hex, h.decommits, h.releases⟩
    · rintro ⟨e, he, hex⟩
      exact ⟨e, he, hex, h.decommits, h.releases⟩

theorem Serves.commit (h : p.Serves taken) {r : Except HeapError Unit}
    (hrun : Provider.commit x p = .ok (r, p')) :
    p'.space.range = p.space.range ∧ p'.Serves taken := by
  obtain ⟨e, -, -, rfl⟩ | ⟨space, hspace, rfl⟩ := commit_cases hrun
  · exact ⟨rfl, h.refuse (.inr rfl) _⟩
  · obtain ⟨hrange, hex⟩ := h.exclusive.commit hspace
    exact ⟨hrange, hex, h.decommits, h.releases⟩

/-- Memory is always taken back. -/
theorem Serves.decommit (h : p.Serves taken) {r : Except HeapError Unit}
    (hrun : Provider.decommit x p = .ok (r, p')) :
    r = .ok ⟨⟩ ∧ p'.space.range = p.space.range ∧ p'.Serves taken := by
  obtain ⟨e, -, hpos, -⟩ | ⟨hr, rfl⟩ := decommit_cases hrun
  · exact absurd h.decommits (Nat.ne_of_gt hpos)
  · exact ⟨hr, rfl, h.exclusive.of_same rfl rfl rfl, h.decommits, h.releases⟩

theorem Serves.release (h : p.Serves (x :: taken)) {r : Except HeapError Unit}
    (hrun : Provider.release x p = .ok (r, p')) :
    r = .ok ⟨⟩ ∧ p'.space.range = p.space.range ∧ p'.Serves taken := by
  obtain ⟨e, -, hpos, -⟩ | ⟨hr, rfl⟩ := release_cases hrun
  · exact absurd h.releases (Nat.ne_of_gt hpos)
  · exact ⟨hr, rfl, h.exclusive.release, h.decommits, h.releases⟩

end Provider

end GenHeap
