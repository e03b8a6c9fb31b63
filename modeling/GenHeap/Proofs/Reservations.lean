import GenHeap.Proofs.ArenaProgress

/-!
An address space over any run of reservations and releases. What is reserved, the holes and the
untouched end share no address, and the books say how much is reserved. A reservation is refused only
on purpose, or where no hole has room and neither has the end: first fit looks at the least aligned
place of each of them, and no other place reaches less far.
-/

namespace GenHeap

open Checked (Runs)

namespace Word

variable {v a m : Nat}

theorem dvd_count (h : isPowerOfTwo a = true) (hword : a < count) : a ∣ count := by
  rw [isPowerOfTwo, Bool.and_eq_true, bne_iff_ne, beq_iff_eq,
    Nat.ne_zero_and_sub_one_eq_zero_iff_isPowerOfTwo] at h
  obtain ⟨k, rfl⟩ := h
  have hle : k ≤ 64 := Nat.le_of_lt ((Nat.pow_lt_pow_iff_right (Nat.one_lt_two)).1 hword)
  exact Nat.pow_dvd_pow 2 hle

/-- Words run out below the next multiple. -/
theorem count_le_of_alignUp? (h : alignUp? v a = .ok none) (hword : a < count) (hdvd : a ∣ m)
    (hle : v ≤ m) : count ≤ m := by
  have hpower := runs_alignUp?.1 ⟨_, h⟩
  have hover : ¬ v + (a - 1) < count := by
    intro hlt
    simp [alignUp?, hpower, add?, hlt, Checked.pure_eq_ok] at h
  by_contra hlt
  have hstep := Nat.le_of_dvd (by omega) (Nat.dvd_sub (dvd_count hpower hword) hdvd)
  omega

end Word

namespace AddressSpace

open AddressRange (Apart Encloses)

variable {s s' : AddressSpace} {range x hole : AddressRange} {taken : List AddressRange}
  {size alignment : Nat}

/-! ## Where nothing fits -/

theorem fit?_eq_none (h : fit? size alignment hole = .ok none) (hword : alignment < Word.count)
    (hstop : hole.start + hole.size < Word.count) (a : Nat) : ¬ hole.Room size alignment a := by
  rintro ⟨hdvd, hlow, hhigh⟩
  dsimp only at hlow hhigh
  unfold fit? at h
  rw [Checked.bind_eq_ok] at h
  obtain ⟨start?, hstart, h⟩ := h
  cases start? with
  | none =>
    have hover := Word.count_le_of_alignUp? hstart hword hdvd hlow
    omega
  | some start =>
    have hleast : start ≤ a := (Word.isLeast_alignUp? hstart).2 ⟨hdvd, hlow⟩
    have hadd : Word.add? start size = some (start + size) :=
      Word.add?_eq_some_iff.2 ⟨by omega, rfl⟩
    have hend : hole.stop = .ok (hole.start + hole.size) := Word.add_eq_ok_iff.2 ⟨hstop, rfl⟩
    have hfits : start + size ≤ hole.start + hole.size := by omega
    simp [hadd, hend, hfits] at h

theorem firstFit?_eq_none {holes : List AddressRange} {i : Nat}
    (h : firstFit? size alignment holes i = .ok none) (hword : alignment < Word.count)
    (hstop : ∀ hole ∈ holes, hole.start + hole.size < Word.count) :
    ∀ hole ∈ holes, ∀ a, ¬ hole.Room size alignment a := by
  induction holes generalizing i with
  | nil => exact fun _ hh => absurd hh List.not_mem_nil
  | cons hole holes ih =>
    rw [List.forall_mem_cons] at hstop ⊢
    rw [firstFit?, Checked.bind_eq_ok] at h
    obtain ⟨place, hplace, h⟩ := h
    cases place with
    | none => exact ⟨fit?_eq_none hplace hword hstop.1, ih h hstop.2⟩
    | some p => cases h

theorem no_room_untouched {start : Nat} (hnext : s.next ≤ s.range.start + s.range.size)
    (hstop : s.range.start + s.range.size < Word.count)
    (hstart : Word.alignUp s.next alignment = .ok start)
    (hover : start + size < Word.count → s.range.start + s.range.size < start + size) (a : Nat) :
    ¬ s.untouched.Room size alignment a := by
  rintro ⟨hdvd, hlow, hhigh⟩
  dsimp only [untouched] at hlow hhigh
  have hleast : start ≤ a := (Word.isLeast_alignUp hstart).2 ⟨hdvd, hlow⟩
  have := hover (by omega)
  omega

/-! ## Runs -/

/-- What becomes of the address space of a range. The list holds what is reserved, the latest first. -/
inductive Reached (range : AddressRange) : List AddressRange → AddressSpace → Prop where
  | start : Reached range [] (.ofRange range)
  | failing {taken : List AddressRange} {s : AddressSpace} (n : Nat) (h : Reached range taken s) :
      Reached range taken { s with failingReserves := n }
  | granted {taken : List AddressRange} {s s' : AddressSpace} {size alignment : Nat}
      {x : AddressRange} (h : Reached range taken s) (halign : Word.isPowerOfTwo alignment = true)
      (hrun : AddressSpace.reserve size alignment s = .ok (.ok x, s')) : Reached range (x :: taken) s'
  | refused {taken : List AddressRange} {s s' : AddressSpace} {size alignment : Nat}
      {e : HeapError} (h : Reached range taken s) (halign : Word.isPowerOfTwo alignment = true)
      (hrun : AddressSpace.reserve size alignment s = .ok (.error e, s')) : Reached range taken s'
  | released {taken : List AddressRange} {s : AddressSpace} {x : AddressRange}
      (h : Reached range taken s) (hx : x ∈ taken) : Reached range (taken.erase x) (s.release x)

/-- What is reserved shares no address with the holes and the untouched end, and is all that is on the
books. -/
structure Kept (range : AddressRange) (taken : List AddressRange) (s : AddressSpace) : Prop where
  range_eq : s.range = range
  exclusive : s.Exclusive taken
  books : s.Books (Word.total (taken.map (·.size))) 0

theorem kept_ofRange (range : AddressRange) : Kept range [] (.ofRange range) :=
  ⟨rfl, exclusive_ofRange range, rfl, rfl, rfl⟩

theorem Kept.failing (h : Kept range taken s) (n : Nat) :
    Kept range taken { s with failingReserves := n } :=
  ⟨h.range_eq, h.exclusive.of_same rfl rfl rfl, h.books.of_same rfl rfl rfl⟩

theorem Kept.granted (h : Kept range taken s)
    (hrun : AddressSpace.reserve size alignment s = .ok (.ok x, s')) :
    x.size = size ∧ Kept range (x :: taken) s' := by
  obtain ⟨hrange, ⟨_, hx, hsize, hexclusive⟩ | ⟨_, hx, _⟩⟩ := h.exclusive.reserve hrun
  · cases hx
    obtain ⟨_, hx, _, hbooks⟩ | ⟨_, hx, _⟩ := h.books.reserve hrun
    · cases hx
      refine ⟨hsize, hrange.trans h.range_eq, hexclusive, ?_⟩
      rwa [List.map_cons, Word.total_cons, hsize, Nat.add_comm]
    · cases hx
  · cases hx

theorem Kept.release (h : Kept range taken s) (hx : x ∈ taken) :
    Kept range (taken.erase x) (s.release x) := by
  have hperm := List.perm_cons_erase hx
  refine ⟨h.range_eq, (h.exclusive.perm hperm).release, Books.release ?_⟩
  have hbooks := h.books
  rwa [Word.total_perm (hperm.map _), List.map_cons, Word.total_cons] at hbooks

theorem Exclusive.holes_stop_lt (h : s.Exclusive taken) :
    ∀ hole ∈ s.holes, hole.start + hole.size < Word.count :=
  fun hole hh => (h.inside hole (List.mem_append_right taken hh)).stop_lt

/-- How a reservation is answered, and what the address space is after a refusal. -/
inductive Answers (s : AddressSpace) (taken : List AddressRange) (size alignment : Nat) :
    Except HeapError AddressRange → AddressSpace → Prop where
  | granted {x : AddressRange} {s' : AddressSpace} (hdvd : alignment ∣ x.start) (hsize : x.size = size)
      (hencloses : s.range.Encloses x) (hapart : ∀ y ∈ taken, x.Apart y) :
      Answers s taken size alignment (.ok x) s'
  | refused (hwhy : 0 < s.failingReserves ∨
      ∀ r ∈ s.untouched :: s.holes, ∀ a, ¬ r.Room size alignment a) :
      Answers s taken size alignment (.error (.reserveFailed size))
        { s with failingReserves := s.failingReserves - 1 }

theorem dvd_start_of_reserve (hrun : AddressSpace.reserve size alignment s = .ok (.ok x, s')) :
    alignment ∣ x.start := by
  cases reserve_cases hrun with
  | hole hfit => exact (firstFit?_eq_some hfit).2.2.1.dvd
  | untouched _ hstart => exact (Word.isLeast_alignUp hstart).1.1

theorem Exclusive.refused (h : s.Exclusive taken) {e : HeapError}
    (hstop : s.range.start + s.range.size < Word.count)
    (hrun : AddressSpace.reserve size alignment s = .ok (.error e, s')) :
    Answers s taken size alignment (.error e) s' := by
  cases reserve_cases hrun with
  | fault hpos => exact .refused (.inl hpos)
  | full hfit hstart hover hzero =>
    have hword := (Word.runs_alignUp.1 ⟨_, hstart⟩).2
    have hnone : ∀ r ∈ s.untouched :: s.holes, ∀ a, ¬ r.Room size alignment a := by
      rw [List.forall_mem_cons]
      constructor
      · exact no_room_untouched h.next_le hstop hstart hover
      · exact firstFit?_eq_none hfit (by omega) h.holes_stop_lt
    have hsame : { s with failingReserves := s.failingReserves - 1 } = s := by
      rw [hzero, Nat.zero_sub, ← hzero]
    have hrefused : Answers s taken size alignment _ _ := .refused (.inr hnone)
    rwa [hsame] at hrefused

theorem Kept.answers (h : Kept range taken s) (hstop : range.start + range.size < Word.count)
    {r : Except HeapError AddressRange}
    (hrun : AddressSpace.reserve size alignment s = .ok (r, s')) :
    Answers s taken size alignment r s' := by
  rw [← h.range_eq] at hstop
  cases r with
  | error e => exact h.exclusive.refused hstop hrun
  | ok x =>
    obtain ⟨hsize, hkept⟩ := h.granted hrun
    have hx := hkept.exclusive.inside_taken List.mem_cons_self
    have hrange : s'.range = s.range := hkept.range_eq.trans h.range_eq.symm
    refine .granted (dvd_start_of_reserve hrun) hsize ?_ ?_
    · exact hrange ▸ hx.encloses
    · exact (List.pairwise_cons.1 hkept.exclusive.apart_taken).1

/-- If a reservation gets as far as the untouched end, that can be rounded up. -/
def Rounds (s : AddressSpace) (size alignment : Nat) : Prop :=
  s.failingReserves = 0 → (∀ hole ∈ s.holes, ∀ a, ¬ hole.Room size alignment a) →
    s.next + alignment < Word.count

theorem Kept.runs (h : Kept range taken s) (hstop : range.start + range.size < Word.count)
    (halign : Word.isPowerOfTwo alignment = true) (hword : alignment < Word.count)
    (hrounds : s.Rounds size alignment) : Runs (AddressSpace.reserve size alignment s) := by
  rw [← h.range_eq] at hstop
  refine h.exclusive.reserve_runs halign hstop (fun hzero hfit => ?_) fun x hsize hencloses hapart => ?_
  · exact hrounds hzero (firstFit?_eq_none hfit hword h.exclusive.holes_stop_lt)
  · -- the new range and all that is reserved fit side by side into the space
    have htotal := AddressRange.total_size_le hapart (r := s.range) <| by
      rw [List.forall_mem_cons]
      exact ⟨hencloses, fun y hy => (h.exclusive.inside_taken hy).encloses⟩
    rw [List.map_cons, Word.total_cons, ← h.books.reserved_eq] at htotal
    omega

theorem rounds_of_runs (hruns : Runs (AddressSpace.reserve size alignment s)) :
    s.Rounds size alignment := by
  intro hzero hnone
  obtain ⟨⟨r, s'⟩, hrun⟩ := hruns
  cases reserve_cases hrun with
  | fault hpos => exact absurd hzero (Nat.ne_of_gt hpos)
  | hole hfit =>
    obtain ⟨_, hhole, hroom, _⟩ := firstFit?_eq_some hfit
    exact absurd hroom (hnone _ (List.mem_of_getElem? hhole) _)
  | untouched _ hstart | full _ hstart => exact (Word.runs_alignUp.1 ⟨_, hstart⟩).2

theorem Reached.kept (h : Reached range taken s) (hstop : range.start + range.size < Word.count) :
    Kept range taken s := by
  induction h with
  | start => exact kept_ofRange range
  | failing n _ ih => exact ih.failing n
  | granted _ _ hrun ih => exact (ih.granted hrun).2
  | refused _ _ hrun ih =>
    cases ih.answers hstop hrun
    exact ih.failing _
  | released _ hx ih => exact ih.release hx

/-- Whatever was reserved and released: nothing that is reserved is handed out again, a reservation is
refused for want of room only if there is none, and it is answered unless rounding up the untouched end
overflows. -/
theorem reservations_exclusive (hstop : range.start + range.size < Word.count)
    (h : Reached range taken s) :
    Kept range taken s ∧ ∀ size alignment, Word.isPowerOfTwo alignment = true →
      alignment < Word.count →
      (Runs (AddressSpace.reserve size alignment s) ↔ s.Rounds size alignment) ∧
      ∀ r s', AddressSpace.reserve size alignment s = .ok (r, s') →
        Answers s taken size alignment r s' := by
  have hkept := h.kept hstop
  refine ⟨hkept, fun size alignment halign hword => ⟨⟨rounds_of_runs, ?_⟩, fun r s' hrun => ?_⟩⟩
  · exact hkept.runs hstop halign hword
  · exact hkept.answers hstop hrun

def page : AddressRange := ⟨0x1000, 0x1000⟩

/-- A page after 16 bytes and three quarters of a kilobyte were reserved, the latter released, and 128
bytes of its hole reserved again where they are aligned to 512. -/
def carved : AddressSpace :=
  { AddressSpace.ofRange page with
    next := 0x1400
    holes := [⟨0x1100, 0x100⟩, ⟨0x1280, 0x180⟩]
    reserved := 0x90 }

theorem reached_carved : Reached page [⟨0x1200, 0x80⟩, ⟨0x1000, 0x10⟩] carved := by
  have hsmall : Reached page [⟨0x1000, 0x10⟩]
      { AddressSpace.ofRange page with next := 0x1010, reserved := 0x10 } :=
    .granted .start (show Word.isPowerOfTwo 1 = true by decide)
      (show AddressSpace.reserve 0x10 1 _ = _ by decide)
  have hlarge : Reached page [⟨0x1100, 0x300⟩, ⟨0x1000, 0x10⟩]
      { AddressSpace.ofRange page with next := 0x1400, reserved := 0x310 } :=
    hsmall.granted (show Word.isPowerOfTwo 0x100 = true by decide)
      (show AddressSpace.reserve 0x300 0x100 _ = _ by decide)
  exact (hlarge.released List.mem_cons_self).granted (show Word.isPowerOfTwo 0x200 = true by decide)
    (show AddressSpace.reserve 0x80 0x200 _ = _ by decide)

/-- The rest of the hole is 384 bytes long, and more than the end of the page is not to be had. -/
theorem reservations_exclusive_carved :
    Kept page [⟨0x1200, 0x80⟩, ⟨0x1000, 0x10⟩] carved ∧
      Answers carved [⟨0x1200, 0x80⟩, ⟨0x1000, 0x10⟩] 0x180 0x80 (.ok ⟨0x1280, 0x180⟩)
        { carved with holes := [⟨0x1100, 0x100⟩], reserved := 0x210 } ∧
      Answers carved [⟨0x1200, 0x80⟩, ⟨0x1000, 0x10⟩] 0xc01 1 (.error (.reserveFailed 0xc01)) carved := by
  obtain ⟨hkept, hanswers⟩ := reservations_exclusive (by decide) reached_carved
  exact ⟨hkept, (hanswers 0x180 0x80 (by decide) (by decide)).2 _ _ (by decide),
    (hanswers 0xc01 1 (by decide) (by decide)).2 _ _ (by decide)⟩

end AddressSpace

end GenHeap
