import GenHeap.Proofs.SegmentTable

/-!
The books of a provider, and the bytes of a table that are on them. A call that fails charges
nothing, and what was charged for a range is enough to give it back.
-/

namespace GenHeap

theorem Word.total_append (ns ms : List Nat) :
    Word.total (ns ++ ms) = Word.total ns + Word.total ms := by
  induction ns with
  | nil => exact (Nat.zero_add _).symm
  | cons n ns ih => rw [List.cons_append, total_cons, total_cons, ih, Nat.add_assoc]

theorem Word.total_perm {ns ms : List Nat} (h : ns.Perm ms) : Word.total ns = Word.total ms := by
  induction h with
  | nil => rfl
  | cons n _ ih => rw [total_cons, total_cons, ih]
  | swap n m ns => rw [total_cons, total_cons, total_cons, total_cons, Nat.add_left_comm]
  | trans _ _ ih ih' => exact ih.trans ih'

theorem Word.total_map_flatMap {α β : Type} (xs : List α) (f : α → List β) (g : β → Nat) :
    Word.total ((xs.flatMap f).map g) = Word.total (xs.map fun x => Word.total ((f x).map g)) := by
  induction xs with
  | nil => rfl
  | cons x xs ih =>
    rw [List.flatMap_cons, List.map_append, total_append, ih, List.map_cons, total_cons]

theorem Word.total_map_add {α : Type} (xs : List α) (f g : α → Nat) :
    Word.total (xs.map fun x => f x + g x) = Word.total (xs.map f) + Word.total (xs.map g) := by
  induction xs with
  | nil => rfl
  | cons x xs ih =>
    simp only [List.map_cons, total_cons, ih]
    omega

theorem Word.total_eq_zero {ns : List Nat} (h : ∀ n ∈ ns, n = 0) : Word.total ns = 0 := by
  induction ns with
  | nil => rfl
  | cons n ns ih =>
    rw [List.forall_mem_cons] at h
    rw [total_cons, h.1, ih h.2]

namespace AddressSpace

/-- What is on the books of an address space. Nothing was ever overdrawn. -/
structure Books (s : AddressSpace) (reserved committed : Nat) : Prop where
  reserved_eq : s.reserved = reserved
  committed_eq : s.committed = committed
  overdrawn_eq : s.overdrawn = 0

variable {s s' : AddressSpace} {reserved committed size alignment : Nat} {x : AddressRange}

theorem Books.of_same (h : s.Books reserved committed) (hreserved : s'.reserved = s.reserved)
    (hcommitted : s'.committed = s.committed) (hoverdrawn : s'.overdrawn = s.overdrawn) :
    s'.Books reserved committed :=
  ⟨hreserved.trans h.reserved_eq, hcommitted.trans h.committed_eq, hoverdrawn.trans h.overdrawn_eq⟩

theorem Books.reserve (h : s.Books reserved committed) {r : Except HeapError AddressRange}
    (hrun : AddressSpace.reserve size alignment s = .ok (r, s')) :
    (∃ x, r = .ok x ∧ x.size = size ∧ s'.Books (reserved + size) committed) ∨
      ∃ e, r = .error e ∧ s'.Books reserved committed := by
  obtain ⟨rfl, rfl, hzero⟩ := h
  rcases reserve_eq_ok hrun with ⟨e, failing, rfl, rfl, _⟩ | ⟨i, hole, start, _, _, _, rfl, rfl⟩ |
    ⟨start, _, _, _, rfl, rfl⟩
  · exact .inr ⟨e, rfl, rfl, rfl, hzero⟩
  · exact .inl ⟨_, rfl, rfl, rfl, rfl, hzero⟩
  · exact .inl ⟨_, rfl, rfl, rfl, rfl, hzero⟩

/-- A commit charges its bytes, or fails on purpose and charges nothing. -/
theorem commit_eq_ok {r : Except HeapError Unit} (hrun : AddressSpace.commit x s = .ok (r, s')) :
    (r = .ok ⟨⟩ ∧ s' = { s with committed := s.committed + x.size }) ∨
      ∃ e failingCommits, r = .error e ∧ s' = { s with failingCommits } ∧
        (0 < s.failingCommits ∨ s.commitLimit.isSome = true) := by
  unfold AddressSpace.commit at hrun
  rw [Effect.get_bind] at hrun
  by_cases hfailing : 0 < s.failingCommits
  · simp only [hfailing, if_true, Effect.set_bind, Effect.throw_bind] at hrun
    cases hrun
    exact .inr ⟨_, _, rfl, rfl, .inl hfailing⟩
  · simp only [hfailing, if_false, Effect.lift_bind, Checked.bind_eq_ok,
      Word.add_eq_ok_iff] at hrun
    obtain ⟨_, ⟨_, rfl⟩, hrun⟩ := hrun
    split at hrun
    next hlimit =>
      rw [Effect.throw_bind] at hrun
      cases hrun
      refine .inr ⟨_, _, rfl, rfl, .inr ?_⟩
      cases hsome : s.commitLimit with
      | none =>
        rw [hsome] at hlimit
        cases hlimit
      | some limit => rfl
    next =>
      rw [Effect.set_apply] at hrun
      cases hrun
      exact .inl ⟨rfl, rfl⟩

/-- What was charged for a range is enough to give it back. -/
theorem Books.decommit (h : s.Books reserved (x.size + committed)) :
    (s.decommit x).Books reserved committed := by
  obtain ⟨rfl, hcommitted, hzero⟩ := h
  refine ⟨rfl, ?_, ?_⟩
  · exact Nat.sub_eq_of_eq_add' hcommitted
  · show s.overdrawn + (x.size - s.committed) = 0
    omega

theorem Books.release (h : s.Books (x.size + reserved) committed) :
    (s.release x).Books reserved committed := by
  obtain ⟨hreserved, rfl, hzero⟩ := h
  refine ⟨?_, rfl, ?_⟩
  · exact Nat.sub_eq_of_eq_add' hreserved
  · show s.overdrawn + (x.size - s.reserved) = 0
    omega

end AddressSpace

namespace Provider

/-- The books of the address space, whatever is refused. -/
def Books (p : Provider) (reserved committed : Nat) : Prop := p.space.Books reserved committed

variable {p p' : Provider} {reserved committed size alignment : Nat} {x : AddressRange}

/-- Nothing makes reservations or commits fail but a lack of room. -/
structure Willing (p : Provider) : Prop where
  reserves : p.refusals.reserve = 0
  commits : p.refusals.commit = 0
  failingReserves : p.space.failingReserves = 0
  failingCommits : p.space.failingCommits = 0
  commitLimit : p.space.commitLimit = none

instance : Decidable p.Willing :=
  decidable_of_iff (p.refusals.reserve = 0 ∧ p.refusals.commit = 0 ∧ p.space.failingReserves = 0 ∧
      p.space.failingCommits = 0 ∧ p.space.commitLimit = none)
    ⟨fun ⟨hr, hc, hfr, hfc, hl⟩ => ⟨hr, hc, hfr, hfc, hl⟩,
      fun ⟨hr, hc, hfr, hfc, hl⟩ => ⟨hr, hc, hfr, hfc, hl⟩⟩

theorem Books.congr (h : p.Books reserved committed) {reserved' committed' : Nat}
    (hreserved : reserved = reserved') (hcommitted : committed = committed') :
    p.Books reserved' committed' := by
  rwa [← hreserved, ← hcommitted]

theorem Books.refuse (h : p.Books reserved committed) (call : ProviderCall) (n : Nat) :
    (p.refuse call n).Books reserved committed := h

theorem Books.reserve (h : p.Books reserved committed) {r : Except HeapError AddressRange}
    (hrun : Provider.reserve size alignment p = .ok (r, p')) :
    (∃ x, r = .ok x ∧ x.size = size ∧ p'.Books (reserved + size) committed) ∨
      ∃ e, r = .error e ∧ p'.Books reserved committed := by
  obtain ⟨e, he, -, rfl⟩ | ⟨space, hspace, rfl⟩ := reserve_cases hrun
  · exact .inr ⟨e, he, h.refuse ..⟩
  · exact AddressSpace.Books.reserve h hspace

/-- A commit charges its bytes, or charges nothing. -/
theorem commit_eq_ok {r : Except HeapError Unit} (hrun : Provider.commit x p = .ok (r, p')) :
    (r = .ok ⟨⟩ ∧ p' = { p with space := { p.space with committed := p.space.committed + x.size } }) ∨
      ∃ e failingCommits, r = .error e ∧ p'.space = { p.space with failingCommits } ∧
        ¬ p.Willing := by
  obtain ⟨e, he, hpos, rfl⟩ | ⟨space, hspace, rfl⟩ := commit_cases hrun
  · exact .inr ⟨e, _, he, rfl, fun hw => Nat.ne_of_gt hpos hw.commits⟩
  · rcases AddressSpace.commit_eq_ok hspace with ⟨rfl, rfl⟩ | ⟨e, failing, rfl, rfl, hcause⟩
    · exact .inl ⟨rfl, rfl⟩
    · refine .inr ⟨e, failing, rfl, rfl, fun hw => ?_⟩
      rcases hcause with hpos | hlimit
      · exact Nat.lt_irrefl 0 (hw.failingCommits ▸ hpos)
      · rw [hw.commitLimit] at hlimit
        cases hlimit

theorem Books.commit (h : p.Books reserved committed) {r : Except HeapError Unit}
    (hrun : Provider.commit x p = .ok (r, p')) :
    (r = .ok ⟨⟩ ∧ p'.Books reserved (committed + x.size)) ∨
      ∃ e, r = .error e ∧ p'.Books reserved committed := by
  rcases commit_eq_ok hrun with ⟨rfl, rfl⟩ | ⟨e, failing, rfl, hspace, _⟩
  · exact .inl ⟨rfl, h.reserved_eq, congrArg (· + x.size) h.committed_eq, h.overdrawn_eq⟩
  · refine .inr ⟨e, rfl, AddressSpace.Books.of_same h ?_ ?_ ?_⟩
    all_goals rw [hspace]

/-- A provider that refuses nothing takes memory back. -/
theorem decommit_of_zero (hp : p.refusals.decommit = 0) :
    Provider.decommit x p = .ok (.ok ⟨⟩, { p with space := p.space.decommit x }) := by
  have hin : ¬ 0 < p.refusals.get .decommit := Nat.not_lt_of_le (Nat.le_of_eq hp)
  simp only [Provider.decommit, enter, bind_assoc, Effect.get_bind, hin, if_false, Effect.pure_bind]
  exact Effect.modify_apply

theorem release_of_zero (hp : p.refusals.release = 0) :
    Provider.release x p = .ok (.ok ⟨⟩, { p with space := p.space.release x }) := by
  have hin : ¬ 0 < p.refusals.get .release := Nat.not_lt_of_le (Nat.le_of_eq hp)
  simp only [Provider.release, enter, bind_assoc, Effect.get_bind, hin, if_false, Effect.pure_bind]
  exact Effect.modify_apply

end Provider

/-! ## The bytes of a table -/

theorem Segment.committed_rebuild {s s' : Segment} {space : ObjectSpace} {plan : SweepPlan}
    (hrun : s.rebuild space = .ok (plan, s')) : s'.committed = s.committed := by
  simp only [Segment.rebuild, Checked.bind_eq_ok, Checked.pure_eq_ok, Prod.mk.injEq] at hrun
  obtain ⟨_, _, _, hreset, rfl, rfl⟩ := hrun
  obtain ⟨rfl, _⟩ := reset_eq_ok hreset
  rfl

namespace SegmentTable

/-- The bytes of all ranges that a table holds. -/
def heldBytes (t : SegmentTable) : Nat := Word.total (t.holdings.map (·.size))

/-- The bytes that are committed for the segments of a table. -/
def chargedBytes (t : SegmentTable) : Nat := Word.total (t.segments.map (·.committed))

variable {t t' : SegmentTable} {s s' : Segment} {id : Nat} {owner : Generation}

theorem heldBytes_eq : t.heldBytes =
    Word.total (t.segments.map (·.range.size)) + Word.total (t.freeRegions.map (·.size)) := by
  unfold heldBytes holdings
  rw [List.map_append, Word.total_append, List.map_map]
  rfl

theorem heldBytes_popped {x : AddressRange} {pool : List AddressRange}
    (h : t.freeRegions = x :: pool) :
    t.heldBytes = x.size + heldBytes { t with freeRegions := pool } := by
  rw [heldBytes_eq, heldBytes_eq, h, List.map_cons, Word.total_cons]
  exact Nat.add_left_comm ..

theorem heldBytes_append {range : AddressRange} {kind : SegmentKind} :
    (t.append owner range kind).heldBytes = range.size + t.heldBytes :=
  Word.total_perm (holdings_append.map _)

theorem chargedBytes_append {range : AddressRange} {kind : SegmentKind} :
    (t.append owner range kind).chargedBytes = t.chargedBytes := by
  unfold chargedBytes append segments
  rw [List.filterMap_append, List.map_append, Word.total_append]
  exact Nat.add_zero _

theorem heldBytes_forget (owner : Generation) (hs : t.find? id = some s) :
    t.heldBytes = s.range.size + (t.forget id owner).heldBytes :=
  Word.total_perm ((perm_holdings_forget hs).map _)

theorem chargedBytes_forget (owner : Generation) (hs : t.find? id = some s) :
    t.chargedBytes = s.committed + (t.forget id owner).chargedBytes :=
  Word.total_perm ((filterMap_perm_cons_set (find?_eq_some.1 hs)).map Segment.committed)

/-- Replacing a segment changes the charge by what its own charge changes by. -/
theorem chargedBytes_put (hs : t.find? id = some s) (hid : s'.id = id) :
    (t.put s').chargedBytes + s.committed = t.chargedBytes + s'.committed := by
  have hput : (t.put s').find? id = some s' := by
    rw [find?_put (hid ▸ hs), if_pos hid.symm]
  have hrest : (t.put s').forget id s.owner = t.forget id s.owner := by
    unfold forget delist put
    rw [hid, List.set_set]
  have hold := chargedBytes_forget s.owner hs
  have hnew := chargedBytes_forget s.owner hput
  rw [hrest] at hnew
  omega

theorem heldBytes_put (hs : t.find? id = some s) (hid : s'.id = id) (hrange : s'.range = s.range) :
    (t.put s').heldBytes = t.heldBytes := by
  unfold heldBytes
  rw [holdings_put hs hid hrange]

theorem chargedBytes_congr
    (h : t'.slots.map (·.map (·.committed)) = t.slots.map (·.map (·.committed))) :
    t'.chargedBytes = t.chargedBytes := by
  have hcommitted (x : SegmentTable) : x.segments.map (·.committed) =
      (x.slots.map (·.map (·.committed))).filterMap fun y => y := by
    unfold segments
    rw [List.map_filterMap, List.filterMap_map]
    rfl
  unfold chargedBytes
  rw [hcommitted, hcommitted, h]

/-- Owners are not on the books. -/
theorem SameButOwners.bytes_eq (h : SameButOwners t t') :
    t'.heldBytes = t.heldBytes ∧ t'.chargedBytes = t.chargedBytes := by
  constructor
  · unfold heldBytes
    rw [h.holdings]
  · apply chargedBytes_congr
    apply List.ext_getElem?
    intro i
    obtain ⟨g, hi⟩ := h.find? i
    have hlength := h.length_slots
    rw [List.getElem?_map, List.getElem?_map]
    unfold SegmentTable.find? at hi
    by_cases hlt : i < t.slots.length
    · rw [List.getElem?_eq_getElem hlt, List.getElem?_eq_getElem (hlength ▸ hlt)] at hi ⊢
      rw [Option.join_some, Option.join_some] at hi
      rw [Option.map_some, Option.map_some, hi, Option.map_map]
      rfl
    · rw [List.getElem?_eq_none (Nat.le_of_not_lt hlt),
        List.getElem?_eq_none (hlength ▸ Nat.le_of_not_lt hlt)]

/-- A sweep charges nothing and takes nothing off. -/
theorem bytes_rebuild {space : ObjectSpace} (hrun : t.rebuild space = .ok t') :
    t'.heldBytes = t.heldBytes ∧ t'.chargedBytes = t.chargedBytes := by
  constructor
  · unfold heldBytes
    rw [holdings_rebuild hrun]
  · simp only [SegmentTable.rebuild, Checked.bind_eq_ok, Checked.pure_eq_ok] at hrun
    obtain ⟨slots, hslots, rfl⟩ := hrun
    apply chargedBytes_congr
    refine Checked.map_of_mapM hslots fun x y hxy => ?_
    cases x with
    | none =>
      cases hxy
      rfl
    | some s =>
      simp only [Checked.bind_eq_ok, Checked.pure_eq_ok, Prod.exists] at hxy
      obtain ⟨plan, s', hs', rfl⟩ := hxy
      rw [Option.map_some, Option.map_some, Segment.committed_rebuild hs']

theorem WellFormed.popped (h : t.WellFormed) {x : AddressRange} {pool : List AddressRange}
    (hpool : t.freeRegions = x :: pool) :
    WellFormed { t with freeRegions := pool } where
  ids := h.ids
  sound := h.sound
  listed := h.listed
  nodup := h.nodup
  ephemeral_live := h.ephemeral_live
  pooled y hy := h.pooled y (hpool ▸ List.mem_cons_of_mem x hy)

theorem bytes_retag (hids : ∀ {i s}, t.find? i = some s → s.id = i) {r : Except HeapError Unit}
    (hrun : SegmentTable.retag id owner t = .ok (r, t')) :
    t'.heldBytes = t.heldBytes ∧ t'.chargedBytes = t.chargedBytes := by
  cases hs : t.find? id with
  | none =>
    cases retag_of_find?_eq_none hs hrun
    exact ⟨rfl, rfl⟩
  | some s =>
    simp only [SegmentTable.retag, Effect.get_bind, fetch, hs, Transition.ofExcept_bind] at hrun
    by_cases howner : s.owner = owner
    · simp only [howner, if_true, Effect.pure_apply] at hrun
      cases hrun
      exact ⟨rfl, rfl⟩
    · simp only [howner, if_false, Effect.set_apply] at hrun
      cases hrun
      have hid : s.id = id := hids hs
      have hput : (t.put { s with owner }).chargedBytes + s.committed =
          t.chargedBytes + s.committed := chargedBytes_put hs hid
      exact ⟨heldBytes_put hs hid rfl, Nat.add_right_cancel hput⟩

end SegmentTable

end GenHeap
