import GenHeap.Proofs.SegmentTable

/-!
Operations on segments with their provider: new segments lie on ranges of their own, a block at the
allocation pointer is committed, and only segments without objects are given back.
-/

namespace GenHeap

theorem Provider.Serves.append_left {p : Provider} {xs ys rest : List AddressRange}
    (h : p.Serves (xs ++ rest)) (hp : xs.Perm ys) : p.Serves (ys ++ rest) :=
  h.perm (hp.append_right rest)

/-- The address at which a new segment starts is a multiple of this. -/
def SegmentTable.alignment (t : SegmentTable) : Nat :=
  match t.layout with
  | .segments => t.commitGranularity
  | .regions => t.regionSize

namespace SegmentArena

/-- A well-formed table whose ranges, next to the rest, are taken from a provider for `range`. -/
structure Sound (a : SegmentArena) (range : AddressRange) (rest : List AddressRange) : Prop where
  wellFormed : a.table.WellFormed
  serves : a.provider.Serves (a.table.holdings ++ rest)
  range_eq : a.provider.space.range = range

/-- The segments of before, perhaps with other owners, and new ones without free spans. Owners go on
to list what is theirs. -/
structure Extends (t t' : SegmentTable) : Prop where
  keeps : ∀ {i s}, t.find? i = some s → ∃ g, t'.find? i = some { s with owner := g }
  back : ∀ {i s'}, t'.find? i = some s' → (t.slots.length ≤ i ∧ s'.freeSpans = []) ∨
    ∃ s g, t.find? i = some s ∧ s' = { s with owner := g }
  lists : (∀ i, t.Lists i) → ∀ i, t'.Lists i
  length_le : t.slots.length ≤ t'.slots.length

variable {a a' : SegmentArena} {range x : AddressRange} {rest : List AddressRange}
  {s : Segment} {id size : Nat} {space : ObjectSpace} {g : Generation}

theorem Sound.of_sameButOwners (h : a.Sound range rest) {t : SegmentTable} (ht : t.WellFormed)
    (hsame : SegmentTable.SameButOwners a.table t) : Sound { a with table := t } range rest :=
  ⟨ht, hsame.holdings ▸ h.serves, h.range_eq⟩

theorem onProvider_eq_ok {α : Type} {t : Transition Provider α} {r : Except HeapError α} :
    onProvider t a = .ok (r, a') ↔
      ∃ provider, t a.provider = .ok (r, provider) ∧ a' = { a with provider } :=
  Transition.onPart_eq_ok

theorem onTable_eq_ok {α : Type} {t : Transition SegmentTable α} {r : Except HeapError α} :
    onTable t a = .ok (r, a') ↔ ∃ table, t a.table = .ok (r, table) ∧ a' = { a with table } :=
  Transition.onPart_eq_ok

/-! ## New segments -/

/-- A range is the next one of the pool, if one of its size is wanted, or comes from the provider. -/
theorem acquire_eq_ok {r : Except HeapError (AddressRange × SegmentKind × Bool)}
    (hrun : acquire size a = .ok (r, a')) :
    (∃ x pool, a.table.layout = .regions ∧ size = a.table.regionSize ∧
        a.table.freeRegions = x :: pool ∧ r = .ok (x, .region, true) ∧
        a' = { a with table := { a.table with freeRegions := pool } }) ∨
      ∃ kind q provider,
        Provider.reserve size a.table.alignment a.provider = .ok (q, provider) ∧
        a' = { a with provider } ∧ r = q.map (fun x => (x, kind, false)) ∧
        (a.table.layout = .regions → size = a.table.regionSize → a.table.freeRegions = []) := by
  have hfresh {alignment : Nat} {kind : SegmentKind}
      (hrun : (do return (← onProvider (Provider.reserve size alignment), kind, false) :
        Transition SegmentArena (AddressRange × SegmentKind × Bool)) a = .ok (r, a')) :
      ∃ q provider, Provider.reserve size alignment a.provider = .ok (q, provider) ∧
        a' = { a with provider } ∧ r = q.map (fun x => (x, kind, false)) := by
    rw [Effect.bind_eq_ok] at hrun
    rcases hrun with ⟨x, a₁, hx, hrun⟩ | ⟨e, hx, rfl⟩
    · obtain ⟨provider, hreserve, rfl⟩ := onProvider_eq_ok.1 hx
      cases hrun
      exact ⟨_, _, hreserve, rfl, rfl⟩
    · obtain ⟨provider, hreserve, rfl⟩ := onProvider_eq_ok.1 hx
      exact ⟨_, _, hreserve, rfl, rfl⟩
  unfold acquire at hrun
  rw [Effect.get_bind] at hrun
  unfold SegmentTable.alignment
  cases hlayout : a.table.layout with
  | segments =>
    rw [hlayout] at hrun
    obtain ⟨q, provider, hreserve, ha, hr⟩ := hfresh hrun
    exact .inr ⟨_, q, provider, hreserve, ha, hr, nofun⟩
  | regions =>
    simp only [hlayout] at hrun
    by_cases hsize : size = a.table.regionSize
    · rw [if_pos hsize] at hrun
      cases hpool : a.table.freeRegions with
      | nil =>
        simp only [hpool] at hrun
        obtain ⟨q, provider, hreserve, ha, hr⟩ := hfresh hrun
        exact .inr ⟨_, q, provider, hreserve, ha, hr, fun _ _ => rfl⟩
      | cons x pool =>
        simp only [hpool, Effect.modify_bind, Effect.pure_apply] at hrun
        cases hrun
        exact .inl ⟨x, pool, rfl, hsize, rfl, rfl, rfl⟩
    · rw [if_neg hsize] at hrun
      obtain ⟨q, provider, hreserve, ha, hr⟩ := hfresh hrun
      exact .inr ⟨_, q, provider, hreserve, ha, hr, fun _ h => absurd h hsize⟩

/-- A table that has given a range of `size` bytes away, if not one of its pool then a fresh one. -/
structure Acquired (a a' : SegmentArena) (range x : AddressRange) (rest : List AddressRange)
    (size : Nat) : Prop where
  size_eq : x.size = size
  serves : a'.provider.Serves (x :: (a'.table.holdings ++ rest))
  range_eq : a'.provider.space.range = range
  wellFormed : a'.table.WellFormed
  table : ∃ freeRegions, a'.table = { a.table with freeRegions }

/-- The range of a new segment is taken from the provider or from the pool. -/
theorem Sound.acquire (h : a.Sound range rest)
    {r : Except HeapError (AddressRange × SegmentKind × Bool)}
    (hrun : SegmentArena.acquire size a = .ok (r, a')) :
    (∃ x kind reused, r = .ok (x, kind, reused) ∧ Acquired a a' range x rest size) ∨
      ∃ e, r = .error e ∧ a'.Sound range rest ∧ a'.table = a.table := by
  obtain ⟨x, pool, -, hsize, hfree, rfl, rfl⟩ | ⟨kind, q, provider, hreserve, rfl, rfl, -⟩ :=
    acquire_eq_ok hrun
  · have hpooled := h.wellFormed.pooled
    rw [hfree, List.forall_mem_cons] at hpooled
    refine .inl ⟨x, .region, true, rfl, hpooled.1.trans hsize.symm, ?_, h.range_eq,
      ⟨h.wellFormed.ids, h.wellFormed.sound, h.wellFormed.listed, h.wellFormed.nodup,
        h.wellFormed.ephemeral_live, hpooled.2⟩, pool, rfl⟩
    have hperm : a.table.holdings.Perm
        (x :: ({ a.table with freeRegions := pool } : SegmentTable).holdings) := by
      unfold SegmentTable.holdings
      rw [hfree]
      exact List.perm_middle
    exact h.serves.append_left hperm
  · obtain ⟨hrange, ⟨x, rfl, hsize, hserves⟩ | ⟨e, rfl, hserves⟩⟩ := h.serves.reserve hreserve
    · exact .inl ⟨x, kind, false, rfl, hsize, hserves, hrange.trans h.range_eq, h.wellFormed,
        a.table.freeRegions, rfl⟩
    · exact .inr ⟨e, rfl, ⟨h.wellFormed, hserves, hrange.trans h.range_eq⟩, rfl⟩

/-- A segment becomes the ephemeral one, and its predecessor, if there is one, gets another owner. -/
theorem replaceEphemeral_cases {r : Except HeapError Unit}
    (hrun : replaceEphemeral id a = .ok (r, a')) :
    a.table.ephemeral = none ∧ r = .ok ⟨⟩ ∧
        a' = { a with table := { a.table with ephemeral := some id } } ∨
      ∃ previous, a.table.ephemeral = some previous ∧
        onTable (SegmentTable.retag previous .gen2)
          { a with table := { a.table with ephemeral := some id } } = .ok (r, a') := by
  unfold replaceEphemeral at hrun
  rw [Effect.get_bind, Effect.modify_bind] at hrun
  cases hprevious : a.table.ephemeral with
  | none =>
    simp only [hprevious] at hrun
    cases hrun
    exact .inl ⟨rfl, rfl, rfl⟩
  | some previous =>
    simp only [hprevious] at hrun
    exact .inr ⟨previous, rfl, hrun⟩

/-- Making a segment the ephemeral one never fails, and only the previous one changes owner. -/
theorem Sound.replaceEphemeral (h : a.Sound range rest) (hs : a.table.find? id = some s)
    {r : Except HeapError Unit} (hrun : SegmentArena.replaceEphemeral id a = .ok (r, a')) :
    r = .ok ⟨⟩ ∧ a'.Sound range rest ∧
      SegmentTable.SameButOwners { a.table with ephemeral := some id } a'.table ∧
      ∀ j, a.table.ephemeral ≠ some j → a'.table.find? j = a.table.find? j ∧
        ∀ g, j ∈ a'.table.owned.get g → j ∈ a.table.owned.get g := by
  have hnow := h.wellFormed.withEphemeral hs
  obtain ⟨-, rfl, rfl⟩ | ⟨previous, hp, hrun⟩ := replaceEphemeral_cases hrun
  · exact ⟨rfl, ⟨hnow, h.serves, h.range_eq⟩, .refl _, fun _ _ => ⟨rfl, fun _ hj => hj⟩⟩
  · obtain ⟨table, hretag, rfl⟩ := onTable_eq_ok.1 hrun
    obtain ⟨x, hx⟩ := h.wellFormed.ephemeral_live hp
    have hx' : ({ a.table with ephemeral := some id } : SegmentTable).find? previous = some x := hx
    obtain ⟨hr, hwf, hsame, hother⟩ := hnow.retag hx' hretag
    refine ⟨hr, ⟨hwf, ?_, h.range_eq⟩, hsame, ?_⟩
    · show a.provider.Serves (table.holdings ++ rest)
      rw [hsame.holdings]
      exact h.serves
    · intro j hj
      exact hother j fun he => hj (he ▸ hp)

theorem Extends.refl (t : SegmentTable) : Extends t t where
  keeps {_ s} hs := ⟨s.owner, hs⟩
  back {_ s'} hs' := .inr ⟨s', s'.owner, hs', rfl⟩
  lists h := h
  length_le := Nat.le_refl _

theorem Extends.of_sameButOwners {t t' : SegmentTable} (h : SegmentTable.SameButOwners t t') :
    Extends t t' where
  keeps := h.live
  back hs' := .inr (h.back hs')
  lists hall i := h.lists i (hall i)
  length_le := Nat.le_of_eq h.length_slots.symm

/-- A segment that was appended to `t` is put on its owner's list after it has become the ephemeral
one, if it is to: the arena then differs in owners of older segments only. -/
theorem Sound.enlist_appended (h : a.Sound range rest) {t : SegmentTable} (ht : t.WellFormed)
    {owner : Generation} {kind : SegmentKind}
    (hfind : ∀ i, ∃ g, a.table.find? i =
      ((t.append owner x kind).find? i).map ({ · with owner := g }))
    (hlists : ∀ i, (t.append owner x kind).Lists i → a.table.Lists i)
    (hself : a.table.find? t.slots.length = (t.append owner x kind).find? t.slots.length)
    (howned : ∀ g, t.slots.length ∈ a.table.owned.get g → t.slots.length ∈ t.owned.get g)
    (hlength : a.table.slots.length = (t.append owner x kind).slots.length) :
    Sound { a with table := a.table.enlist t.slots.length owner } range rest ∧
      Extends t (a.table.enlist t.slots.length owner) := by
  have hfresh {i : Nat} {s : Segment} (hs : t.find? i = some s) : i ≠ t.slots.length :=
    Nat.ne_of_lt (SegmentTable.find?_lt hs)
  have hlive : a.table.find? t.slots.length =
      some ⟨t.slots.length, kind, x, 0, x.start, owner, []⟩ := by
    rw [hself, SegmentTable.find?_append, if_pos rfl]
  refine ⟨⟨h.wellFormed.enlist hlive rfl fun hmem => ?_, h.serves, h.range_eq⟩,
    fun {i s} hs => ?_, fun {i s'} hs' => ?_, fun hall i s hs => ?_, ?_⟩
  · obtain ⟨s, hs, _⟩ := ht.listed (howned _ hmem)
    exact hfresh hs rfl
  · obtain ⟨g, hg⟩ := hfind i
    refine ⟨g, hg.trans ?_⟩
    rw [SegmentTable.find?_append, if_neg (hfresh hs), hs]
    rfl
  · obtain ⟨g, hg⟩ := hfind i
    rw [SegmentTable.find?_enlist, hg, SegmentTable.find?_append] at hs'
    split at hs'
    next he =>
      cases hs'
      exact .inl ⟨Nat.le_of_eq he.symm, rfl⟩
    · cases hs : t.find? i with
      | none =>
        rw [hs] at hs'
        cases hs'
      | some s =>
        rw [hs] at hs'
        cases hs'
        exact .inr ⟨s, g, rfl, rfl⟩
  · have hs : a.table.find? i = some s := hs
    refine SegmentTable.mem_owned_enlist.2 ?_
    by_cases hi : i = t.slots.length
    · rw [hi, hlive] at hs
      cases hs
      exact .inr ⟨rfl, hi⟩
    · refine .inl (hlists i (fun q hq => ?_) s hs)
      rw [SegmentTable.find?_append, if_neg hi] at hq
      exact hall i q hq
  · show t.slots.length ≤ a.table.slots.length
    rw [hlength, SegmentTable.append, List.length_append]
    exact Nat.le_add_right ..

theorem le_of_nextSize {t : SegmentTable} {minimum : Nat} (h : t.nextSize g minimum = .ok size) :
    minimum ≤ size := by
  unfold SegmentTable.nextSize at h
  split at h
  · exact Nat.le_trans (Nat.le_max_right ..) (Word.le_of_alignUp h)
  · split at h
    · cases h
      assumption
    · exact Word.le_of_alignUp h

/-- A new segment `id` of the table `t'`, empty and with room for at least `minimum` bytes. -/
structure Opens (t t' : SegmentTable) (minimum id : Nat) : Prop where
  fresh : t.find? id = none
  room : ∃ s, t'.find? id = some s ∧ s.allocated = s.start ∧ minimum ≤ s.range.size

/-- How growing goes: a new segment gets a range and becomes the ephemeral one, if its owner allocates
there, before its owner lists it. -/
inductive Grows (g : Generation) (minimum : Nat) (a : SegmentArena) :
    Except HeapError Growth → SegmentArena → Prop where
  | without {size e a'} (hsize : a.table.nextSize (a.table.newOwner g) minimum = .ok size)
      (hacquire : acquire size a = .ok (.error e, a')) : Grows g minimum a (.error e) a'
  | beside {size x kind reused a₁} (hsize : a.table.nextSize (a.table.newOwner g) minimum = .ok size)
      (hacquire : acquire size a = .ok (.ok (x, kind, reused), a₁))
      (hold : a₁.table.usesEphemeral (a.table.newOwner g) = false) :
      Grows g minimum a (.ok ⟨a₁.table.slots.length, reused, false⟩) { a₁ with
        table := (a₁.table.append (a.table.newOwner g) x kind).enlist a₁.table.slots.length
          (a.table.newOwner g) }
  | replacing {size x kind reused a₁ a₂}
      (hsize : a.table.nextSize (a.table.newOwner g) minimum = .ok size)
      (hacquire : acquire size a = .ok (.ok (x, kind, reused), a₁))
      (hyoung : a₁.table.usesEphemeral (a.table.newOwner g) = true)
      (hreplace : replaceEphemeral a₁.table.slots.length
        { a₁ with table := a₁.table.append (a.table.newOwner g) x kind } = .ok (.ok ⟨⟩, a₂)) :
      Grows g minimum a (.ok ⟨a₁.table.slots.length, reused, true⟩) { a₂ with
        table := a₂.table.enlist a₁.table.slots.length (a.table.newOwner g) }
  | stuck {size x kind reused a₁ e a'}
      (hsize : a.table.nextSize (a.table.newOwner g) minimum = .ok size)
      (hacquire : acquire size a = .ok (.ok (x, kind, reused), a₁))
      (hyoung : a₁.table.usesEphemeral (a.table.newOwner g) = true)
      (hreplace : replaceEphemeral a₁.table.slots.length
        { a₁ with table := a₁.table.append (a.table.newOwner g) x kind } = .ok (.error e, a')) :
      Grows g minimum a (.error e) a'

theorem grow_cases {minimum : Nat} {r : Except HeapError Growth}
    (hrun : grow g minimum a = .ok (r, a')) : Grows g minimum a r a' := by
  unfold grow at hrun
  rw [Effect.get_bind] at hrun
  have howner : (if a.table.usesEphemeral g = true then Generation.gen0 else g) =
    a.table.newOwner g := rfl
  simp only [howner, Effect.lift_bind, Checked.bind_eq_ok] at hrun
  obtain ⟨size, hsize, hrun⟩ := hrun
  rw [Effect.bind_eq_ok] at hrun
  rcases hrun with ⟨⟨x, kind, reused⟩, a₁, hacquire, hrun⟩ | ⟨e, hacquire, rfl⟩
  · simp only [Effect.get_bind, Effect.modify_bind] at hrun
    cases huses : a₁.table.usesEphemeral (a.table.newOwner g) with
    | true =>
      simp only [huses, if_true] at hrun
      rw [Effect.bind_eq_ok] at hrun
      rcases hrun with ⟨_, a₂, hreplace, hrun⟩ | ⟨e, hreplace, rfl⟩
      · cases hrun
        exact .replacing hsize hacquire huses hreplace
      · exact .stuck hsize hacquire huses hreplace
    | false =>
      simp only [huses, Bool.false_eq_true, if_false] at hrun
      cases hrun
      exact .beside hsize hacquire huses
  · exact .without hsize hacquire

theorem Acquired.append (h : Acquired a a' range x rest size) (owner : Generation)
    (kind : SegmentKind) :
    Sound { a' with table := a'.table.append owner x kind } range rest where
  wellFormed := h.wellFormed.append owner x kind
  serves := h.serves.append_left SegmentTable.holdings_append.symm
  range_eq := h.range_eq

theorem find?_append_self (t : SegmentTable) (owner : Generation) (x : AddressRange)
    (kind : SegmentKind) : (t.append owner x kind).find? t.slots.length =
      some ⟨t.slots.length, kind, x, 0, x.start, owner, []⟩ := by
  rw [SegmentTable.find?_append, if_pos rfl]

/-- A table that extends the one from which a range was taken, by a segment on this range. -/
theorem Acquired.opens (h : Acquired a a' range x rest size) {minimum : Nat}
    (hsize : minimum ≤ size) {t : SegmentTable} {owner : Generation} {kind : SegmentKind}
    (he : Extends a'.table t)
    (ht : t.find? a'.table.slots.length =
      some ⟨a'.table.slots.length, kind, x, 0, x.start, owner, []⟩) :
    Extends a.table t ∧ Opens a.table t minimum a'.table.slots.length := by
  obtain ⟨pool, htable⟩ := h.table
  rw [htable] at he ht ⊢
  refine ⟨⟨he.keeps, he.back, he.lists, he.length_le⟩, ?_, _, ht, rfl, h.size_eq ▸ hsize⟩
  cases hs : a.table.find? a.table.slots.length with
  | none => rfl
  | some s => exact absurd (SegmentTable.find?_lt hs) (Nat.lt_irrefl _)

/-- Every new segment lies on a range of its own and holds nothing. Without a range nothing changes. -/
theorem Sound.grow (h : a.Sound range rest) {minimum : Nat} {r : Except HeapError Growth}
    (hrun : SegmentArena.grow g minimum a = .ok (r, a')) :
    a'.Sound range rest ∧ Extends a.table a'.table ∧
      ((∃ growth, r = .ok growth ∧ Opens a.table a'.table minimum growth.segment) ∨
        ∃ e, r = .error e ∧ a'.table = a.table) := by
  have hacquired {size : Nat} {x : AddressRange} {kind : SegmentKind} {reused : Bool}
      {a₁ : SegmentArena} (hacquire : SegmentArena.acquire size a = .ok (.ok (x, kind, reused), a₁)) :
      Acquired a a₁ range x rest size := by
    rcases h.acquire hacquire with ⟨_, _, _, he, hx⟩ | ⟨_, he, _⟩
    · cases he
      exact hx
    · cases he
  cases grow_cases hrun with
  | without _ hacquire =>
    rcases h.acquire hacquire with ⟨_, _, _, he, _⟩ | ⟨_, he, hsound, htable⟩
    · cases he
    · exact ⟨hsound, htable ▸ .refl a.table, .inr ⟨_, rfl, htable⟩⟩
  | beside hsize hacquire =>
    have hx := hacquired hacquire
    obtain ⟨hdone, he⟩ := (hx.append _ _).enlist_appended hx.wellFormed
      (SegmentTable.SameButOwners.refl _).find? (fun _ h => h) rfl (fun _ hj => hj) rfl
    obtain ⟨hext, hopen⟩ := hx.opens (le_of_nextSize hsize) he (find?_append_self ..)
    exact ⟨hdone, hext, .inl ⟨_, rfl, hopen⟩⟩
  | replacing hsize hacquire _ hreplace =>
    have hx := hacquired hacquire
    obtain ⟨_, hsound, howners, hother⟩ :=
      (hx.append _ _).replaceEphemeral (find?_append_self ..) hreplace
    obtain ⟨hsame, howned⟩ := hother _ fun he => by
      obtain ⟨s, hs⟩ := hx.wellFormed.ephemeral_live he
      exact absurd (SegmentTable.find?_lt hs) (Nat.lt_irrefl _)
    obtain ⟨hdone, he⟩ := hsound.enlist_appended hx.wellFormed howners.find? howners.lists hsame
      howned howners.length_slots
    obtain ⟨hext, hopen⟩ :=
      hx.opens (le_of_nextSize hsize) he (hsame.trans (find?_append_self ..))
    exact ⟨hdone, hext, .inl ⟨_, rfl, hopen⟩⟩
  | stuck _ hacquire _ hreplace =>
    have hx := hacquired hacquire
    cases ((hx.append _ _).replaceEphemeral (find?_append_self ..) hreplace).1

/-! ## Blocks -/

/-- What a segment needs is committed by one call, if anything is missing: whole steps, but no more
than the segment has. -/
theorem commitUpTo_cases {stop : Nat} {r : Except HeapError Nat}
    (hrun : commitUpTo s stop a = .ok (r, a')) :
    (r = .ok s.committed ∧ a' = a ∧ stop ≤ s.start + s.committed) ∨
      ∃ x q provider, Provider.commit x a.provider = .ok (q, provider) ∧ a' = { a with provider } ∧
        r = q.map (fun _ => s.committed + x.size) ∧ ∃ top, stop ≤ top ∧
          s.start + (s.committed + x.size) = min top (s.range.start + s.range.size) := by
  simp only [commitUpTo, Segment.committedEnd, Effect.lift_bind, Checked.bind_eq_ok,
    Word.add_eq_ok_iff] at hrun
  obtain ⟨_, ⟨_, rfl⟩, hrun⟩ := hrun
  split at hrun
  next hle =>
    rw [Effect.pure_apply] at hrun
    cases hrun
    exact .inl ⟨rfl, rfl, hle⟩
  · simp only [Effect.get_bind, Segment.reservedEnd, AddressRange.stop, Effect.lift_bind,
      Checked.bind_eq_ok, Word.add_eq_ok_iff, Word.sub_eq_ok_iff] at hrun
    obtain ⟨top, htop, _, ⟨_, rfl⟩, grown, ⟨hle, rfl⟩, hrun⟩ := hrun
    have hgrown := (Nat.add_assoc ..).symm.trans (Nat.add_sub_of_le hle)
    rw [Effect.bind_eq_ok] at hrun
    rcases hrun with ⟨_, a₁, hcommit, hrun⟩ | ⟨e, hcommit, rfl⟩
    · obtain ⟨provider, hprovider, rfl⟩ := onProvider_eq_ok.1 hcommit
      cases hrun
      exact .inr ⟨_, _, provider, hprovider, rfl, rfl, top, Word.le_of_alignUp htop, hgrown⟩
    · obtain ⟨provider, hprovider, rfl⟩ := onProvider_eq_ok.1 hcommit
      exact .inr ⟨_, _, provider, hprovider, rfl, rfl, top, Word.le_of_alignUp htop, hgrown⟩

/-- A block at the allocation pointer fits as soon as its bytes are committed. -/
theorem bump_cases {r : Except HeapError (Option Nat)} (hrun : bump id size a = .ok (r, a')) :
    (r = .error (.invalidSegment id) ∧ a' = a ∧ a.table.find? id = none) ∨
      ∃ s, a.table.find? id = some s ∧
        ((r = .ok none ∧ a' = a ∧ s.range.start + s.range.size < s.allocated + size) ∨
        s.allocated + size ≤ s.range.start + s.range.size ∧
        ∃ q a₁, commitUpTo s (s.allocated + size) a = .ok (q, a₁) ∧ match q with
          | .error e => r = .error e ∧ a' = a₁
          | .ok committed => r = .ok (some s.allocated) ∧ a' = { a₁ with
              table := a₁.table.put { s with committed, allocated := s.allocated + size } }) := by
  unfold bump at hrun
  rw [Effect.get_bind] at hrun
  cases hs : a.table.find? id with
  | none =>
    simp only [SegmentTable.fetch, hs, Transition.ofExcept_bind] at hrun
    cases hrun
    exact .inl ⟨rfl, rfl, rfl⟩
  | some s =>
    refine .inr ⟨s, rfl, ?_⟩
    simp only [SegmentTable.fetch, hs, Transition.ofExcept_bind, Segment.reservedEnd,
      AddressRange.stop, Effect.lift_bind, Checked.bind_eq_ok, Word.add_eq_ok_iff] at hrun
    obtain ⟨_, ⟨_, rfl⟩, _, ⟨_, rfl⟩, hrun⟩ := hrun
    split at hrun
    next hfull =>
      rw [Effect.pure_apply] at hrun
      cases hrun
      exact .inl ⟨rfl, rfl, hfull⟩
    next hroom =>
      refine .inr ⟨Nat.le_of_not_lt hroom, ?_⟩
      rw [Effect.bind_eq_ok] at hrun
      rcases hrun with ⟨committed, a₁, hcommit, hrun⟩ | ⟨e, hcommit, rfl⟩
      · rw [Effect.modify_bind, Effect.pure_apply] at hrun
        cases hrun
        exact ⟨_, a₁, hcommit, rfl, rfl⟩
      · exact ⟨_, a', hcommit, rfl, rfl⟩

theorem commitUpTo_eq_ok (h : a.Sound range rest) (hs : s.Sound) {stop : Nat}
    (hstop : stop ≤ s.range.start + s.range.size) {r : Except HeapError Nat}
    (hrun : commitUpTo s stop a = .ok (r, a')) : a'.Sound range rest ∧ a'.table = a.table ∧
      ∀ committed, r = .ok committed → stop ≤ s.start + committed ∧ committed ≤ s.range.size := by
  have hcommitted := hs.committed_le
  obtain ⟨rfl, rfl, hle⟩ | ⟨x, q, provider, hprovider, rfl, rfl, top, htop, hgrown⟩ :=
    commitUpTo_cases hrun
  · refine ⟨h, rfl, ?_⟩
    rintro _ ⟨rfl⟩
    exact ⟨hle, hcommitted⟩
  · obtain ⟨hrange, hserves⟩ := h.serves.commit hprovider
    refine ⟨⟨h.wellFormed, hserves, hrange.trans h.range_eq⟩, rfl, fun committed hc => ?_⟩
    cases q with
    | error e => cases hc
    | ok =>
      obtain rfl : s.committed + x.size = committed := Except.ok.inj hc
      unfold Segment.start at *
      omega

/-- A block at the allocation pointer moves the pointer behind it; without one nothing moves. -/
theorem Sound.bump (h : a.Sound range rest) {r : Except HeapError (Option Nat)}
    (hrun : SegmentArena.bump id size a = .ok (r, a')) : a'.Sound range rest ∧
      ((∃ s committed, a.table.find? id = some s ∧ r = .ok (some s.allocated) ∧
          a'.table = a.table.put { s with committed, allocated := s.allocated + size }) ∨
        (r = .ok none ∧ a'.table = a.table ∧ ∃ s, a.table.find? id = some s ∧
          s.range.start + s.range.size < s.allocated + size) ∨
        ∃ e, r = .error e ∧ a'.table = a.table) := by
  obtain ⟨rfl, rfl, -⟩ | ⟨s, hs, ⟨rfl, rfl, hfull⟩ | ⟨hfits, q, a₁, hcommit, hq⟩⟩ := bump_cases hrun
  · exact ⟨h, .inr (.inr ⟨_, rfl, rfl⟩)⟩
  · exact ⟨h, .inr (.inl ⟨rfl, rfl, s, hs, hfull⟩)⟩
  · have hsound := h.wellFormed.sound hs
    obtain ⟨h₁, htable, hroom⟩ := commitUpTo_eq_ok h hsound hfits hcommit
    cases q with
    | error e =>
      obtain ⟨rfl, rfl⟩ := hq
      exact ⟨h₁, .inr (.inr ⟨e, rfl, htable⟩)⟩
    | ok committed =>
      obtain ⟨rfl, rfl⟩ := hq
      obtain ⟨hstop, hle⟩ := hroom committed rfl
      rw [htable]
      have hid : s.id = id := h.wellFormed.ids hs
      have hhold : (a.table.put { s with committed, allocated := s.allocated + size }).holdings =
          a.table.holdings := SegmentTable.holdings_put hs hid rfl
      refine ⟨⟨?_, ?_, h₁.range_eq⟩, .inl ⟨s, committed, hs, rfl, rfl⟩⟩
      · exact h.wellFormed.put hs hid rfl
          ⟨hstop, hle, hsound.chain.mono (Nat.le_refl _) (Nat.le_add_right _ _)⟩
      · show a₁.provider.Serves ((a.table.put _).holdings ++ rest)
        rw [hhold, ← htable]
        exact h₁.serves

/-! ## Empty segments -/

theorem holdsObject_eq_ok {holds : Bool} (hrun : holdsObject s space = .ok holds) :
    holds = true ↔ s.Occupied space := by
  simp only [holdsObject, Segment.reservedEnd, AddressRange.stop, Checked.bind_eq_ok,
    Checked.pure_eq_ok, Word.add_eq_ok_iff] at hrun
  obtain ⟨_, ⟨_, rfl⟩, objects, hobjects, rfl⟩ := hrun
  rw [Bool.not_eq_true', List.isEmpty_eq_false_iff_exists_mem]
  constructor
  · rintro ⟨⟨a, r⟩, hm⟩
    exact ⟨a, r, (ObjectSpace.mem_startingIn hobjects).1 hm⟩
  · rintro ⟨a, r, hin⟩
    exact ⟨(a, r), (ObjectSpace.mem_startingIn hobjects).2 hin⟩

theorem decommitPart_cases {r : Except HeapError Unit} (hrun : decommitPart s a = .ok (r, a')) :
    s.committed = 0 ∧ r = .ok ⟨⟩ ∧ a' = a ∨ ∃ provider,
      Provider.decommit ⟨s.start, s.committed⟩ a.provider = .ok (r, provider) ∧
        a' = { a with provider } := by
  unfold decommitPart at hrun
  split at hrun
  · exact .inr (onProvider_eq_ok.1 hrun)
  next hzero =>
    cases hrun
    exact .inl ⟨Nat.eq_zero_of_not_pos hzero, rfl, rfl⟩

theorem returnRange_cases {r : Except HeapError Unit} (hrun : returnRange s a = .ok (r, a')) :
    (s.kind = .region ∧ s.range.size = a.table.regionSize) ∧ r = .ok ⟨⟩ ∧
        a' = { a with table := { a.table with freeRegions := s.range :: a.table.freeRegions } } ∨
      ¬(s.kind = .region ∧ s.range.size = a.table.regionSize) ∧ ∃ provider,
        Provider.release s.range a.provider = .ok (r, provider) ∧ a' = { a with provider } := by
  unfold returnRange at hrun
  rw [Effect.get_bind] at hrun
  split at hrun
  next hpooled =>
    cases hrun
    exact .inl ⟨hpooled, rfl, rfl⟩
  next hreleased => exact .inr ⟨hreleased, onProvider_eq_ok.1 hrun⟩

/-- How giving a live segment back ends: it is kept, the provider fails to take its committed part
or its range, or it is gone. -/
inductive Decommits (id : Nat) (space : ObjectSpace) (s : Segment) (a : SegmentArena) :
    Except HeapError Bool → SegmentArena → Prop where
  | kept (hused : a.table.ephemeral = some id ∨ holdsObject s space = .ok true) :
      Decommits id space s a (.ok false) a
  | charged {e a'} (heph : a.table.ephemeral ≠ some id) (hempty : holdsObject s space = .ok false)
      (hpart : decommitPart s a = .ok (.error e, a')) : Decommits id space s a (.error e) a'
  | reserved {e a₁ a'} (heph : a.table.ephemeral ≠ some id)
      (hempty : holdsObject s space = .ok false) (hpart : decommitPart s a = .ok (.ok ⟨⟩, a₁))
      (hreturn : returnRange s a₁ = .ok (.error e, a')) : Decommits id space s a (.error e) a'
  | gone {a₁ a₂} (heph : a.table.ephemeral ≠ some id) (hempty : holdsObject s space = .ok false)
      (hpart : decommitPart s a = .ok (.ok ⟨⟩, a₁))
      (hreturn : returnRange s a₁ = .ok (.ok ⟨⟩, a₂)) :
      Decommits id space s a (.ok true) { a₂ with table := a₂.table.forget id s.owner }

theorem decommitIfEmpty_cases (hs : a.table.find? id = some s) {r : Except HeapError Bool}
    (hrun : decommitIfEmpty id space a = .ok (r, a')) : Decommits id space s a r a' := by
  unfold decommitIfEmpty at hrun
  rw [Effect.get_bind] at hrun
  split at hrun
  next heph =>
    cases hrun
    exact .kept (.inl heph)
  next heph =>
    simp only [SegmentTable.fetch, hs, Transition.ofExcept_bind, Effect.lift_bind,
      Checked.bind_eq_ok] at hrun
    obtain ⟨holds, hholds, hrun⟩ := hrun
    cases holds with
    | true =>
      cases hrun
      exact .kept (.inr hholds)
    | false =>
      simp only [Bool.false_eq_true, if_false] at hrun
      rw [Effect.bind_eq_ok] at hrun
      rcases hrun with ⟨_, a₁, hpart, hrun⟩ | ⟨e, hpart, rfl⟩
      · rw [Effect.bind_eq_ok] at hrun
        rcases hrun with ⟨_, a₂, hreturn, hrun⟩ | ⟨e, hreturn, rfl⟩
        · cases hrun
          exact .gone heph hholds hpart hreturn
        · exact .reserved heph hholds hpart hreturn
      · exact .charged heph hholds hpart

/-- A table without a segment that `owner` listed and that was not the ephemeral one. -/
structure Vacates (t t' : SegmentTable) (id : Nat) (owner : Generation) : Prop where
  find? : ∀ i, t'.find? i = if i = id then none else t.find? i
  owned : t'.owned = (t.delist id owner).owned
  length_slots : t'.slots.length = t.slots.length
  layout : t'.layout = t.layout
  ephemeral : t'.ephemeral = t.ephemeral
  spared : t.ephemeral ≠ some id

theorem vacates_forget (t : SegmentTable) (pool : List AddressRange) (owner : Generation)
    (heph : t.ephemeral ≠ some id) :
    Vacates t (SegmentTable.forget { t with freeRegions := pool } id owner) id owner where
  find? _ := SegmentTable.find?_forget
  owned := rfl
  length_slots := List.length_set ..
  layout := rfl
  ephemeral := rfl
  spared := heph

theorem decommitPart_eq_ok {taken : List AddressRange} {r : Except HeapError PUnit}
    (hrun : SegmentArena.decommitPart s a = .ok (r, a')) (h : a.provider.Serves taken) :
    r = .ok ⟨⟩ ∧ a'.provider.Serves taken ∧
      a'.provider.space.range = a.provider.space.range ∧ a'.table = a.table := by
  obtain ⟨-, hr, rfl⟩ | ⟨provider, hdecommit, rfl⟩ := decommitPart_cases hrun
  · exact ⟨hr, h, rfl, rfl⟩
  · obtain ⟨hr, hrange, hserves⟩ := h.decommit hdecommit
    exact ⟨hr, hserves, hrange, rfl⟩

theorem Sound.decommitPart (h : a.Sound range rest) {r : Except HeapError PUnit}
    (hrun : SegmentArena.decommitPart s a = .ok (r, a')) :
    r = .ok ⟨⟩ ∧ a'.Sound range rest ∧ a'.table = a.table := by
  obtain ⟨hr, hserves, hrange, htable⟩ := decommitPart_eq_ok hrun h.serves
  exact ⟨hr, ⟨htable ▸ h.wellFormed, htable ▸ hserves, hrange.trans h.range_eq⟩, htable⟩

/-- The range of a segment that is forgotten next goes to the pool or back to the provider. -/
theorem Sound.returnRange (h : a.Sound range rest) (hs : a.table.find? id = some s)
    (heph : a.table.ephemeral ≠ some id) {r : Except HeapError PUnit}
    (hrun : SegmentArena.returnRange s a = .ok (r, a')) : r = .ok ⟨⟩ ∧
      Sound { a' with table := a'.table.forget id s.owner } range rest ∧
      ∃ freeRegions, a'.table = { a.table with freeRegions } := by
  have hwf := h.wellFormed.forget hs heph
  have hperm : a.table.holdings.Perm (s.range :: (a.table.forget id s.owner).holdings) :=
    SegmentTable.perm_holdings_forget hs
  obtain ⟨hsize, rfl, rfl⟩ | ⟨-, provider, hrelease, rfl⟩ := returnRange_cases hrun
  · refine ⟨rfl, ⟨⟨hwf.ids, hwf.sound, hwf.listed, hwf.nodup, hwf.ephemeral_live, ?_⟩, ?_,
      h.range_eq⟩, _, rfl⟩
    · exact List.forall_mem_cons.2 ⟨hsize.2, hwf.pooled⟩
    · exact h.serves.append_left (hperm.trans List.perm_middle.symm)
  · obtain ⟨hr, hrange, hserves⟩ := (h.serves.append_left hperm).release hrelease
    exact ⟨hr, ⟨hwf, hserves, hrange.trans h.range_eq⟩, _, rfl⟩

/-- A live segment is given back, if it is not the ephemeral one and holds no object. -/
theorem Sound.decommitIfEmpty (h : a.Sound range rest) (hs : a.table.find? id = some s)
    {r : Except HeapError Bool}
    (hrun : SegmentArena.decommitIfEmpty id space a = .ok (r, a')) : (∃ b, r = .ok b) ∧
      a'.Sound range rest ∧
      (a'.table = a.table ∧ (a.table.ephemeral = some id ∨ s.Occupied space) ∨
        ¬ s.Occupied space ∧ Vacates a.table a'.table id s.owner) := by
  cases decommitIfEmpty_cases hs hrun with
  | kept hused =>
    exact ⟨⟨_, rfl⟩, h, .inl ⟨rfl, hused.imp_right fun hholds => (holdsObject_eq_ok hholds).1 rfl⟩⟩
  | charged _ _ hpart => cases (h.decommitPart hpart).1
  | reserved heph _ hpart hreturn =>
    obtain ⟨_, h₁, htable⟩ := h.decommitPart hpart
    cases (h₁.returnRange (htable ▸ hs) (htable ▸ heph) hreturn).1
  | @gone a₁ a₂ heph hempty hpart hreturn =>
    obtain ⟨_, h₁, htable⟩ := h.decommitPart hpart
    obtain ⟨_, h₂, pool, htable₂⟩ := h₁.returnRange (htable ▸ hs) (htable ▸ heph) hreturn
    rw [htable] at htable₂
    refine ⟨⟨_, rfl⟩, h₂, .inr ⟨fun hin => ?_, ?_⟩⟩
    · exact Bool.false_ne_true ((holdsObject_eq_ok hempty).2 hin)
    · show Vacates a.table (a₂.table.forget id s.owner) id s.owner
      rw [htable₂]
      exact vacates_forget a.table pool s.owner heph

theorem decommitIfEmpty_of_find?_eq_none (hs : a.table.find? id = none)
    {r : Except HeapError Bool}
    (hrun : SegmentArena.decommitIfEmpty id space a = .ok (r, a')) : a' = a := by
  unfold SegmentArena.decommitIfEmpty at hrun
  rw [Effect.get_bind] at hrun
  by_cases heph : a.table.ephemeral = some id
  · rw [if_pos heph, Effect.pure_apply] at hrun
    cases hrun
    rfl
  · simp only [heph, if_false, SegmentTable.fetch, hs, Transition.ofExcept_bind] at hrun
    cases hrun
    rfl

/-! ## Giving all back -/

/-- An arena some of whose segments are released: those left and the pool are what it still holds. -/
structure Releasing (a : SegmentArena) (range : AddressRange) (rest : List AddressRange)
    (left : List Segment) : Prop where
  left : a.table.segments.Perm left
  ids : ∀ {i s}, a.table.find? i = some s → s.id = i
  serves : a.provider.Serves (a.table.holdings ++ rest)
  range_eq : a.provider.space.range = range

theorem Releasing.segment {left : List Segment} (h : a.Releasing range rest (s :: left))
    {r : Except HeapError PUnit} (hrun : releaseSegment s a = .ok (r, a')) :
    r = .ok ⟨⟩ ∧ a'.Releasing range rest left ∧
      a'.table.slots.length = a.table.slots.length := by
  obtain ⟨i, hs⟩ := SegmentTable.mem_segments.1 (h.left.mem_iff.2 List.mem_cons_self)
  cases h.ids hs
  have hperm : a.table.holdings.Perm (s.range :: (a.table.forget s.id s.owner).holdings) :=
    SegmentTable.perm_holdings_forget hs
  unfold releaseSegment at hrun
  rw [Effect.modify_bind, Effect.bind_eq_ok] at hrun
  rcases hrun with ⟨_, a₁, hpart, hrun⟩ | ⟨e, hpart, rfl⟩
  · obtain ⟨_, hserves, hrange, htable⟩ := decommitPart_eq_ok hpart (h.serves.append_left hperm)
    obtain ⟨provider, hrelease, rfl⟩ := onProvider_eq_ok.1 hrun
    obtain ⟨hr, hrange', hserves'⟩ := hserves.release hrelease
    refine ⟨hr, ⟨?_, ?_, ?_, hrange'.trans (hrange.trans h.range_eq)⟩, ?_⟩
    · show a₁.table.segments.Perm left
      rw [htable]
      have hset := SegmentTable.filterMap_perm_cons_set (SegmentTable.find?_eq_some.1 hs)
      exact (hset.symm.trans h.left).cons_inv
    · intro j q hq
      have hq : a₁.table.find? j = some q := hq
      rw [htable] at hq
      have hq : (a.table.forget s.id s.owner).find? j = some q := hq
      rw [SegmentTable.find?_forget] at hq
      split at hq
      · cases hq
      · exact h.ids hq
    · show provider.Serves (a₁.table.holdings ++ rest)
      rw [htable]
      exact hserves'
    · show a₁.table.slots.length = a.table.slots.length
      rw [htable]
      exact List.length_set ..
  · exact absurd (decommitPart_eq_ok hpart (h.serves.append_left hperm)).1 nofun

theorem Releasing.segments {left : List Segment} (h : a.Releasing range rest left)
    {r : Except HeapError PUnit} (hrun : left.forM releaseSegment a = .ok (r, a')) :
    r = .ok ⟨⟩ ∧ a'.Releasing range rest [] ∧ a'.table.slots.length = a.table.slots.length := by
  induction left generalizing a with
  | nil =>
    cases hrun
    exact ⟨rfl, h, rfl⟩
  | cons s left ih =>
    change (releaseSegment s >>= fun _ => left.forM releaseSegment) a = _ at hrun
    rw [Effect.bind_eq_ok] at hrun
    rcases hrun with ⟨_, a₁, hfirst, hrun⟩ | ⟨e, hfirst, rfl⟩
    · obtain ⟨_, h₁, hlength⟩ := h.segment hfirst
      obtain ⟨hr, hdone, hlength'⟩ := ih h₁ hrun
      exact ⟨hr, hdone, hlength'.trans hlength⟩
    · exact absurd (h.segment hfirst).1 nofun

theorem releaseRanges {pool : List AddressRange} {r : Except HeapError PUnit}
    (hrun : pool.forM (fun x => onProvider (Provider.release x)) a = .ok (r, a'))
    (h : a.provider.Serves (pool ++ rest)) :
    r = .ok ⟨⟩ ∧ a'.provider.Serves rest ∧
      a'.provider.space.range = a.provider.space.range ∧ a'.table = a.table := by
  induction pool generalizing a with
  | nil =>
    cases hrun
    exact ⟨rfl, h, rfl, rfl⟩
  | cons x pool ih =>
    change (onProvider (Provider.release x) >>= fun _ => pool.forM _) a = _ at hrun
    rw [Effect.bind_eq_ok] at hrun
    rcases hrun with ⟨_, a₁, hfirst, hrun⟩ | ⟨e, hfirst, rfl⟩
    · obtain ⟨provider, hrelease, rfl⟩ := onProvider_eq_ok.1 hfirst
      obtain ⟨_, hrange, hserves⟩ := h.release hrelease
      obtain ⟨hr, hdone, hrange', htable⟩ := ih hrun hserves
      exact ⟨hr, hdone, hrange'.trans hrange, htable⟩
    · obtain ⟨provider, hrelease, rfl⟩ := onProvider_eq_ok.1 hfirst
      exact absurd (h.release hrelease).1 nofun

/-- Giving all back never fails, and nothing is held then. -/
theorem Sound.releaseAll (h : a.Sound range rest) {r : Except HeapError PUnit}
    (hrun : SegmentArena.releaseAll a = .ok (r, a')) :
    r = .ok ⟨⟩ ∧ a'.Sound range rest ∧ (∀ i, a'.table.find? i = none) ∧
      a'.table.slots.length = a.table.slots.length := by
  have hstart : a.Releasing range rest a.table.segments :=
    ⟨.refl _, h.wellFormed.ids, h.serves, h.range_eq⟩
  unfold SegmentArena.releaseAll at hrun
  rw [Effect.get_bind, Effect.bind_eq_ok] at hrun
  rcases hrun with ⟨_, a₁, hsegments, hrun⟩ | ⟨e, hsegments, rfl⟩
  · obtain ⟨_, h₁, hlength⟩ := hstart.segments hsegments
    have hnone : a₁.table.segments = [] := h₁.left.eq_nil
    have hserves : a₁.provider.Serves (a₁.table.freeRegions.reverse ++ rest) := by
      have hheld := h₁.serves
      rw [SegmentTable.holdings, hnone] at hheld
      exact hheld.append_left (List.reverse_perm _).symm
    simp only [Effect.get_bind, Effect.modify_bind] at hrun
    rw [Effect.bind_eq_ok] at hrun
    rcases hrun with ⟨_, a₂, hpool, hrun⟩ | ⟨e, hpool, rfl⟩
    · obtain ⟨_, hserves₂, hrange, htable⟩ := releaseRanges hpool hserves
      rw [Effect.modify_apply] at hrun
      cases hrun
      rw [htable]
      have hfind (i : Nat) : a₁.table.find? i = none := by
        cases hs : a₁.table.find? i with
        | none => rfl
        | some s =>
          have hmem := SegmentTable.mem_segments.2 ⟨i, hs⟩
          rw [hnone] at hmem
          cases hmem
      have howned (g : Generation) :
          (PerGeneration.const [] : PerGeneration (List Nat)).get g = [] := by
        cases g <;> rfl
      refine ⟨rfl, ⟨⟨?_, ?_, ?_, ?_, nofun, fun _ hr => absurd hr List.not_mem_nil⟩, ?_,
        hrange.trans h₁.range_eq⟩, hfind, hlength⟩
      · intro i s hs
        exact absurd ((hfind i).symm.trans hs) nofun
      · intro i s hs
        exact absurd ((hfind i).symm.trans hs) nofun
      · intro g i hi
        have hi : i ∈ (PerGeneration.const [] : PerGeneration (List Nat)).get g := hi
        rw [howned] at hi
        cases hi
      · intro g
        show ((PerGeneration.const [] : PerGeneration (List Nat)).get g).Nodup
        rw [howned]
        exact .nil
      · show a₂.provider.Serves (a₁.table.segments.map (·.range) ++ [] ++ rest)
        rw [hnone]
        exact hserves₂
    · exact absurd (releaseRanges hpool hserves).1 nofun
  · exact absurd (hstart.segments hsegments).1 nofun

end SegmentArena

end GenHeap
