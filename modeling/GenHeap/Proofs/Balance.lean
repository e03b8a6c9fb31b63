import GenHeap.Proofs.Books
import GenHeap.Proofs.SharedArena

/-!
Heaps that balance the books of their provider: the reserved bytes are those of the ranges that they
hold, the committed bytes are those of their segments, and nothing was ever overdrawn. All of it can
be given back at any time.
-/

namespace GenHeap

namespace SegmentArena

/-- The books of the provider show what the table holds, and so many other bytes. -/
def Balanced (a : SegmentArena) (reserved committed : Nat) : Prop :=
  a.provider.Books (a.table.heldBytes + reserved) (a.table.chargedBytes + committed)

variable {a a' : SegmentArena} {reserved committed id size minimum : Nat} {g : Generation}
  {s : Segment} {space : ObjectSpace} {range : AddressRange} {rest : List AddressRange}

/-- A range that was given away is still on the books. -/
theorem Balanced.acquire (h : a.Balanced reserved committed) (hwf : a.table.WellFormed)
    {r : Except HeapError (AddressRange × SegmentKind × Bool)}
    (hrun : SegmentArena.acquire size a = .ok (r, a')) :
    (∃ x kind reused, r = .ok (x, kind, reused) ∧ a'.table.WellFormed ∧
        a'.Balanced (x.size + reserved) committed) ∨
      ∃ e, r = .error e ∧ a'.Balanced reserved committed := by
  rcases acquire_eq_ok hrun with ⟨x, pool, _, _, hpool, rfl, rfl⟩ |
    ⟨kind, q, provider, hreserve, rfl, rfl, _⟩
  · refine .inl ⟨x, _, _, rfl, hwf.popped hpool, Provider.Books.congr h ?_ rfl⟩
    rw [SegmentTable.heldBytes_popped hpool, Nat.add_assoc, Nat.add_left_comm]
  · rcases Provider.Books.reserve h hreserve with ⟨x, rfl, rfl, hbooks⟩ | ⟨e, rfl, hbooks⟩
    · exact .inl ⟨x, _, _, rfl, hwf, hbooks.congr (by simp only; omega) rfl⟩
    · exact .inr ⟨e, rfl, hbooks⟩

theorem Balanced.retag (h : a.Balanced reserved committed)
    (hids : ∀ {i s}, a.table.find? i = some s → s.id = i) {owner : Generation}
    {r : Except HeapError Unit}
    (hrun : onTable (SegmentTable.retag id owner) a = .ok (r, a')) :
    a'.Balanced reserved committed := by
  obtain ⟨table, hretag, rfl⟩ := onTable_eq_ok.1 hrun
  obtain ⟨hheld, hcharged⟩ := SegmentTable.bytes_retag hids hretag
  unfold Balanced
  rwa [hheld, hcharged]

theorem Balanced.replaceEphemeral (h : a.Balanced reserved committed)
    (hids : ∀ {i s}, a.table.find? i = some s → s.id = i) {r : Except HeapError Unit}
    (hrun : SegmentArena.replaceEphemeral id a = .ok (r, a')) :
    a'.Balanced reserved committed := by
  have hnow : Balanced { a with table := { a.table with ephemeral := some id } } reserved
      committed := h
  obtain ⟨-, -, rfl⟩ | ⟨previous, -, hrun⟩ := replaceEphemeral_cases hrun
  · exact hnow
  · exact hnow.retag hids hrun

/-- A new segment has its range on the books, and no charge yet. -/
theorem Balanced.grow (h : a.Balanced reserved committed) (hwf : a.table.WellFormed)
    {r : Except HeapError Growth} (hrun : SegmentArena.grow g minimum a = .ok (r, a')) :
    a'.Balanced reserved committed := by
  have happend {size : Nat} {x : AddressRange} {kind : SegmentKind} {reused : Bool}
      {a₁ : SegmentArena} (hacquire : SegmentArena.acquire size a = .ok (.ok (x, kind, reused), a₁)) :
      Balanced { a₁ with table := a₁.table.append (a.table.newOwner g) x kind } reserved committed ∧
        (a₁.table.append (a.table.newOwner g) x kind).WellFormed := by
    rcases h.acquire hwf hacquire with ⟨_, _, _, he, hwf₁, h₁⟩ | ⟨_, he, _⟩
    · cases he
      refine ⟨Provider.Books.congr h₁ ?_ ?_, hwf₁.append ..⟩
      · rw [SegmentTable.heldBytes_append]
        omega
      · rw [SegmentTable.chargedBytes_append]
    · cases he
  cases grow_cases hrun with
  | without _ hacquire =>
    rcases h.acquire hwf hacquire with ⟨_, _, _, he, _⟩ | ⟨_, _, h₁⟩
    · cases he
    · exact h₁
  | beside _ hacquire =>
    have h₁ := (happend hacquire).1
    exact h₁
  | replacing _ hacquire _ hreplace =>
    obtain ⟨h₁, hwf₁⟩ := happend hacquire
    have h₂ := h₁.replaceEphemeral hwf₁.ids hreplace
    exact h₂
  | stuck _ hacquire _ hreplace =>
    obtain ⟨h₁, hwf₁⟩ := happend hacquire
    exact h₁.replaceEphemeral hwf₁.ids hreplace

theorem Balanced.promoteRegions (h : a.Balanced reserved committed) (hwf : a.table.WellFormed)
    {condemned : Generation} {r : Except HeapError Unit}
    (hrun : onTable (SegmentTable.promoteRegions condemned) a = .ok (r, a')) :
    a'.Balanced reserved committed := by
  obtain ⟨table, hpromote, rfl⟩ := onTable_eq_ok.1 hrun
  obtain ⟨hheld, hcharged⟩ := (hwf.promoteRegions hpromote).2.2.bytes_eq
  exact Provider.Books.congr h (by rw [hheld]) (by rw [hcharged])

/-- A block that cannot be committed changes neither its segment nor what is charged. -/
theorem bump_error {e : HeapError} (hrun : bump id size a = .ok (.error e, a')) :
    a'.table = a.table ∧ a'.provider.space.committed = a.provider.space.committed := by
  rcases bump_cases hrun with ⟨_, rfl, _⟩ | ⟨s, _, ⟨he, _⟩ | ⟨_, q, a₁, hcommit, hq⟩⟩
  · exact ⟨rfl, rfl⟩
  · cases he
  · cases q with
    | ok committed => cases hq.1
    | error e' =>
      obtain ⟨_, rfl⟩ := hq
      rcases commitUpTo_cases hcommit with ⟨he, _⟩ | ⟨x, q, provider, hprovider, rfl, hq, _⟩
      · cases he
      · rcases Provider.commit_eq_ok hprovider with ⟨rfl, _⟩ | ⟨_, _, rfl, hspace, _⟩
        · cases hq
        · refine ⟨rfl, ?_⟩
          simp only [hspace]

/-- A segment may be replaced by one with a larger charge, once that is on the books. -/
theorem balanced_put {provider : Provider} {t : SegmentTable} {s' : Segment} (grown : Nat)
    (hs : t.find? id = some s) (hid : s.id = id) (hsame : s'.id = s.id) (hrange : s'.range = s.range)
    (hcommitted : s'.committed = s.committed + grown)
    (h : provider.Books (t.heldBytes + reserved) (t.chargedBytes + committed + grown)) :
    Balanced ⟨t.put s', provider⟩ reserved committed := by
  have hput := SegmentTable.chargedBytes_put hs (hsame.trans hid)
  refine h.congr ?_ ?_
  · rw [SegmentTable.heldBytes_put hs (hsame.trans hid) hrange]
  · simp only
    omega

theorem Balanced.bump (h : a.Balanced reserved committed) (hwf : a.table.WellFormed)
    {r : Except HeapError (Option Nat)} (hrun : SegmentArena.bump id size a = .ok (r, a')) :
    a'.Balanced reserved committed := by
  rcases bump_cases hrun with ⟨_, rfl, _⟩ | ⟨s, hs, ⟨_, rfl, _⟩ | ⟨_, q, a₁, hcommit, hq⟩⟩
  · exact h
  · exact h
  · rcases commitUpTo_cases hcommit with ⟨rfl, rfl, _⟩ | ⟨x, q, provider, hprovider, rfl, rfl, _⟩
    · obtain ⟨_, rfl⟩ := hq
      exact balanced_put 0 hs (hwf.ids hs) rfl rfl rfl h
    · rcases Provider.Books.commit h hprovider with ⟨rfl, hbooks⟩ | ⟨e, rfl, hbooks⟩
      · obtain ⟨_, rfl⟩ := hq
        exact balanced_put _ hs (hwf.ids hs) rfl rfl rfl hbooks
      · obtain ⟨_, rfl⟩ := hq
        exact hbooks

theorem Balanced.takeFree (h : a.Balanced reserved committed) (hwf : a.table.WellFormed)
    {found : Option Nat} {table : SegmentTable}
    (hrun : a.table.takeFree id size = .ok (found, table)) :
    Balanced { a with table } reserved committed := by
  cases found with
  | none =>
    cases SegmentTable.takeFree_eq_none hrun
    exact h
  | some b =>
    obtain ⟨s, spans, hs, _, rfl⟩ := SegmentTable.takeFree_eq_some hrun
    exact balanced_put 0 hs (hwf.ids hs) rfl rfl rfl h

/-! ## Giving memory back -/

/-- The provider takes back what was committed for a segment. -/
theorem decommitPart_charges {taken : List AddressRange} (hserves : a.provider.Serves taken)
    (h : a.provider.Books reserved (s.committed + committed)) :
    ∃ provider, decommitPart s a = .ok (.ok ⟨⟩, { a with provider }) ∧ provider.Serves taken ∧
      provider.Books reserved committed := by
  unfold decommitPart
  split
  · have hrun := Provider.decommit_of_zero (x := ⟨s.start, s.committed⟩) hserves.decommits
    refine ⟨_, onProvider_eq_ok.2 ⟨_, hrun, rfl⟩, (hserves.decommit hrun).2.2, ?_⟩
    exact AddressSpace.Books.decommit (x := ⟨s.start, s.committed⟩) h
  next hzero =>
    refine ⟨a.provider, rfl, hserves, h.congr rfl ?_⟩
    omega

/-- A range that goes to the pool stays on the books; any other one is taken off. -/
theorem returnRange_charges (hreleases : a.provider.refusals.release = 0)
    (hs : a.table.find? id = some s) {r : Except HeapError PUnit}
    (h : a.provider.Books (a.table.heldBytes + reserved)
      ((a.table.forget id s.owner).chargedBytes + committed))
    (hrun : returnRange s a = .ok (r, a')) : r = .ok ⟨⟩ ∧
      Balanced { a' with table := a'.table.forget id s.owner } reserved committed := by
  have hheld := SegmentTable.heldBytes_forget s.owner hs
  obtain ⟨-, rfl, rfl⟩ | ⟨-, provider, hrelease, rfl⟩ := returnRange_cases hrun
  · refine ⟨rfl, Provider.Books.congr h ?_ rfl⟩
    rw [hheld, SegmentTable.heldBytes_popped (t := SegmentTable.forget
      { a.table with freeRegions := s.range :: a.table.freeRegions } id s.owner) rfl]
    rfl
  · rw [Provider.release_of_zero hreleases] at hrelease
    cases hrelease
    refine ⟨rfl, AddressSpace.Books.release (x := s.range) (Provider.Books.congr h ?_ rfl)⟩
    rw [hheld, Nat.add_assoc]

theorem Balanced.decommitIfEmpty (h : a.Balanced reserved committed) (hsound : a.Sound range rest)
    {r : Except HeapError Bool}
    (hrun : SegmentArena.decommitIfEmpty id space a = .ok (r, a')) :
    a'.Balanced reserved committed := by
  cases hs : a.table.find? id with
  | none =>
    cases decommitIfEmpty_of_find?_eq_none hs hrun
    exact h
  | some s =>
    have hbooks : a.provider.Books (a.table.heldBytes + reserved)
        (s.committed + ((a.table.forget id s.owner).chargedBytes + committed)) :=
      Provider.Books.congr h rfl
        (by rw [SegmentTable.chargedBytes_forget s.owner hs, Nat.add_assoc])
    obtain ⟨provider, hcharged, hserves, hbooks⟩ := decommitPart_charges hsound.serves hbooks
    have hgiven {q : Except HeapError PUnit} {a₂ : SegmentArena}
        (hreturn : returnRange s { a with provider } = .ok (q, a₂)) :=
      returnRange_charges (a := { a with provider }) hserves.releases hs hbooks hreturn
    cases decommitIfEmpty_cases hs hrun with
    | kept => exact h
    | charged _ _ hpart => cases hcharged.symm.trans hpart
    | reserved _ _ hpart hreturn =>
      cases hcharged.symm.trans hpart
      cases (hgiven hreturn).1
    | gone _ _ hpart hreturn =>
      cases hcharged.symm.trans hpart
      exact (hgiven hreturn).2

theorem releaseSegment_charges {left : List Segment} (h : a.Releasing range rest (s :: left))
    (hbooks : a.Balanced reserved committed) : ∃ a', releaseSegment s a = .ok (.ok ⟨⟩, a') ∧
      a'.Balanced reserved committed := by
  obtain ⟨i, hs⟩ := SegmentTable.mem_segments.1 (h.left.mem_iff.2 List.mem_cons_self)
  cases h.ids hs
  have hheld := SegmentTable.heldBytes_forget s.owner hs
  have hcharged := SegmentTable.chargedBytes_forget s.owner hs
  let forgotten : SegmentArena :=
    { a with table := { a.table with slots := a.table.slots.set s.id none } }
  have hbooks' : forgotten.provider.Books (s.range.size + (forgotten.table.heldBytes + reserved))
      (s.committed + (forgotten.table.chargedBytes + committed)) := by
    refine Provider.Books.congr hbooks ?_ ?_
    · rw [hheld, Nat.add_assoc]
      rfl
    · rw [hcharged, Nat.add_assoc]
      rfl
  obtain ⟨provider, hpart, hserves, hbooks₁⟩ := decommitPart_charges (a := forgotten) h.serves hbooks'
  have hrelease := Provider.release_of_zero (x := s.range) hserves.releases
  refine ⟨{ forgotten with provider := { provider with space := provider.space.release s.range } },
    ?_, AddressSpace.Books.release hbooks₁⟩
  unfold releaseSegment
  rw [Effect.modify_bind, Effect.bind_eq_ok]
  exact .inl ⟨_, _, hpart, onProvider_eq_ok.2 ⟨_, hrelease, rfl⟩⟩

theorem releaseSegments_charges {left : List Segment} (h : a.Releasing range rest left)
    (hbooks : a.Balanced reserved committed) : ∃ a', left.forM releaseSegment a = .ok (.ok ⟨⟩, a') ∧
      a'.Balanced reserved committed := by
  induction left generalizing a with
  | nil => exact ⟨a, rfl, hbooks⟩
  | cons s left ih =>
    obtain ⟨a₁, hfirst, hbooks₁⟩ := releaseSegment_charges h hbooks
    obtain ⟨a₂, hrest, hbooks₂⟩ := ih (h.segment hfirst).2.1 hbooks₁
    refine ⟨a₂, ?_, hbooks₂⟩
    change (releaseSegment s >>= fun _ => left.forM releaseSegment) a = _
    rw [Effect.bind_eq_ok]
    exact .inl ⟨_, _, hfirst, hrest⟩

theorem releaseRanges_charges {pool : List AddressRange} (hreleases : a.provider.refusals.release = 0)
    (h : a.provider.Books (Word.total (pool.map (·.size)) + reserved) committed) :
    ∃ provider, pool.forM (fun x => onProvider (Provider.release x)) a =
      .ok (.ok ⟨⟩, { a with provider }) ∧ provider.Books reserved committed := by
  induction pool generalizing a with
  | nil => exact ⟨a.provider, rfl, h.congr (Nat.zero_add _) rfl⟩
  | cons x pool ih =>
    have hfirst := Provider.release_of_zero (x := x) hreleases
    have hbooks := AddressSpace.Books.release (x := x) (Provider.Books.congr h (Nat.add_assoc ..) rfl)
    obtain ⟨provider, hrest, hdone⟩ := ih
      (a := { a with provider := { a.provider with space := a.provider.space.release x } })
      hreleases hbooks
    refine ⟨provider, ?_, hdone⟩
    change (onProvider (Provider.release x) >>= fun _ => pool.forM _) a = _
    rw [Effect.bind_eq_ok]
    exact .inl ⟨_, _, onProvider_eq_ok.2 ⟨_, hfirst, rfl⟩, hrest⟩

/-- All memory can always be given back, and nothing of it stays on the books. -/
theorem releaseAll_charges (h : a.Sound range rest) (hbooks : a.Balanced reserved committed) :
    ∃ a', releaseAll a = .ok (.ok ⟨⟩, a') ∧ a'.provider.Books reserved committed ∧
      a'.table.heldBytes = 0 ∧ a'.table.chargedBytes = 0 := by
  have hstart : a.Releasing range rest a.table.segments :=
    ⟨.refl _, h.wellFormed.ids, h.serves, h.range_eq⟩
  obtain ⟨a₁, hsegments, hbooks₁⟩ := releaseSegments_charges hstart hbooks
  have h₁ := (hstart.segments hsegments).2.1
  have hnone : a₁.table.segments = [] := h₁.left.eq_nil
  let emptied : SegmentArena := { a₁ with table := { a₁.table with freeRegions := [] } }
  have hpool : emptied.provider.Books
      (Word.total (a₁.table.freeRegions.reverse.map (·.size)) + reserved) committed := by
    refine Provider.Books.congr hbooks₁ ?_ ?_
    · rw [SegmentTable.heldBytes_eq, hnone, List.map_reverse, Word.total_perm (List.reverse_perm _)]
      exact congrArg (· + reserved) (Nat.zero_add _)
    · unfold SegmentTable.chargedBytes
      rw [hnone]
      exact Nat.zero_add _
  obtain ⟨provider, hranges, hdone⟩ :=
    releaseRanges_charges (a := emptied) h₁.serves.releases hpool
  refine ⟨{ emptied with
    provider
    table := { emptied.table with owned := .const [], ephemeral := none } }, ?_, hdone, ?_, ?_⟩
  · unfold releaseAll
    rw [Effect.get_bind, Effect.bind_eq_ok]
    refine .inl ⟨_, a₁, hsegments, ?_⟩
    rw [Effect.get_bind, Effect.modify_bind, Effect.bind_eq_ok]
    exact .inl ⟨_, _, hranges, rfl⟩
  · have hheld : emptied.table.heldBytes = 0 := by
      rw [SegmentTable.heldBytes_eq]
      show Word.total (a₁.table.segments.map _) + 0 = 0
      rw [hnone]
      rfl
    exact hheld
  · show Word.total (a₁.table.segments.map _) = 0
    rw [hnone]
    rfl

end SegmentArena

/-! ## Several heaps -/

namespace SharedArena

/-- The books show what all tables hold, and nothing else. -/
def Balanced (s : SharedArena) : Prop :=
  s.provider.Books (Word.total (s.tables.map (·.heldBytes)))
    (Word.total (s.tables.map (·.chargedBytes)))

variable {s : SharedArena} {i : Nat} {t : SegmentTable} {a : SegmentArena}

theorem total_set {f : SegmentTable → Nat} (ht : s.tables[i]? = some t) (t' : SegmentTable) :
    Word.total ((s.tables.set i t').map f) =
      f t' + Word.total ((s.tables.eraseIdx i).map f) :=
  Word.total_perm ((perm_set_cons_eraseIdx (List.getElem?_eq_some_iff.1 ht).1 t').map f)

theorem total_eq {f : SegmentTable → Nat} (ht : s.tables[i]? = some t) :
    Word.total (s.tables.map f) = f t + Word.total ((s.tables.eraseIdx i).map f) := by
  have hset := total_set (f := f) ht t
  obtain ⟨hlt, rfl⟩ := List.getElem?_eq_some_iff.1 ht
  rwa [List.set_getElem_self] at hset

/-- For one of its heaps, the bytes of the others are beside its own on the books. -/
theorem Balanced.arena (h : s.Balanced) (ht : s.tables[i]? = some t) :
    SegmentArena.Balanced ⟨t, s.provider⟩ (Word.total ((s.tables.eraseIdx i).map (·.heldBytes)))
      (Word.total ((s.tables.eraseIdx i).map (·.chargedBytes))) :=
  Provider.Books.congr h (total_eq ht) (total_eq ht)

theorem Balanced.withArena (ht : s.tables[i]? = some t)
    (h : a.Balanced (Word.total ((s.tables.eraseIdx i).map (·.heldBytes)))
      (Word.total ((s.tables.eraseIdx i).map (·.chargedBytes)))) :
    (s.withArena i a).Balanced :=
  Provider.Books.congr h (total_set ht _).symm (total_set ht _).symm

theorem Balanced.rebuild (h : s.Balanced) {space : ObjectSpace} {tables : List SegmentTable}
    (hrun : s.tables.mapM (·.rebuild space) = .ok tables) : Balanced { s with tables } := by
  have hheld : tables.map (·.heldBytes) = s.tables.map (·.heldBytes) :=
    Checked.map_of_mapM hrun fun _ _ hone => (SegmentTable.bytes_rebuild hone).1
  have hcharged : tables.map (·.chargedBytes) = s.tables.map (·.chargedBytes) :=
    Checked.map_of_mapM hrun fun _ _ hone => (SegmentTable.bytes_rebuild hone).2
  exact Provider.Books.congr h (congrArg Word.total hheld.symm) (congrArg Word.total hcharged.symm)

theorem balanced_ofConfigs (range : AddressRange) (configs : List Config) :
    (ofConfigs range configs).Balanced := by
  have hzero {f : SegmentTable → Nat} (hf : ∀ c, f (.ofConfig c) = 0) :
      Word.total ((configs.map SegmentTable.ofConfig).map f) = 0 := by
    apply Word.total_eq_zero
    intro n hn
    rw [List.map_map] at hn
    obtain ⟨c, _, rfl⟩ := List.mem_map.1 hn
    exact hf c
  exact ⟨(hzero fun _ => rfl).symm, (hzero fun _ => rfl).symm, rfl⟩

end SharedArena

end GenHeap
