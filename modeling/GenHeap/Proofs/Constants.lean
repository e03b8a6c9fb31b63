import GenHeap.Proofs.Balance

/-!
What segments and their provider never change of themselves: a table keeps its settings, and no call
makes a provider refuse more than before.
-/

namespace GenHeap

namespace SegmentTable

/-- What a table keeps for its whole life. In the region layout this includes the ephemeral segment
that it does not have. -/
def constants (t : SegmentTable) : SegmentTable :=
  { t with
    slots := [], owned := .const [], grown := .const 0, freeRegions := []
    ephemeral := if t.layout = .regions then t.ephemeral else none }

variable {t t' : SegmentTable} {id size : Nat} {owner : Generation}

theorem constants_ofConfig (c : Config) : (ofConfig c).constants = ofConfig c := by
  unfold constants ofConfig
  simp only [ite_self]

theorem constants_constants (t : SegmentTable) : t.constants.constants = t.constants := by
  unfold constants
  cases t.layout <;> rfl

theorem regions_of_constants (h : t'.constants = t.constants) (hlayout : t.layout = .regions) :
    t'.layout = .regions ∧ t'.ephemeral = t.ephemeral := by
  have hlayout' : t'.layout = .regions := (congrArg layout h).trans hlayout
  refine ⟨hlayout', ?_⟩
  have heph := congrArg ephemeral h
  unfold constants at heph
  rwa [if_pos hlayout, if_pos hlayout'] at heph

theorem constants_retag {r : Except HeapError Unit}
    (hrun : SegmentTable.retag id owner t = .ok (r, t')) : t'.constants = t.constants := by
  cases hs : t.find? id with
  | none =>
    cases retag_of_find?_eq_none hs hrun
    rfl
  | some s =>
    simp only [SegmentTable.retag, Effect.get_bind, fetch, hs, Transition.ofExcept_bind] at hrun
    split at hrun
    · cases hrun
      rfl
    · cases hrun
      rfl

theorem constants_retag_all {ids : List Nat} {r : Except HeapError Unit}
    (hrun : (ids.forM fun id => SegmentTable.retag id owner) t = .ok (r, t')) :
    t'.constants = t.constants := by
  induction ids generalizing t with
  | nil =>
    cases hrun
    rfl
  | cons id ids ih =>
    change (SegmentTable.retag id owner >>= fun _ => ids.forM _) t = _ at hrun
    rw [Effect.bind_eq_ok] at hrun
    rcases hrun with ⟨_, t₁, hfirst, hrun⟩ | ⟨e, hfirst, _⟩
    · exact (ih hrun).trans (constants_retag hfirst)
    · exact constants_retag hfirst

theorem constants_promoteRegions {condemned : Generation} {r : Except HeapError Unit}
    (hrun : SegmentTable.promoteRegions condemned t = .ok (r, t')) :
    t'.constants = t.constants := by
  cases promoteRegions_cases hrun with
  | fixed => rfl
  | youngest _ _ hyoung => exact constants_retag_all hyoung
  | stuck _ _ hmiddle => exact constants_retag_all hmiddle
  | both _ _ hmiddle hyoung => exact (constants_retag_all hyoung).trans (constants_retag_all hmiddle)

theorem constants_takeFree {found : Option Nat} (hrun : t.takeFree id size = .ok (found, t')) :
    t'.constants = t.constants := by
  cases found with
  | none => rw [takeFree_eq_none hrun]
  | some a =>
    obtain ⟨s, spans, _, _, rfl⟩ := takeFree_eq_some hrun
    rfl

theorem constants_rebuild {space : ObjectSpace} (hrun : t.rebuild space = .ok t') :
    t'.constants = t.constants := by
  simp only [SegmentTable.rebuild, Checked.bind_eq_ok, Checked.pure_eq_ok] at hrun
  obtain ⟨slots, _, rfl⟩ := hrun
  rfl

end SegmentTable

/-! ## The provider -/

namespace Provider

variable {p p' : Provider} {size alignment : Nat} {x : AddressRange}

theorem willing_reserve {r : Except HeapError AddressRange}
    (hrun : Provider.reserve size alignment p = .ok (r, p')) (hw : p.Willing) : p'.Willing := by
  obtain ⟨_, -, hpos, -⟩ | ⟨space, hspace, rfl⟩ := reserve_cases hrun
  · exact absurd hw.reserves (Nat.ne_of_gt hpos)
  · rcases AddressSpace.reserve_eq_ok hspace with ⟨e, failing, _, rfl, hle⟩ |
      ⟨i, hole, start, _, _, _, _, rfl⟩ | ⟨start, _, _, _, _, rfl⟩
    · exact ⟨hw.reserves, hw.commits, Nat.eq_zero_of_le_zero (hw.failingReserves ▸ hle),
        hw.failingCommits, hw.commitLimit⟩
    · exact ⟨hw.reserves, hw.commits, hw.failingReserves, hw.failingCommits, hw.commitLimit⟩
    · exact ⟨hw.reserves, hw.commits, hw.failingReserves, hw.failingCommits, hw.commitLimit⟩

/-- A willing provider commits. -/
theorem commit_of_willing {r : Except HeapError Unit} (hrun : Provider.commit x p = .ok (r, p'))
    (hw : p.Willing) : r = .ok ⟨⟩ ∧ p'.Willing := by
  rcases commit_eq_ok hrun with ⟨rfl, rfl⟩ | ⟨e, failing, _, _, hnot⟩
  · exact ⟨rfl, hw.reserves, hw.commits, hw.failingReserves, hw.failingCommits, hw.commitLimit⟩
  · exact absurd hw hnot

theorem willing_decommit {r : Except HeapError Unit} (hrun : Provider.decommit x p = .ok (r, p'))
    (hw : p.Willing) : p'.Willing := by
  obtain ⟨_, -, -, rfl⟩ | ⟨-, rfl⟩ := decommit_cases hrun
  · exact ⟨hw.reserves, hw.commits, hw.failingReserves, hw.failingCommits, hw.commitLimit⟩
  · exact ⟨hw.reserves, hw.commits, hw.failingReserves, hw.failingCommits, hw.commitLimit⟩

theorem willing_release {r : Except HeapError Unit} (hrun : Provider.release x p = .ok (r, p'))
    (hw : p.Willing) : p'.Willing := by
  obtain ⟨_, -, -, rfl⟩ | ⟨-, rfl⟩ := release_cases hrun
  · exact ⟨hw.reserves, hw.commits, hw.failingReserves, hw.failingCommits, hw.commitLimit⟩
  · exact ⟨hw.reserves, hw.commits, hw.failingReserves, hw.failingCommits, hw.commitLimit⟩

end Provider

/-! ## Segments with their provider -/

namespace SegmentArena

/-- An arena with the same settings, whose provider refuses nothing if it refused nothing before. -/
structure Conforms (a a' : SegmentArena) : Prop where
  constants : a'.table.constants = a.table.constants
  willing : a.provider.Willing → a'.provider.Willing

variable {a a' a'' : SegmentArena} {s : Segment} {id size minimum : Nat} {g : Generation}
  {space : ObjectSpace}

theorem Conforms.refl (a : SegmentArena) : Conforms a a := ⟨rfl, fun hw => hw⟩

theorem Conforms.trans (h : Conforms a a') (h' : Conforms a' a'') : Conforms a a'' :=
  ⟨h'.constants.trans h.constants, fun hw => h'.willing (h.willing hw)⟩

theorem conforms_onTable {t : Transition SegmentTable Unit}
    (ht : ∀ {x x' : SegmentTable} {r}, t x = .ok (r, x') → x'.constants = x.constants)
    {r : Except HeapError Unit} (hrun : onTable t a = .ok (r, a')) : Conforms a a' := by
  obtain ⟨table, htable, rfl⟩ := onTable_eq_ok.1 hrun
  exact ⟨ht htable, fun hw => hw⟩

theorem conforms_acquire {r : Except HeapError (AddressRange × SegmentKind × Bool)}
    (hrun : acquire size a = .ok (r, a')) : Conforms a a' := by
  rcases acquire_eq_ok hrun with ⟨x, pool, _, _, _, _, rfl⟩ | ⟨_, q, provider, hreserve, rfl, _⟩
  · exact ⟨rfl, fun hw => hw⟩
  · exact ⟨rfl, Provider.willing_reserve hreserve⟩

theorem conforms_replaceEphemeral (hlayout : a.table.layout = .segments)
    {r : Except HeapError Unit} (hrun : replaceEphemeral id a = .ok (r, a')) : Conforms a a' := by
  have hnow : Conforms a { a with table := { a.table with ephemeral := some id } } := by
    refine ⟨?_, fun hw => hw⟩
    unfold SegmentTable.constants
    simp only [hlayout, reduceCtorEq, if_false]
  obtain ⟨-, -, rfl⟩ | ⟨previous, -, hrun⟩ := replaceEphemeral_cases hrun
  · exact hnow
  · exact hnow.trans (conforms_onTable SegmentTable.constants_retag hrun)

theorem conforms_grow {r : Except HeapError Growth} (hrun : grow g minimum a = .ok (r, a')) :
    Conforms a a' := by
  have happend {size : Nat} {x : AddressRange} {kind : SegmentKind} {reused : Bool}
      {a₁ : SegmentArena} (hacquire : acquire size a = .ok (.ok (x, kind, reused), a₁)) :
      Conforms a { a₁ with table := a₁.table.append (a.table.newOwner g) x kind } :=
    (conforms_acquire hacquire).trans ⟨rfl, fun hw => hw⟩
  cases grow_cases hrun with
  | without _ hacquire => exact conforms_acquire hacquire
  | beside _ hacquire => exact (happend hacquire).trans ⟨rfl, fun hw => hw⟩
  | replacing _ hacquire hyoung hreplace =>
    have hlayout := (SegmentTable.layout_of_usesEphemeral hyoung).1
    have hreplaced := conforms_replaceEphemeral (by exact hlayout) hreplace
    exact ((happend hacquire).trans hreplaced).trans ⟨rfl, fun hw => hw⟩
  | stuck _ hacquire hyoung hreplace =>
    have hlayout := (SegmentTable.layout_of_usesEphemeral hyoung).1
    exact (happend hacquire).trans (conforms_replaceEphemeral (by exact hlayout) hreplace)

theorem conforms_bump {r : Except HeapError (Option Nat)} (hrun : bump id size a = .ok (r, a')) :
    Conforms a a' := by
  rcases bump_cases hrun with ⟨_, rfl, _⟩ | ⟨s, _, ⟨_, rfl, _⟩ | ⟨_, q, a₁, hcommit, hq⟩⟩
  · exact .refl a'
  · exact .refl a'
  · have h₁ : Conforms a a₁ := by
      rcases commitUpTo_cases hcommit with ⟨_, rfl, _⟩ | ⟨x, q, provider, hprovider, rfl, _⟩
      · exact .refl a₁
      · exact ⟨rfl, fun hw => (Provider.commit_of_willing hprovider hw).2⟩
    cases q with
    | error e =>
      obtain ⟨_, rfl⟩ := hq
      exact h₁
    | ok committed =>
      obtain ⟨_, rfl⟩ := hq
      exact h₁.trans ⟨rfl, fun hw => hw⟩

theorem conforms_decommitPart {r : Except HeapError Unit} (hrun : decommitPart s a = .ok (r, a')) :
    Conforms a a' := by
  obtain ⟨-, -, rfl⟩ | ⟨provider, hdecommit, rfl⟩ := decommitPart_cases hrun
  · exact .refl _
  · exact ⟨rfl, Provider.willing_decommit hdecommit⟩

theorem conforms_returnRange {r : Except HeapError Unit} (hrun : returnRange s a = .ok (r, a')) :
    Conforms a a' := by
  obtain ⟨-, -, rfl⟩ | ⟨-, provider, hrelease, rfl⟩ := returnRange_cases hrun
  · exact ⟨rfl, fun hw => hw⟩
  · exact ⟨rfl, Provider.willing_release hrelease⟩

theorem conforms_decommitIfEmpty {r : Except HeapError Bool}
    (hrun : decommitIfEmpty id space a = .ok (r, a')) : Conforms a a' := by
  cases hs : a.table.find? id with
  | none =>
    cases decommitIfEmpty_of_find?_eq_none hs hrun
    exact .refl a
  | some s =>
    cases decommitIfEmpty_cases hs hrun with
    | kept => exact .refl a
    | charged _ _ hpart => exact conforms_decommitPart hpart
    | reserved _ _ hpart hreturn =>
      exact (conforms_decommitPart hpart).trans (conforms_returnRange hreturn)
    | gone _ _ hpart hreturn =>
      have hreturned := (conforms_decommitPart hpart).trans (conforms_returnRange hreturn)
      exact hreturned.trans ⟨rfl, fun hw => hw⟩

end SegmentArena

end GenHeap
