import GenHeap.Proofs.Constants

/-!
Where the next block of a generation can come from once the provider refuses nothing more: from behind
the pointer of the segment in which the generation allocates, or from a new segment on a range of the
pool or of the address space. Refusals of the provider use none of this up.
-/

namespace GenHeap

namespace AddressSpace

variable {s s' : AddressSpace} {size alignment : Nat} {x : AddressRange}

/-- The same books, with no more failures to come and no limit. -/
def healed (s : AddressSpace) : AddressSpace :=
  { s with commitLimit := none, failingReserves := 0, failingCommits := 0 }

/-- There is room for an aligned range in a hole or else at the untouched end. -/
def Roomy (s : AddressSpace) (size alignment : Nat) : Prop :=
  firstFit? size alignment s.holes 0 = .ok none → ∃ start, Word.alignUp s.next alignment = .ok start ∧
    start + size < Word.count ∧ start + size ≤ s.range.start + s.range.size

/-- Without a place in a list of holes, there is none in the front of the list. -/
theorem firstFit?_of_append {holes : List AddressRange} {k : Nat}
    (h : firstFit? size alignment (holes ++ [x]) k = .ok none) :
    firstFit? size alignment holes k = .ok none := by
  induction holes generalizing k with
  | nil => rfl
  | cons hole holes ih =>
    simp only [List.cons_append, firstFit?, Checked.bind_eq_ok] at h ⊢
    obtain ⟨place, hplace, h⟩ := h
    cases place with
    | some p => cases h
    | none => exact ⟨none, hplace, ih h⟩

theorem Roomy.release (h : s.Roomy size alignment) : (s.release x).Roomy size alignment :=
  fun hnone => h (firstFit?_of_append hnone)

/-- What a reservation finds, unless it is made to fail. -/
theorem reserve_finds {r : Except HeapError AddressRange}
    (hrun : AddressSpace.reserve size alignment s = .ok (r, s')) :
    (∃ e, r = .error e ∧ s'.healed = s.healed ∧
        (s.failingReserves = 0 → ¬ s.Roomy size alignment)) ∨
      (∃ y, r = .ok y) ∧ s.Roomy size alignment := by
  cases reserve_cases hrun with
  | fault hpos => exact .inl ⟨_, rfl, rfl, fun hzero => absurd hzero (Nat.ne_of_gt hpos)⟩
  | hole hfit => exact .inr ⟨⟨_, rfl⟩, fun hnone => nomatch hfit.symm.trans hnone⟩
  | untouched _ hstart hword hle => exact .inr ⟨⟨_, rfl⟩, fun _ => ⟨_, hstart, hword, hle⟩⟩
  | full hfit hstart hover =>
    refine .inl ⟨_, rfl, rfl, fun _ hroomy => ?_⟩
    obtain ⟨_, hstart', hword, hle⟩ := hroomy hfit
    cases hstart'.symm.trans hstart
    exact absurd hle (Nat.not_le_of_lt (hover hword))

end AddressSpace

namespace Provider

variable {p p' : Provider} {size alignment : Nat} {x : AddressRange}

/-- The same provider, refusing no reservation and no commit of itself. -/
def healed (p : Provider) : Provider where
  space := p.space.healed
  refusals := { p.refusals with reserve := 0, commit := 0 }

theorem willing_healed (p : Provider) : p.healed.Willing := ⟨rfl, rfl, rfl, rfl, rfl⟩

theorem reserve_finds {r : Except HeapError AddressRange}
    (hrun : Provider.reserve size alignment p = .ok (r, p')) :
    (∃ e, r = .error e ∧ p'.healed = p.healed ∧ (p.Willing → ¬ p.space.Roomy size alignment)) ∨
      (∃ y, r = .ok y) ∧ p.space.Roomy size alignment := by
  obtain ⟨e, he, hpos, rfl⟩ | ⟨space, hspace, rfl⟩ := reserve_cases hrun
  · exact .inl ⟨e, he, rfl, fun hw => absurd hw.reserves (Nat.ne_of_gt hpos)⟩
  · rcases AddressSpace.reserve_finds hspace with ⟨e, he, hsame, hnot⟩ | hfound
    · refine .inl ⟨e, he, ?_, fun hw => hnot hw.failingReserves⟩
      unfold healed
      rw [hsame]
    · exact .inr hfound

theorem healed_commit {e : HeapError} (hrun : Provider.commit x p = .ok (.error e, p')) :
    p'.healed = p.healed := by
  obtain ⟨_, -, -, rfl⟩ | ⟨space, hspace, rfl⟩ := commit_cases hrun
  · rfl
  · rcases AddressSpace.commit_eq_ok hspace with ⟨he, _⟩ | ⟨_, failing, _, rfl, _⟩
    · cases he
    · rfl

/-- Wherever there was room in `p`, there is in `p'`. -/
structure Retains (p p' : Provider) : Prop where
  range : p'.space.range = p.space.range
  room : ∀ size alignment, p.space.Roomy size alignment → p'.space.Roomy size alignment

theorem Retains.refl (p : Provider) : p.Retains p := ⟨rfl, fun _ _ h => h⟩

theorem Retains.trans {p'' : Provider} (h : p.Retains p') (h' : p'.Retains p'') : p.Retains p'' :=
  ⟨h'.range.trans h.range, fun size alignment hroomy =>
    h'.room size alignment (h.room size alignment hroomy)⟩

theorem retains_decommit {r : Except HeapError Unit}
    (hrun : Provider.decommit x p = .ok (r, p')) : p.Retains p' := by
  obtain ⟨_, -, -, rfl⟩ | ⟨-, rfl⟩ := decommit_cases hrun
  · exact ⟨rfl, fun _ _ h => h⟩
  · exact ⟨rfl, fun _ _ h => h⟩

theorem retains_release {r : Except HeapError Unit}
    (hrun : Provider.release x p = .ok (r, p')) : p.Retains p' := by
  obtain ⟨_, -, -, rfl⟩ | ⟨-, rfl⟩ := release_cases hrun
  · exact ⟨rfl, fun _ _ h => h⟩
  · exact ⟨rfl, fun _ _ h => h.release⟩

end Provider

/-! ## Tables -/

namespace SegmentTable

variable {t t' t'' : SegmentTable} {s : Segment} {g owner : Generation} {id : Nat}
  {space : ObjectSpace}

/-- What only growing changes. -/
def frame (t : SegmentTable) : SegmentTable :=
  { t with slots := [], owned := .const [], freeRegions := [] }

/-- The segment in which `g` allocates stays and has no less room, a pool with regions keeps some, and
a new segment has the size that it would have had. -/
structure Retains (g : Generation) (t t' : SegmentTable) : Prop where
  frame : t'.frame = t.frame
  listed : ∀ id ∈ t'.owned.get g, id ∈ t.owned.get g
  active : t'.allocSegment? g = t.allocSegment? g
  room : ∀ {id s}, t.allocSegment? g = some id → t.find? id = some s →
    ∃ s', t'.find? id = some s' ∧ s'.range = s.range ∧ s'.allocated ≤ s.allocated
  pool : t.freeRegions ≠ [] → t'.freeRegions ≠ []

theorem Retains.refl (g : Generation) (t : SegmentTable) : Retains g t t :=
  ⟨rfl, fun _ hid => hid, rfl, fun _ hs => ⟨_, hs, rfl, Nat.le_refl _⟩, fun h => h⟩

theorem Retains.trans (h : Retains g t t') (h' : Retains g t' t'') : Retains g t t'' where
  frame := h'.frame.trans h.frame
  listed id hid := h.listed id (h'.listed id hid)
  active := h'.active.trans h.active
  room halloc hs := by
    obtain ⟨s', hs', hrange, hle⟩ := h.room halloc hs
    obtain ⟨s'', hs'', hrange', hle'⟩ := h'.room (h.active.trans halloc) hs'
    exact ⟨s'', hs'', hrange'.trans hrange, Nat.le_trans hle' hle⟩
  pool hpool := h'.pool (h.pool hpool)

theorem layout_of_frame (h : t'.frame = t.frame) : t'.layout = t.layout := by
  have hread (t : SegmentTable) : t.layout = t.frame.layout := rfl
  rw [hread t', hread t, h]

theorem usesEphemeral_of_frame (h : t'.frame = t.frame) (g : Generation) :
    t'.usesEphemeral g = t.usesEphemeral g :=
  usesEphemeral_congr (layout_of_frame h)

theorem nextSize_of_frame (h : t'.frame = t.frame) (g : Generation) (minimum : Nat) :
    t'.nextSize (t'.newOwner g) minimum = t.nextSize (t.newOwner g) minimum := by
  have hread (t : SegmentTable) : t.nextSize (t.newOwner g) minimum =
      t.frame.nextSize (t.frame.newOwner g) minimum := rfl
  rw [hread t', hread t, h]

theorem alignment_of_frame (h : t'.frame = t.frame) : t'.alignment = t.alignment := by
  have hread (t : SegmentTable) : t.alignment = t.frame.alignment := rfl
  rw [hread t', hread t, h]

/-- Where a generation allocates depends on the ephemeral segment, or on the list of the generation. -/
theorem allocSegment?_congr (h : t'.frame = t.frame)
    (howned : t.usesEphemeral g = false → (t'.owned.get g).getLast? = (t.owned.get g).getLast?) :
    t'.allocSegment? g = t.allocSegment? g := by
  have hread (t : SegmentTable) : t.ephemeral = t.frame.ephemeral := rfl
  have heph : t'.ephemeral = t.ephemeral := by rw [hread t', hread t, h]
  unfold allocSegment?
  rw [usesEphemeral_of_frame h, heph]
  split
  · rfl
  next huses => exact howned (Bool.eq_false_iff.2 huses)

/-- A generation allocates in its newest segment. -/
theorem allocSegment?_enlist (hlayout : t'.layout = t.layout)
    (heph : t.usesEphemeral g = true → t'.ephemeral = some id) :
    (t'.enlist id (t.newOwner g)).allocSegment? g = some id := by
  have hsame (owner : Generation) : (t'.enlist id owner).usesEphemeral g = t.usesEphemeral g :=
    usesEphemeral_congr (t := t) hlayout
  unfold allocSegment?
  rw [hsame]
  split
  next huses => exact heph huses
  next huses =>
    unfold newOwner
    rw [if_neg huses]
    show ((t'.owned.modify g (· ++ [id])).get g).getLast? = some id
    rw [PerGeneration.get_modify_self, List.getLast?_concat]

/-- A sweep takes no room away. -/
theorem WellFormed.retains_rebuild (h : t.WellFormed) (hspace : space.Apart)
    (hin : ∀ i s, t.find? i = some s → ∀ a r, space.get? a = some r → s.start ≤ a →
      a < s.allocated → a + r.size ≤ s.allocated)
    (hrun : t.rebuild space = .ok t') : Retains g t t' := by
  obtain ⟨_, _, hforth, _⟩ := h.rebuild hspace hin hrun
  obtain ⟨hframe, howned, hpool⟩ : t'.frame = t.frame ∧ t'.owned = t.owned ∧
      t'.freeRegions = t.freeRegions := by
    simp only [SegmentTable.rebuild, Checked.bind_eq_ok, Checked.pure_eq_ok] at hrun
    obtain ⟨slots, _, rfl⟩ := hrun
    exact ⟨rfl, rfl, rfl⟩
  refine ⟨hframe, fun _ hid => howned ▸ hid, allocSegment?_congr hframe fun _ => by rw [howned],
    fun _ hs => ?_, fun hsome => hpool ▸ hsome⟩
  obtain ⟨s', hs', hswept⟩ := hforth hs
  exact ⟨s', hs', by rw [hswept.same], hswept.allocated_le⟩

/-! ## Promoted regions -/

/-- A list stays as it is when segments of other generations go to another generation. -/
theorem WellFormed.retag_all_owned (h : t.WellFormed) {ids : List Nat} (howner : owner ≠ g)
    (hids : ∀ i ∈ ids, ∃ s, t.find? i = some s ∧ s.owner ≠ g) {r : Except HeapError Unit}
    (hrun : (ids.forM fun id => SegmentTable.retag id owner) t = .ok (r, t')) :
    t'.frame = t.frame ∧ t'.owned.get g = t.owned.get g := by
  refine (Effect.forM_induct (fun x : SegmentTable => x.WellFormed ∧
    (∀ i ∈ ids, ∃ s, x.find? i = some s ∧ s.owner ≠ g) ∧ x.frame = t.frame ∧
      x.owned.get g = t.owned.get g) ?_ ⟨h, hids, rfl, rfl⟩ hrun).2.2.2
  rintro id x q x' hid ⟨hwf, hids, hframe, howned⟩ hretag
  obtain ⟨s, hs, hne⟩ := hids id hid
  obtain ⟨hq, hwf', _, hother⟩ := hwf.retag hs hretag
  refine ⟨⟨_, hq⟩, hwf', ?_⟩
  rcases (retag_eq_ok hs hretag).2 with ⟨_, rfl⟩ | ⟨_, rfl⟩
  · exact ⟨hids, hframe, howned⟩
  · have hput : x.find? ({ s with owner } : Segment).id = some s := (hwf.ids hs).symm ▸ hs
    refine ⟨fun i hi => ?_, hframe, ?_⟩
    · by_cases hself : i = id
      · exact ⟨{ s with owner }, by
          rw [find?_enlist]
          exact (find?_put hput).trans (if_pos (hself.trans (hwf.ids hs).symm)), howner⟩
      · obtain ⟨s', hs', hne'⟩ := hids i hi
        exact ⟨s', (hother i hself).1.trans hs', hne'⟩
    · rw [← howned]
      show ((x.owned.modify s.owner _).modify owner _).get g = _
      rw [PerGeneration.get_modify_of_ne _ _ (Ne.symm howner),
        PerGeneration.get_modify_of_ne _ _ (Ne.symm hne)]

/-- Whether no collection gives the regions of a generation away or adds to them. -/
def Unpromoted (t : SegmentTable) (g : Generation) : Prop :=
  t.layout = .segments ∨ g = .large ∨ g = .pinned

theorem Unpromoted.retained (h : t.Unpromoted g) (hr : t.Retains g t') : t'.Unpromoted g :=
  h.imp_left (layout_of_frame hr.frame).trans

theorem WellFormed.retains_promoteRegions (h : t.WellFormed) (hg : t.Unpromoted g)
    {condemned : Generation} {r : Except HeapError Unit}
    (hrun : SegmentTable.promoteRegions condemned t = .ok (r, t')) : Retains g t t' := by
  obtain ⟨_, _, hsame⟩ := h.promoteRegions hrun
  have hkept (hframe : t'.frame = t.frame) (howned : t'.owned.get g = t.owned.get g) :
      Retains g t t' := by
    refine ⟨hframe, fun _ hid => howned ▸ hid, allocSegment?_congr hframe fun _ => by rw [howned],
      fun _ hs => ?_, fun hpool => ?_⟩
    · obtain ⟨_, hs'⟩ := hsame.live hs
      exact ⟨_, hs', rfl, Nat.le_refl _⟩
    · rwa [hsame.freeRegions]
  have hother {x : SegmentTable} (hx : x.WellFormed) {young : Generation} (hyoung : young ≠ g) :
      ∀ i ∈ x.owned.get young, ∃ s, x.find? i = some s ∧ s.owner ≠ g := by
    intro i hi
    obtain ⟨s, hs, howner⟩ := hx.listed hi
    exact ⟨s, hs, howner ▸ hyoung⟩
  have hne (hregions : t.layout = .regions) {young : Generation}
      (hyoung : young ∈ [Generation.gen0, .gen1, .gen2]) : young ≠ g := by
    have hold : g = .large ∨ g = .pinned := by
      refine hg.resolve_left fun hsegments => ?_
      cases hregions.symm.trans hsegments
    rintro rfl
    rcases hold with rfl | rfl <;> exact absurd hyoung (by decide)
  cases promoteRegions_cases hrun with
  | fixed => exact .refl g t
  | youngest hregions _ hyoung =>
    obtain ⟨hframe, howned⟩ := h.retag_all_owned (hne hregions (by decide))
      (hother h (hne hregions (by decide))) hyoung
    exact hkept hframe howned
  | stuck hregions _ hmiddle =>
    obtain ⟨hframe, howned⟩ := h.retag_all_owned (hne hregions (by decide))
      (hother h (hne hregions (by decide))) hmiddle
    exact hkept hframe howned
  | both hregions _ hmiddle hyoung =>
    obtain ⟨_, hwf₁, _⟩ := h.retag_all (fun i hi => (h.listed hi).imp fun _ hs => hs.1) hmiddle
    obtain ⟨hframe₁, howned₁⟩ := h.retag_all_owned (hne hregions (by decide))
      (hother h (hne hregions (by decide))) hmiddle
    obtain ⟨hframe, howned⟩ := hwf₁.retag_all_owned (hne hregions (by decide))
      (hother hwf₁ (hne hregions (by decide))) hyoung
    exact hkept (hframe.trans hframe₁) (howned.trans howned₁)

end SegmentTable

/-! ## Segments with their provider -/

namespace SegmentArena

variable {a a' a'' : SegmentArena} {s : Segment} {id size minimum : Nat} {g : Generation}
  {range : AddressRange} {rest : List AddressRange} {space : ObjectSpace}

/-- The same segments, whose provider refuses nothing of itself. -/
def healed (a : SegmentArena) : SegmentArena := { a with provider := a.provider.healed }

/-- Whether a range of some size can be had, from the pool or from the provider. -/
def Obtainable (a : SegmentArena) (size : Nat) : Prop :=
  (a.table.layout = .regions ∧ size = a.table.regionSize ∧ a.table.freeRegions ≠ []) ∨
    a.provider.space.Roomy size a.table.alignment

/-- Whether there is a range for a new segment in which `g` has room for some bytes. -/
def CanGrow (a : SegmentArena) (g : Generation) (minimum : Nat) : Prop :=
  ∀ n, a.table.nextSize (a.table.newOwner g) minimum = .ok n → a.Obtainable n

/-- A provider without faults has a block of so many bytes for `g`: the segment in which `g` allocates
has room for it, or there is a range for a new segment. -/
inductive Ready (a : SegmentArena) (g : Generation) (size : Nat) : Prop where
  | behind {id : Nat} {s : Segment} (halloc : a.table.allocSegment? g = some id)
    (hs : a.table.find? id = some s) (hroom : s.allocated + size ≤ s.range.start + s.range.size)
  | ahead (hcan : a.CanGrow g size)

/-- What is ready stays so, whatever else becomes of the arena. -/
structure Retains (g : Generation) (a a' : SegmentArena) : Prop where
  table : a.table.Retains g a'.table
  provider : a.provider.Retains a'.provider

theorem Retains.refl (g : Generation) (a : SegmentArena) : Retains g a a := ⟨.refl g _, .refl _⟩

theorem Retains.trans (h : Retains g a a') (h' : Retains g a' a'') : Retains g a a'' :=
  ⟨h.table.trans h'.table, h.provider.trans h'.provider⟩

theorem Ready.retained (h : a.Ready g size) (hr : Retains g a a') : a'.Ready g size := by
  cases h with
  | behind halloc hs hroom =>
    obtain ⟨s', hs', hrange, hle⟩ := hr.table.room halloc hs
    refine .behind (hr.table.active.trans halloc) hs' ?_
    rw [hrange]
    exact Nat.le_trans (Nat.add_le_add_right hle _) hroom
  | ahead hcan =>
    refine .ahead fun n hn => ?_
    rw [SegmentTable.nextSize_of_frame hr.table.frame] at hn
    rcases hcan n hn with ⟨hlayout, hsize, hpool⟩ | hroomy
    · refine .inl ⟨(SegmentTable.layout_of_frame hr.table.frame).trans hlayout, ?_, hr.table.pool hpool⟩
      have hread (t : SegmentTable) : t.regionSize = t.frame.regionSize := rfl
      rw [hsize, hread a'.table, hr.table.frame, ← hread]
    · refine .inr ?_
      rw [SegmentTable.alignment_of_frame hr.table.frame]
      exact hr.provider.room n _ hroomy

/-- It does not depend on faults. -/
theorem Ready.congr (h : a.Ready g size) (hsame : a'.healed = a.healed) : a'.Ready g size := by
  have hread (a : SegmentArena) : a.table = a.healed.table := rfl
  have hroomy (a : SegmentArena) (n alignment : Nat) : a.provider.space.Roomy n alignment ↔
      a.healed.provider.space.Roomy n alignment := .rfl
  have hrange (a : SegmentArena) : a.provider.space.range = a.healed.provider.space.range := rfl
  refine h.retained ⟨?_, ?_, fun n alignment hr => ?_⟩
  · rw [hread a', hsame]
    exact .refl g _
  · rw [hrange a', hsame, ← hrange]
  · rwa [hroomy a', hsame]

/-! ## New segments -/

theorem acquire_finds {r : Except HeapError (AddressRange × SegmentKind × Bool)}
    (hrun : acquire size a = .ok (r, a')) :
    (∃ e, r = .error e ∧ a'.healed = a.healed ∧ (a.provider.Willing → ¬ a.Obtainable size)) ∨
      (∃ x, r = .ok x) ∧ a.Obtainable size := by
  rcases acquire_eq_ok hrun with ⟨x, pool, hlayout, hsize, hpool, rfl, _⟩ |
    ⟨kind, q, provider, hreserve, rfl, rfl, hpool⟩
  · exact .inr ⟨⟨_, rfl⟩, .inl ⟨hlayout, hsize, by rw [hpool]; exact List.cons_ne_nil _ _⟩⟩
  · rcases Provider.reserve_finds hreserve with ⟨e, rfl, hsame, hnot⟩ | ⟨⟨x, rfl⟩, hroomy⟩
    · refine .inl ⟨e, rfl, ?_, fun hw hobtainable => ?_⟩
      · unfold healed
        rw [hsame]
      · rcases hobtainable with ⟨hlayout, hsize, hsome⟩ | hroomy
        · exact hsome (hpool hlayout hsize)
        · exact hnot hw hroomy
    · exact .inr ⟨⟨_, rfl⟩, .inr hroomy⟩

/-- A new segment is the one in which its generation allocates. Without one there was no range, or a
fault, and nothing changes but the faults that are still to come. -/
theorem Sound.grow_finds (h : a.Sound range rest) {r : Except HeapError Growth}
    (hrun : SegmentArena.grow g minimum a = .ok (r, a')) :
    (∃ e, r = .error e ∧ a'.healed = a.healed ∧ (a.provider.Willing → ¬ a.CanGrow g minimum)) ∨
      ∃ growth, r = .ok growth ∧ a'.table.allocSegment? g = some growth.segment ∧
        a.CanGrow g minimum := by
  have hfound {size : Nat} {x : AddressRange} {kind : SegmentKind} {reused : Bool}
      {a₁ : SegmentArena} (hsize : a.table.nextSize (a.table.newOwner g) minimum = .ok size)
      (hacquire : SegmentArena.acquire size a = .ok (.ok (x, kind, reused), a₁)) :
      a.CanGrow g minimum ∧ Acquired a a₁ range x rest size ∧
        a₁.table.layout = a.table.layout := by
    rcases acquire_finds hacquire with ⟨e, he, _⟩ | ⟨_, hobtainable⟩
    · cases he
    · rcases h.acquire hacquire with ⟨_, _, _, he, hx⟩ | ⟨_, he, _⟩
      · cases he
        refine ⟨fun n hn => ?_, hx, ?_⟩
        · cases hn.symm.trans hsize
          exact hobtainable
        · obtain ⟨pool, htable⟩ := hx.table
          rw [htable]
      · cases he
  cases grow_cases hrun with
  | without hsize hacquire =>
    rcases acquire_finds hacquire with ⟨_, he, hsame, hnot⟩ | ⟨⟨_, he⟩, _⟩
    · cases he
      exact .inl ⟨_, rfl, hsame, fun hw hcan => hnot hw (hcan _ hsize)⟩
    · cases he
  | beside hsize hacquire hold =>
    obtain ⟨hcan, _, hlayout⟩ := hfound hsize hacquire
    refine .inr ⟨_, rfl, SegmentTable.allocSegment?_enlist hlayout fun hyoung => ?_, hcan⟩
    rw [SegmentTable.usesEphemeral_congr hlayout] at hold
    cases ((a.table.usesEphemeral_newOwner g).trans hyoung).symm.trans hold
  | replacing hsize hacquire hyoung hreplace =>
    obtain ⟨hcan, hx, hlayout⟩ := hfound hsize hacquire
    obtain ⟨_, _, hsame, _⟩ :=
      (hx.append _ _).replaceEphemeral (find?_append_self ..) hreplace
    obtain ⟨hsegments, _⟩ := SegmentTable.layout_of_usesEphemeral hyoung
    obtain ⟨hconstants, _⟩ := conforms_replaceEphemeral (by exact hsegments) hreplace
    have hlayout₂ := (congrArg SegmentTable.layout hconstants).trans hlayout
    exact .inr ⟨_, rfl, SegmentTable.allocSegment?_enlist hlayout₂ fun _ => hsame.ephemeral, hcan⟩
  | stuck hsize hacquire _ hreplace =>
    obtain ⟨_, hx, _⟩ := hfound hsize hacquire
    cases ((hx.append _ _).replaceEphemeral (find?_append_self ..) hreplace).1

/-! ## Blocks -/

/-- A segment with room has a block, unless there is a fault. Then nothing changes but the faults that
are still to come. -/
theorem bump_finds (hs : a.table.find? id = some s) {r : Except HeapError (Option Nat)}
    (hrun : bump id size a = .ok (r, a')) :
    ((∃ b, r = .ok (some b)) ∧ s.allocated + size ≤ s.range.start + s.range.size) ∨
      (r = .ok none ∧ a' = a ∧ s.range.start + s.range.size < s.allocated + size) ∨
      (∃ e, r = .error e) ∧ a'.healed = a.healed ∧ ¬ a.provider.Willing ∧
        s.allocated + size ≤ s.range.start + s.range.size := by
  rcases bump_cases hrun with ⟨_, _, hnone⟩ | ⟨x, hx, hfull | ⟨hroom, q, a₁, hcommit, hq⟩⟩
  · cases hs.symm.trans hnone
  · cases hs.symm.trans hx
    exact .inr (.inl hfull)
  · cases hs.symm.trans hx
    cases q with
    | ok committed => exact .inl ⟨⟨_, hq.1⟩, hroom⟩
    | error e =>
      obtain ⟨rfl, rfl⟩ := hq
      rcases commitUpTo_cases hcommit with ⟨he, _⟩ | ⟨y, q, provider, hprovider, rfl, he, _⟩
      · cases he
      · cases q with
        | ok => cases he
        | error e' =>
          refine .inr (.inr ⟨⟨_, rfl⟩, ?_, fun hw => ?_, hroom⟩)
          · unfold healed
            rw [Provider.healed_commit hprovider]
          · cases (Provider.commit_of_willing hprovider hw).1

/-! ## Empty segments -/

theorem retains_decommitPart {r : Except HeapError Unit}
    (hrun : decommitPart s a = .ok (r, a')) : Retains g a a' := by
  obtain ⟨-, -, rfl⟩ | ⟨provider, hdecommit, rfl⟩ := decommitPart_cases hrun
  · exact .refl g _
  · exact ⟨.refl g _, Provider.retains_decommit hdecommit⟩

theorem retains_returnRange {r : Except HeapError Unit}
    (hrun : returnRange s a = .ok (r, a')) : Retains g a a' := by
  obtain ⟨-, -, rfl⟩ | ⟨-, provider, hrelease, rfl⟩ := returnRange_cases hrun
  · exact ⟨⟨rfl, fun _ hid => hid, rfl, fun _ hs => ⟨_, hs, rfl, Nat.le_refl _⟩,
      fun _ => List.cons_ne_nil _ _⟩, .refl _⟩
  · exact ⟨.refl g _, Provider.retains_release hrelease⟩

/-- An empty segment is no loss for `g`, unless it allocates there. -/
theorem retains_decommitIfEmpty {r : Except HeapError Bool}
    (hrun : decommitIfEmpty id space a = .ok (r, a')) : a.provider.Retains a'.provider ∧
      ((id ∈ a.table.owned.get g → a.table.allocSegment? g ≠ some id) → a.table.Retains g a'.table) := by
  cases hs : a.table.find? id with
  | none =>
    cases decommitIfEmpty_of_find?_eq_none hs hrun
    exact ⟨.refl _, fun _ => .refl g _⟩
  | some s =>
    cases decommitIfEmpty_cases hs hrun with
    | kept => exact ⟨.refl _, fun _ => .refl g _⟩
    | charged _ _ hpart =>
      have h₁ : Retains g a a' := retains_decommitPart hpart
      exact ⟨h₁.provider, fun _ => h₁.table⟩
    | reserved _ _ hpart hreturn =>
      have h₂ : Retains g a a' := (retains_decommitPart hpart).trans (retains_returnRange hreturn)
      exact ⟨h₂.provider, fun _ => h₂.table⟩
    | @gone a₁ a₂ heph _ hpart hreturn =>
      have h₂ : Retains g a a₂ := (retains_decommitPart hpart).trans (retains_returnRange hreturn)
      refine ⟨h₂.provider, fun hactive => h₂.table.trans ?_⟩
      have hne : a₂.table.allocSegment? g ≠ some id := by
        rw [h₂.table.active]
        intro halloc
        refine hactive ?_ halloc
        obtain ⟨-, hyes⟩ | ⟨-, hlast⟩ := SegmentTable.allocSegment?_eq_some_iff.1 halloc
        · exact absurd hyes heph
        · exact List.mem_of_getLast? hlast
      refine ⟨rfl, fun _ hid => (SegmentTable.mem_owned_delist.1 hid).1,
        SegmentTable.allocSegment?_delist hne, fun halloc hs => ?_, fun hpool => hpool⟩
      refine ⟨_, ?_, rfl, Nat.le_refl _⟩
      rw [SegmentTable.find?_forget, if_neg]
      · exact hs
      · rintro rfl
        exact hne halloc

end SegmentArena

end GenHeap
