import GenHeap.Proofs.Heap.Healing
import GenHeap.Proofs.Heap.Placement

/-!
How a search for a block ends where no free span has room. It finds one if one is ready, unless the
provider refuses a range or a commit; and what was ready for it before a refusal is ready after it.
-/

namespace GenHeap

/-- Whether a block of so many bytes is ready for `g` in a logical heap. -/
def Memory.Ready (m : Memory) (i : Nat) (g : Generation) (size : Nat) : Prop :=
  ∃ t, m.tables[i]? = some t ∧ SegmentArena.Ready ⟨t, m.provider⟩ g size

namespace Heap

variable {h h' : Heap} {i size : Nat} {l : LogicalHeap} {g : Generation} {arena : SegmentArena}

theorem ready_iff (hheap : h.heaps[i]? = some l) :
    h.memory.Ready i g size ↔ (h.arena l).Ready g size := by
  have ht := getElem?_tables hheap
  constructor
  · rintro ⟨t, hi, hready⟩
    cases ht.symm.trans hi
    exact hready
  · exact fun hready => ⟨_, ht, hready⟩

theorem ready_withArena (hheap : h.heaps[i]? = some l) (ha : arena.Ready g size) :
    (h.withArena i arena).memory.Ready i g size := by
  have hheap' : (h.withArena i arena).heaps[i]? = some { l with segments := arena.table } :=
    getElem?_modifyHeap hheap
  exact (ready_iff hheap').2 ha

theorem ready_healed : h.healed.memory.Ready i g size ↔ h.memory.Ready i g size :=
  exists_congr fun _ => and_congr_right fun _ => ⟨(·.congr rfl), (·.congr rfl)⟩

/-- Faults that an operation on segments uses up make no other difference. -/
theorem healed_withArena (hheap : h.heaps[i]? = some l) (hsame : arena.healed = (h.arena l).healed) :
    (h.withArena i arena).healed = h.healed := by
  calc (h.withArena i arena).healed = h.healed.withArena i arena.healed := rfl
    _ = h.healed.withArena i (h.arena l).healed := by rw [hsame]
    _ = (h.withArena i (h.arena l)).healed := rfl
    _ = h.healed := by rw [withArena_arena hheap]

/-- How a search ends that finds no free span. -/
inductive Sought (i : Nat) (g : Generation) (size : Nat) (h : Heap) :
    Except OutOfMemory.Reason (Nat × Nat) → Heap → Prop where
  | found {p h'} (hready : h.memory.Ready i g size) : Sought i g size h (.ok p) h'
  /-- Nothing is ready, and only that is noted. -/
  | exhausted {reason h'} (hnot : ¬ h.memory.Ready i g size)
      (hsame : h'.healed = (h.countExpansion i .noMemory).healed) : Sought i g size h (.error reason) h'
  | refused {reason h'} (hnot : ¬ h.provider.Willing) (hready : h.memory.Ready i g size)
      (hready' : h'.memory.Ready i g size) : Sought i g size h (.error reason) h'

theorem sought_in_new (hl : h.memory.Laid) (hheap : h.heaps[i]? = some l)
    (hfull : ∀ {id s}, l.segments.allocSegment? g = some id → l.segments.find? id = some s →
      s.range.start + s.range.size < s.allocated + size)
    {y : Except OutOfMemory.Reason (Nat × Nat)} (hp : PlacesInNew i g size h y h') :
    Sought i g size h y h' := by
  have hsound : (h.arena l).Sound _ _ := hl.housed.arena_sound (getElem?_tables hheap)
  cases hp with
  | without _ hgrow =>
    obtain ⟨arena, hq, rfl⟩ := (onArena_eq_ok hheap).1 hgrow
    rcases hsound.grow_finds hq with ⟨e, he, hsame, hnot⟩ | ⟨_, he, _⟩
    · by_cases hcan : (h.arena l).CanGrow g size
      · refine .refused (fun hw => hnot hw hcan) ((ready_iff hheap).2 (.ahead hcan)) ?_
        rw [memory_countExpansion]
        exact ready_withArena hheap (.congr (.ahead hcan) hsame)
      · refine .exhausted (fun hready => ?_) ?_
        · cases (ready_iff hheap).1 hready with
          | behind halloc hs hroom => exact absurd (hfull halloc hs) (Nat.not_lt_of_le hroom)
          | ahead h => exact hcan h
        · calc ((h.withArena i arena).countExpansion i .noMemory).healed =
                (h.withArena i arena).healed.countExpansion i .noMemory := rfl
            _ = h.healed.countExpansion i .noMemory := by rw [healed_withArena hheap hsame]
    · cases he
  | @grown growth _ _ _ x hgrow hbump =>
    obtain ⟨arena, hq, rfl⟩ := (onArena_eq_ok hheap).1 hgrow
    have hheap₁ : ((h.withArena i arena).countExpansion i x).heaps[i]? = some
        { l with segments := arena.table, counters := l.counters.recordExpansion x } :=
      getElem?_modifyHeap (getElem?_modifyHeap hheap)
    obtain ⟨arena', hq', rfl⟩ := (onArena_eq_ok hheap₁).1 hbump
    have hq' : SegmentArena.bump growth.segment size arena = _ := hq'
    rcases hsound.grow_finds hq with ⟨_, he, _⟩ | ⟨_, he, halloc, hcan⟩
    · cases he
    · cases he
      have hready : h.memory.Ready i g size := (ready_iff hheap).2 (.ahead hcan)
      obtain ⟨_, _, ⟨_, he, hopens⟩ | ⟨_, he, _⟩⟩ := hsound.grow hq
      · cases he
        obtain ⟨s, hs, hempty, hwide⟩ := hopens.room
        have hroom : s.allocated + size ≤ s.range.start + s.range.size := by
          rw [hempty]
          exact Nat.add_le_add_left hwide _
        rcases SegmentArena.bump_finds hs hq' with ⟨⟨b, rfl⟩, _⟩ | ⟨_, _, hover⟩ |
          ⟨⟨e, rfl⟩, hsame, hnot, _⟩
        · exact .found hready
        · exact absurd hover (Nat.not_lt_of_le hroom)
        · refine .refused (fun hw => hnot ((SegmentArena.conforms_grow hq).willing hw)) hready ?_
          -- the new segment stays, and the generation allocates there
          exact ready_withArena hheap₁ (.congr (.behind halloc hs hroom) hsame)
      · cases he

/-- Whether some segment in which `g` looks for room has a free span. -/
def HasSpan (l : LogicalHeap) (g : Generation) (size : Nat) : Prop :=
  ∃ x, takeFree size l.segments (l.segments.candidates g) = .ok (some x)

theorem sought_tryPlace (hl : h.memory.Laid) (hheap : h.heaps[i]? = some l)
    (hlimit : h.config.hardLimit = none) {y : Except OutOfMemory.Reason (Nat × Nat)}
    (hrun : tryPlace i g size h = .ok (.ok y, h')) :
    ((∃ p, y = .ok p) ∧ HasSpan l g size) ∨ ¬ HasSpan l g size ∧ Sought i g size h y h' := by
  have hsound : (h.arena l).Sound _ _ := hl.housed.arena_sound (getElem?_tables hheap)
  have hother {l' : LogicalHeap} (hl' : h.heaps[i]? = some l') : l' = l :=
    Option.some.inj (hl'.symm.trans hheap)
  have hwithout (hfree : takeFree size l.segments (l.segments.candidates g) = .ok none) :
      ¬ HasSpan l g size := by
    rintro ⟨x, hx⟩
    cases hfree.symm.trans hx
  obtain ⟨q, hplace, hq⟩ := tryPlace_stages.1 hrun
  cases hq
  rcases place_cases hplace with ⟨hover, _⟩ | ⟨_, hp⟩
  · rw [hlimit] at hover
    cases hover
  · cases hp with
    | nowhere hnone => cases hnone.symm.trans hheap
    | span hheap' hfree =>
      cases hother hheap'
      exact .inl ⟨⟨_, rfl⟩, _, hfree⟩
    | behind hheap' hfree hseg hbump hq =>
      cases hother hheap'
      refine .inr ⟨hwithout hfree, ?_⟩
      obtain ⟨s, hs⟩ := hsound.wellFormed.allocSegment?_live hseg
      obtain ⟨arena, hbumped, rfl⟩ := (onArena_eq_ok hheap).1 hbump
      rcases SegmentArena.bump_finds hs hbumped with ⟨⟨b, rfl⟩, hroom⟩ | ⟨hnone, _⟩ |
        ⟨⟨e, rfl⟩, hsame, hnot, hroom⟩
      · exact .found ((ready_iff hheap).2 (.behind hseg hs hroom))
      · exact absurd hnone hq
      · have hready : (h.arena l).Ready g size := .behind hseg hs hroom
        exact .refused hnot ((ready_iff hheap).2 hready)
          (ready_withArena hheap (hready.congr hsame))
    | ahead hheap' hfree hseg hnew =>
      cases hother hheap'
      refine .inr ⟨hwithout hfree, ?_⟩
      rcases hseg with ⟨hseg, rfl⟩ | ⟨id, hseg, hbump⟩
      · exact sought_in_new hl hheap (fun hid => nomatch hseg.symm.trans hid) hnew
      · obtain ⟨s, hs⟩ := hsound.wellFormed.allocSegment?_live hseg
        obtain ⟨arena, hbumped, rfl⟩ := (onArena_eq_ok hheap).1 hbump
        rcases SegmentArena.bump_finds hs hbumped with ⟨⟨_, he⟩, _⟩ | ⟨_, rfl, hfull⟩ | ⟨⟨_, he⟩, _⟩
        · cases he
        · rw [withArena_arena hheap] at hnew
          refine sought_in_new hl hheap (fun hid hx => ?_) hnew
          cases hseg.symm.trans hid
          cases hs.symm.trans hx
          exact hfull
        · cases he

theorem tryPlace_denied (hl : h.memory.Laid) (hheap : h.heaps[i]? = some l)
    (hlimit : h.config.hardLimit = none) {reason : OutOfMemory.Reason}
    (hrun : tryPlace i g size h = .ok (.ok (.error reason), h')) :
    ¬ HasSpan l g size ∧ Sought i g size h (.error reason) h' := by
  rcases sought_tryPlace hl hheap hlimit hrun with ⟨⟨_, he⟩, _⟩ | hsought
  · cases he
  · exact hsought

theorem tryPlace_found (hl : h.memory.Laid) (hheap : h.heaps[i]? = some l)
    (hlimit : h.config.hardLimit = none) {p : Nat × Nat}
    (hrun : tryPlace i g size h = .ok (.ok (.ok p), h')) :
    HasSpan l g size ∨ h.memory.Ready i g size := by
  rcases sought_tryPlace hl hheap hlimit hrun with ⟨_, hspan⟩ | ⟨_, hsought⟩
  · exact .inl hspan
  · cases hsought with
    | found hready => exact .inr hready

/-- With a provider that refuses nothing of itself, a search finds what is ready. -/
theorem tryPlace_finds (hl : h.memory.Laid) (hlimit : h.config.hardLimit = none)
    (hw : h.provider.Willing) (hready : h.memory.Ready i g size)
    {y : Except OutOfMemory.Reason (Nat × Nat)}
    (hrun : tryPlace i g size h = .ok (.ok y, h')) : ∃ p, y = .ok p := by
  cases y with
  | ok p => exact ⟨p, rfl⟩
  | error reason =>
    obtain ⟨t, ht, _⟩ := id hready
    obtain ⟨l, hheap, _⟩ := Option.map_eq_some_iff.1 ((List.getElem?_map ..).symm.trans ht)
    cases (tryPlace_denied hl hheap hlimit hrun).2 with
    | exhausted hnot _ => exact absurd hready hnot
    | refused hnot _ _ => exact absurd hw hnot

/-! ## Two searches that differ in the faults only -/

section

variable {k k' : Heap} {reason reason' : OutOfMemory.Reason} {p : Nat × Nat}

theorem heaps_of_healed (hsame : k.healed = h.healed) : k.heaps = h.heaps :=
  show k.healed.heaps = h.healed.heaps by rw [hsame]

theorem config_of_healed (hsame : k.healed = h.healed) : k.config = h.config :=
  show k.healed.config = h.healed.config by rw [hsame]

/-- If one of them finds a block, it is ready for the other one too, and after it. -/
theorem ready_of_found (hl : h.memory.Laid) (hk : k.memory.Laid) (hheap : h.heaps[i]? = some l)
    (hlimit : h.config.hardLimit = none) (hsame : k.healed = h.healed)
    (hrun : tryPlace i g size h = .ok (.ok (.error reason), h'))
    (hfound : tryPlace i g size k = .ok (.ok (.ok p), k')) : h'.memory.Ready i g size := by
  have hheap' : k.heaps[i]? = some l := heaps_of_healed hsame ▸ hheap
  have hlimit' : k.config.hardLimit = none := config_of_healed hsame ▸ hlimit
  obtain ⟨hspan, hsought⟩ := tryPlace_denied hl hheap hlimit hrun
  cases hsought with
  | refused _ _ hready => exact hready
  | exhausted hnot _ =>
    refine absurd ?_ hnot
    rcases tryPlace_found hk hheap' hlimit' hfound with hspan' | hready
    · exact absurd hspan' hspan
    · rw [← ready_healed, ← hsame]
      exact ready_healed.2 hready

/-- If neither finds a block, the second one without faults, they leave the same but for the faults. -/
theorem healed_of_denied (hl : h.memory.Laid) (hk : k.memory.Laid) (hheap : h.heaps[i]? = some l)
    (hlimit : h.config.hardLimit = none) (hsame : k.healed = h.healed) (hw : k.provider.Willing)
    (hrun : tryPlace i g size h = .ok (.ok (.error reason), h'))
    (hrun' : tryPlace i g size k = .ok (.ok (.error reason'), k')) : k'.healed = h'.healed := by
  have hheap' : k.heaps[i]? = some l := heaps_of_healed hsame ▸ hheap
  have hlimit' : k.config.hardLimit = none := config_of_healed hsame ▸ hlimit
  cases (tryPlace_denied hk hheap' hlimit' hrun').2 with
  | refused hnot _ _ => exact absurd hw hnot
  | exhausted hnot hk' =>
    cases (tryPlace_denied hl hheap hlimit hrun).2 with
    | refused _ hready _ =>
      rw [← ready_healed, ← hsame] at hready
      exact absurd (ready_healed.1 hready) hnot
    | exhausted _ hh' =>
      calc k'.healed = k.healed.countExpansion i .noMemory := hk'
        _ = h.healed.countExpansion i .noMemory := by rw [hsame]
        _ = h'.healed := hh'.symm

end

end Heap

end GenHeap
