import GenHeap.Proofs.Heap.Mutator

/-!
Making cards dirty anew after a collection: exactly those of references to younger objects if all
cards are computed, and at least those of scanned cards and of promoted objects otherwise.
-/

namespace GenHeap

namespace CardTable

/-- The cards of a table on the same grid with those in `extra` dirty too. -/
structure Adds (t t' : CardTable) (extra : Nat → Prop) : Prop where
  grid : SameGrid t t'
  dirty_iff : ∀ card, t'.isCardDirty card = true ↔ t.isCardDirty card = true ∨ extra card

variable {t t' t'' : CardTable} {extra extra' : Nat → Prop}

theorem Adds.trans (h : Adds t t' extra) (h' : Adds t' t'' extra') :
    Adds t t'' fun card => extra card ∨ extra' card where
  grid := h.grid.trans h'.grid
  dirty_iff card := by rw [h'.dirty_iff, h.dirty_iff, or_assoc]

theorem Adds.congr (h : Adds t t' extra) (he : ∀ card, extra card ↔ extra' card) :
    Adds t t' extra' :=
  ⟨h.grid, fun card => (h.dirty_iff card).trans (or_congr_right (he card))⟩

theorem Adds.mono (h : Adds t t' extra) {card : Nat} (hd : t.isCardDirty card = true) :
    t'.isCardDirty card = true :=
  (h.dirty_iff card).2 (.inl hd)

/-- A loop adds what its rounds add. -/
theorem Adds.foldlM {α : Type} {f : CardTable → α → Checked CardTable} {xs : List α}
    {P : α → Nat → Prop}
    (hstep : ∀ u x u', x ∈ xs → SameGrid t u → f u x = .ok u' → Adds u u' (P x))
    (hrun : xs.foldlM f t = .ok t') : Adds t t' fun card => ∃ x ∈ xs, P x card := by
  have hall : ∀ ys : List α, (∀ y ∈ ys, y ∈ xs) → ∀ u, SameGrid t u → ys.foldlM f u = .ok t' →
      Adds u t' fun card => ∃ x ∈ ys, P x card := by
    intro ys
    induction ys with
    | nil =>
      intro _ u _ hrun
      rw [List.foldlM_nil, Checked.pure_eq_ok] at hrun
      subst hrun
      exact ⟨.refl u, fun card => by simp⟩
    | cons y ys ih =>
      intro hys u hu hrun
      rw [List.foldlM_cons, Checked.bind_eq_ok] at hrun
      obtain ⟨v, hv, hrun⟩ := hrun
      have hy := hstep u y v (hys y List.mem_cons_self) hu hv
      have hrest := ih (fun z hz => hys z (List.mem_cons_of_mem _ hz)) v (hu.trans hy.grid) hrun
      refine (hy.trans hrest).congr fun card => ?_
      simp only [List.mem_cons, exists_eq_or_imp]
  exact hall xs (fun _ h => h) t (.refl t) hrun

end CardTable

namespace Heap

open CardTable (Adds SameGrid)

variable {h h' : Heap} {space : ObjectSpace} {cards cards' : CardTable} {a card : Nat} {r : Record}
  {condemned : Generation}

/-- The card of a slot of `r` at `a` that holds a younger object. -/
def YoungerCard (space : ObjectSpace) (cards : CardTable) (x : Nat × Record) (card : Nat) : Prop :=
  ∃ slot t, x.2.slots[slot]? = some t ∧ isYounger space x.2.generation t = true ∧
    cards.index? (Object.slotPlace x.1 slot) = some card

theorem markYounger_adds (hrun : markYounger space cards a r = .ok cards') :
    Adds cards cards' (YoungerCard space cards (a, r)) := by
  have hstep {u u' : CardTable} (x : Nat × Nat) (hu : SameGrid cards u)
      (hx : (do
        if isYounger space r.generation x.1 then
          return u.mark (← Object.slotAddress a x.2)
        return u : Checked CardTable) = .ok u') :
      Adds u u' fun card => isYounger space r.generation x.1 = true ∧
        cards.index? (Object.slotPlace a x.2) = some card := by
    split at hx
    next hy =>
      simp only [Checked.bind_eq_ok, Checked.pure_eq_ok] at hx
      obtain ⟨place, hplace, rfl⟩ := hx
      obtain ⟨rfl, _⟩ := Object.slotAddress_eq_ok.1 hplace
      refine ⟨u.sameGrid_mark _, fun card => ?_⟩
      rw [CardTable.isCardDirty_mark, hu.index?, or_comm]
      simp only [hy, true_and]
    next hy =>
      cases hx
      exact ⟨.refl u, fun card => by simp [hy]⟩
  refine (Adds.foldlM (fun u x u' _ hu hx => hstep x hu hx) hrun).congr fun card => ?_
  simp only [YoungerCard, Prod.exists, List.mem_zipIdx_iff_getElem?]
  exact exists_comm

theorem markYoungerAll_adds {objects : List (Nat × Record)}
    (hrun : markYoungerAll space cards objects = .ok cards') :
    Adds cards cards' fun card => ∃ x ∈ objects, YoungerCard space cards x card := by
  refine Adds.foldlM (fun u x u' _ hu hx => ?_) hrun
  refine (markYounger_adds hx).congr fun card => ?_
  unfold YoungerCard
  simp only [hu.index?]

theorem youngerCard_iff : (∃ x ∈ space.entries, YoungerCard space cards x card) ↔
    ∃ o slot, space.Younger o slot ∧ cards.index? (Object.slotPlace o slot) = some card := by
  simp only [Prod.exists, ObjectSpace.mem_entries, YoungerCard, isYounger_iff]
  constructor
  · rintro ⟨o, r, hr, slot, t, ht, ⟨hne, q, hq, hlt⟩, hi⟩
    exact ⟨o, slot, ⟨r, t, q, hr, ht, hne, hq, hlt⟩, hi⟩
  · rintro ⟨o, slot, ⟨r, t, q, hr, ht, hne, hq, hlt⟩, hi⟩
    exact ⟨o, r, hr, slot, t, ht, ⟨hne, q, hq, hlt⟩, hi⟩

theorem refreshCard_adds (hrun : refreshCard space cards card = .ok cards') :
    ∃ lo hi objects, cards.bounds card = .ok (lo, hi) ∧ space.overlapping lo hi = .ok objects ∧
      Adds cards cards' fun k =>
        ∃ o ∈ objects, ∃ r, space.get? o = some r ∧ YoungerCard space cards (o, r) k := by
  simp only [refreshCard, Checked.bind_eq_ok, Prod.exists] at hrun
  obtain ⟨lo, hi, hb, objects, ho, hrun⟩ := hrun
  refine ⟨lo, hi, objects, hb, ho, (markYoungerAll_adds hrun).congr fun k => ?_⟩
  simp only [List.mem_filterMap, Option.map_eq_some_iff, Prod.exists, Prod.mk.injEq]
  constructor
  · rintro ⟨o, r, ⟨_, ho, _, hr, rfl, rfl⟩, hy⟩
    exact ⟨_, ho, _, hr, hy⟩
  · rintro ⟨o, ho, r, hr, hy⟩
    exact ⟨o, r, ⟨o, ho, r, hr, rfl, rfl⟩, hy⟩

/-- A slot of an object lies on a card. -/
structure SlotOn (space : ObjectSpace) (cards : CardTable) (o slot card : Nat) : Prop where
  inside : ∃ r, space.get? o = some r ∧ Object.slotPlace o slot < o + r.size
  word : Object.slotPlace o slot < Word.count
  index : cards.index? (Object.slotPlace o slot) = some card

/-- A scanned card is dirty again if a slot on it holds a younger object. -/
theorem refreshCard_complete (hspace : space.Apart) (hpos : 0 < cards.cardSize)
    (hrun : refreshCard space cards card = .ok cards') {o slot : Nat} (hy : space.Younger o slot)
    (hon : SlotOn space cards o slot card) : cards'.isCardDirty card = true := by
  obtain ⟨lo, hi, objects, hb, ho, hadds⟩ := refreshCard_adds hrun
  have hab := CardTable.mem_bounds hb hon.index hon.word hpos
  obtain ⟨r, hr, hin⟩ := hon.inside
  have hle : o ≤ Object.slotPlace o slot := Nat.le_add_right ..
  have hmem : o ∈ objects :=
    (hspace.spread.mem_overlapping ho (CardTable.bounds_le hb)).2 ⟨r, hr, by omega, by omega⟩
  obtain ⟨r', t, q, hr', ht, hne, hq, hlt⟩ := hy
  refine (hadds.dirty_iff card).2 (.inr ⟨o, hmem, r', hr', slot, t, ht, ?_, hon.index⟩)
  exact isYounger_iff.2 ⟨hne, q, hq, hlt⟩

theorem SlotOn.congr {o slot : Nat} (h : SlotOn space cards o slot card)
    (hgrid : cards.SameGrid cards') : SlotOn space cards' o slot card :=
  ⟨h.inside, h.word, (hgrid.index? _).trans h.index⟩

theorem refreshAll_complete {list : List Nat} (hspace : space.Apart) (hpos : 0 < cards.cardSize)
    (hrun : list.foldlM (refreshCard space) cards = .ok cards') : cards.SameGrid cards' ∧
      (∀ card, cards.isCardDirty card = true → cards'.isCardDirty card = true) ∧
      ∀ card ∈ list, ∀ o slot, space.Younger o slot → SlotOn space cards o slot card →
        cards'.isCardDirty card = true := by
  induction list generalizing cards with
  | nil =>
    rw [List.foldlM_nil, Checked.pure_eq_ok] at hrun
    subst hrun
    exact ⟨.refl _, fun _ h => h, fun _ hc => absurd hc List.not_mem_nil⟩
  | cons c list ih =>
    rw [List.foldlM_cons, Checked.bind_eq_ok] at hrun
    obtain ⟨mid, hmid, hrun⟩ := hrun
    obtain ⟨_, _, _, _, _, hadds⟩ := refreshCard_adds hmid
    obtain ⟨hgrid, hmono, hlist⟩ := ih (hadds.grid.cardSize ▸ hpos) hrun
    refine ⟨hadds.grid.trans hgrid, fun card hd => hmono card (hadds.mono hd), ?_⟩
    intro card hc o slot hy hon
    rcases List.mem_cons.1 hc with rfl | hc
    · exact hmono card (refreshCard_complete hspace hpos hmid hy hon)
    · exact hlist card hc o slot hy (hon.congr hadds.grid)

/-- All cards computed anew: a card is dirty exactly if a slot on it holds a younger object. -/
theorem refreshCards_full (hrun : h.refreshCards condemned none = .ok h') :
    ∃ cards, h'.memory = { h.memory with cards } ∧ h.cards.SameGrid cards ∧
      ∀ card, cards.isCardDirty card = true ↔
        ∃ o slot, h.space.Younger o slot ∧ h.cards.index? (Object.slotPlace o slot) = some card := by
  simp only [refreshCards, Checked.bind_eq_ok, Checked.pure_eq_ok] at hrun
  obtain ⟨cards, hcards, rfl⟩ := hrun
  have hadds := markYoungerAll_adds hcards
  have hclear := h.cards.sameGrid_clearAll
  refine ⟨cards, rfl, hclear.trans hadds.grid, fun card => ?_⟩
  rw [hadds.dirty_iff, youngerCard_iff]
  simp only [CardTable.isCardDirty_clearAll, Bool.false_eq_true, false_or, hclear.index?]

/-- After a partial collection the slots with younger objects that were on dirty cards, or that belong
to objects of at most one generation above the condemned ones, are on dirty cards. -/
theorem refreshCards_partial {consumed : List Nat} (hspace : h.space.Apart)
    (hpos : 0 < h.cards.cardSize)
    (hrun : h.refreshCards condemned (some consumed) = .ok h') :
    ∃ cards, h'.memory = { h.memory with cards } ∧ h.cards.SameGrid cards ∧
      ∀ o slot card, h.space.Younger o slot → SlotOn h.space h.cards o slot card →
        ((∃ r, h.space.get? o = some r ∧ r.generation.tier ≤ condemned.tier + 1) ∨
          h.cards.isCardDirty card = true) → cards.isCardDirty card = true := by
  simp only [refreshCards, Checked.bind_eq_ok, Checked.pure_eq_ok] at hrun
  obtain ⟨mid, hmid, cards, hcards, rfl⟩ := hrun
  have hclear := h.cards.sameGrid_foldl_clear consumed
  obtain ⟨hgrid, hmono, hscanned⟩ :=
    refreshAll_complete hspace (hclear.cardSize ▸ hpos) hmid
  have hadds := markYoungerAll_adds hcards
  refine ⟨cards, rfl, (hclear.trans hgrid).trans hadds.grid, fun o slot card hy hon hcase => ?_⟩
  rcases hcase with ⟨r, hr, htier⟩ | hd
  · obtain ⟨r', t, q, hr', ht, hne, hq, hlt⟩ := hy
    cases hr.symm.trans hr'
    refine (hadds.dirty_iff card).2 (.inr ⟨(o, r), ?_, slot, t, ht, ?_, ?_⟩)
    · exact List.mem_filter.2 ⟨ObjectSpace.mem_entries.2 hr, by simpa using htier⟩
    · exact isYounger_iff.2 ⟨hne, q, hq, hlt⟩
    · exact ((hclear.trans hgrid).index? _).trans hon.index
  · by_cases hc : card ∈ consumed
    · exact hadds.mono (hscanned card hc o slot hy (hon.congr hclear))
    · exact hadds.mono (hmono card (CardTable.isCardDirty_foldl_clear.2 ⟨hc, hd⟩))

end Heap

end GenHeap
