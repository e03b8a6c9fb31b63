import GenHeap.Proofs.CardTable
import GenHeap.Proofs.Marking

/-!
What a scan of dirty cards finds: only references of older objects to condemned ones, and all those
whose slots are on dirty cards of the scanned ranges.
-/

namespace GenHeap.Marking

open ObjectSpace (Apart)

variable {s : ObjectSpace} {c : Generation} {cards : CardTable} {scan : CardScan}
  {ranges : List (Nat × Nat)} {a o t : Nat} {r : Record}

theorem mem_oldToCondemned {objects : List Nat} : t ∈ oldToCondemned s c objects ↔
    ∃ o ∈ objects, ∃ r, s.get? o = some r ∧ r.generation.condemnedBy c = false ∧
      t ∈ r.references ∧ s.Condemned c t := by
  simp only [oldToCondemned, List.mem_flatMap, List.mem_filter, List.mem_filterMap,
    Bool.not_eq_true', Option.any_eq_true]
  constructor
  · rintro ⟨r, ⟨⟨o, ho, hr⟩, hc⟩, ht, hq⟩
    exact ⟨o, ho, r, hr, hc, ht, hq⟩
  · rintro ⟨o, ho, r, hr, hc, ht, hq⟩
    exact ⟨r, ⟨⟨o, ho, hr⟩, hc⟩, ht, hq⟩

/-- A scan looks at every card, and its seeds are those of the cards on top of the seeds before. -/
theorem foldlM_scanCard {list : List Nat} {scan scan' : CardScan}
    (h : list.foldlM (scanCard s c cards) scan = .ok scan') :
    scan'.consumed = scan.consumed ++ list ∧
      (∀ card ∈ list, ∃ lo hi objects,
        cards.bounds card = .ok (lo, hi) ∧ s.overlapping lo hi = .ok objects) ∧
      ∀ t, t ∈ scan'.seeds ↔ t ∈ scan.seeds ∨ ∃ card ∈ list, ∃ lo hi objects,
        cards.bounds card = .ok (lo, hi) ∧ s.overlapping lo hi = .ok objects ∧
        t ∈ oldToCondemned s c objects := by
  induction list generalizing scan with
  | nil =>
    rw [List.foldlM_nil, Checked.pure_eq_ok] at h
    subst h
    simp
  | cons card list ih =>
    rw [List.foldlM_cons, Checked.bind_eq_ok] at h
    obtain ⟨mid, hmid, h⟩ := h
    obtain ⟨hcons, hall, hseeds⟩ := ih h
    simp only [scanCard, Checked.bind_eq_ok, Checked.pure_eq_ok, Prod.exists] at hmid
    obtain ⟨lo, hi, hb, objects, ho, rfl⟩ := hmid
    refine ⟨?_, ?_, ?_⟩
    · rw [hcons, List.append_assoc]
      rfl
    · intro k hk
      rcases List.mem_cons.1 hk with rfl | hk
      · exact ⟨lo, hi, objects, hb, ho⟩
      · exact hall k hk
    · intro t
      rw [hseeds, List.mem_append, or_assoc]
      refine or_congr_right ?_
      constructor
      · rintro (ht | ⟨k, hk, hrest⟩)
        · exact ⟨card, List.mem_cons_self, lo, hi, objects, hb, ho, ht⟩
        · exact ⟨k, List.mem_cons_of_mem _ hk, hrest⟩
      · rintro ⟨k, hk, lo', hi', objects', hb', ho', ht⟩
        rcases List.mem_cons.1 hk with rfl | hk
        · rw [hb] at hb'
          cases hb'
          rw [ho] at ho'
          cases ho'
          exact .inl ht
        · exact .inr ⟨k, hk, lo', hi', objects', hb', ho', ht⟩

/-- Every seed is referred to by an older object. -/
theorem scanCards_sound (h : scanCards s c cards ranges = .ok scan) (ht : t ∈ scan.seeds) :
    ∃ o r, s.get? o = some r ∧ r.generation.condemnedBy c = false ∧ t ∈ r.references ∧
      s.Condemned c t := by
  rw [(foldlM_scanCard h).2.2] at ht
  rcases ht with ht | ⟨card, _, lo, hi, objects, _, _, ht⟩
  · cases ht
  · obtain ⟨o, _, r, hr, hc, ht⟩ := mem_oldToCondemned.1 ht
    exact ⟨o, r, hr, hc, ht⟩

theorem mem_dirtyCards : a ∈ dirtyCards cards ranges ↔
    ∃ start stop, (start, stop) ∈ ranges ∧ a ∈ cards.dirtyIn start stop := by
  simp only [dirtyCards, List.mem_flatMap, Prod.exists]

/-- A reference of an older object whose slot is on a scanned card becomes a seed. -/
theorem scanCards_complete (hs : s.Apart) (h : scanCards s c cards ranges = .ok scan)
    (hr : s.get? o = some r) (hc : r.generation.condemnedBy c = false) (ht : t ∈ r.references)
    (hcond : s.Condemned c t) {card : Nat} (hcard : card ∈ dirtyCards cards ranges)
    (hi : cards.index? a = some card) (ha : a < Word.count) (hpos : 0 < cards.cardSize)
    (hin : o ≤ a ∧ a < o + r.size) : t ∈ scan.seeds := by
  obtain ⟨lo, hi', objects, hb, ho⟩ := (foldlM_scanCard h).2.1 card hcard
  have hbounds := CardTable.mem_bounds hb hi ha hpos
  have hmem : o ∈ objects :=
    (hs.spread.mem_overlapping ho (CardTable.bounds_le hb)).2 ⟨r, hr, by omega, by omega⟩
  rw [(foldlM_scanCard h).2.2]
  exact .inr ⟨card, hcard, lo, hi', objects, hb, ho,
    mem_oldToCondemned.2 ⟨o, hmem, r, hr, hc, ht, hcond⟩⟩

end GenHeap.Marking
