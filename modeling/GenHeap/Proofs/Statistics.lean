import GenHeap.Proofs.Books
import GenHeap.Statistics
import Mathlib.Data.List.Induction

/-!
Statistics are the summary of the collections recorded in them: their counts, their sums and their
longest pause. The mean pause is right up to the largest number of 32 bits; from there on the sum of
the pauses is divided by what is left of the number of collections, and by a zero if nothing is.
-/

namespace GenHeap.Statistics

/-- Fresh statistics after some collections, the oldest first. -/
def recorded (cs : List CollectionSummary) : Checked Statistics := cs.foldlM recordCollection {}

/-- The collections of one age. -/
def ofTier (g : Generation) (cs : List CollectionSummary) : Nat :=
  cs.countP (·.condemned.condemnTier = g.condemnTier)

/-- The collections of the three ages. -/
def ofTiers (cs : List CollectionSummary) : List Nat :=
  [ofTier .gen0 cs, ofTier .gen1 cs, ofTier .gen2 cs]

/-- The statistics that some collections amount to. -/
def tally (cs : List CollectionSummary) : Statistics where
  collections := ofTiers cs
  backgroundCollections := cs.countP (·.background)
  compactions := cs.countP (·.compaction.isSome)
  totalPause := Word.total (cs.map (·.pause))
  maxPause := (cs.map (·.pause)).max?.getD 0
  totalFreed := Word.total (cs.map (·.bytesFreed))
  totalPromoted := Word.total (cs.map (·.bytesPromoted))
  totalRelocated := Word.total (cs.map (·.objectsRelocated))
  lastCollected := (cs.getLast?.map (·.bytesFreed)).getD 0

/-- The sums that are kept as words are words. -/
structure InRange (cs : List CollectionSummary) : Prop where
  freed : Word.total (cs.map (·.bytesFreed)) < Word.count
  promoted : Word.total (cs.map (·.bytesPromoted)) < Word.count
  relocated : Word.total (cs.map (·.objectsRelocated)) < Word.count

variable {cs ds : List CollectionSummary} {c : CollectionSummary} {f : CollectionSummary → Nat}

theorem InRange.of_append (h : InRange (cs ++ ds)) : InRange cs := by
  obtain ⟨hfreed, hpromoted, hrelocated⟩ := h
  rw [List.map_append, Word.total_append] at hfreed hpromoted hrelocated
  exact ⟨Nat.lt_of_add_right_lt hfreed, Nat.lt_of_add_right_lt hpromoted,
    Nat.lt_of_add_right_lt hrelocated⟩

/-! ## One collection more -/

theorem ofTiers_concat (cs : List CollectionSummary) (c : CollectionSummary) :
    ofTiers (cs ++ [c]) = (ofTiers cs).modify c.condemned.tier (· + 1) := by
  simp only [ofTiers, ofTier, List.countP_append, List.countP_singleton]
  cases c.condemned <;> rfl

theorem total_map_concat (f : CollectionSummary → Nat) (cs : List CollectionSummary)
    (c : CollectionSummary) : Word.total ((cs ++ [c]).map f) = Word.total (cs.map f) + f c := by
  rw [List.map_append, Word.total_append]
  rfl

theorem max?_map_concat (f : CollectionSummary → Nat) (cs : List CollectionSummary)
    (c : CollectionSummary) :
    ((cs ++ [c]).map f).max?.getD 0 = max ((cs.map f).max?.getD 0) (f c) := by
  have hfold (ns : List Nat) : ns.max?.getD 0 = ns.foldl max 0 := by
    rw [List.foldl_max, Nat.zero_max]
  rw [hfold, hfold, List.map_append, List.foldl_append]
  rfl

theorem add_total (h : Word.total ((cs ++ [c]).map f) < Word.count) :
    Word.add (Word.total (cs.map f)) (f c) = .ok (Word.total ((cs ++ [c]).map f)) := by
  rw [total_map_concat] at h ⊢
  exact Word.add_eq_ok_iff.2 ⟨h, rfl⟩

theorem recordCollection_tally (h : InRange (cs ++ [c])) :
    (tally cs).recordCollection c = .ok (tally (cs ++ [c])) := by
  simp only [recordCollection, tally, add_total h.freed, add_total h.promoted,
    add_total h.relocated, ofTiers_concat, List.countP_append, List.countP_singleton,
    total_map_concat (·.pause), max?_map_concat, List.getLast?_concat]
  rfl

/-- What has been recorded is what the collections amount to, after each of them. -/
theorem recorded_eq (h : InRange cs) : recorded cs = .ok (tally cs) := by
  induction cs using List.reverseRecOn with
  | nil => rfl
  | append_singleton cs c ih =>
    have hcs : cs.foldlM recordCollection {} = .ok (tally cs) := ih h.of_append
    rw [recorded, List.foldlM_append, hcs]
    show [c].foldlM recordCollection (tally cs) = _
    rw [List.foldlM_cons, recordCollection_tally h]
    rfl

/-! ## Reading -/

/-- Every collection is one of exactly one age. -/
theorem total_ofTiers (cs : List CollectionSummary) : Word.total (ofTiers cs) = cs.length := by
  induction cs with
  | nil => rfl
  | cons c cs ih =>
    rw [List.length_cons, ← ih]
    simp only [ofTiers, ofTier, List.countP_cons, Word.total_cons, Word.total_nil]
    cases c.condemned <;> simp [Generation.condemnTier] <;> omega

theorem totalCollections_tally (cs : List CollectionSummary) :
    (tally cs).totalCollections = cs.length :=
  total_ofTiers cs

theorem collectionsOf_tally (g : Generation) (cs : List CollectionSummary) :
    (tally cs).collectionsOf g = ofTier g cs := by
  cases g <;> rfl

/-- The mean is right while the number of collections is one of 32 bits. -/
theorem averagePause_of_lt {s : Statistics} (h : s.totalCollections < 0x100000000) :
    s.averagePause = .ok (s.totalPause / s.totalCollections) := by
  unfold averagePause
  by_cases hnone : s.totalCollections = 0
  · rw [if_pos hnone, hnone, Nat.div_zero]
  · rw [if_neg hnone, Nat.mod_eq_of_lt h, if_neg hnone]

theorem averagePause_of_le {s : Statistics} (h : 0x100000000 ≤ s.totalCollections) :
    s.averagePause = if s.totalCollections % 0x100000000 = 0 then .error .zeroDivisor
      else .ok (s.totalPause / (s.totalCollections % 0x100000000)) := by
  have hsome : s.totalCollections ≠ 0 := by omega
  rw [averagePause, if_neg hsome]

/-- Fresh statistics in which collections are recorded hold their counts by age, their sums, their
longest pause and what the last one freed, and nothing else. The mean pause is the sum of the pauses
divided by the number of collections, rounded down, as long as that number is one of 32 bits. From
there on its low 32 bits divide the sum, and where these are zero there is no mean. -/
theorem collections_summarised (h : InRange cs) : recorded cs = .ok (tally cs) ∧
    (tally cs).totalCollections = cs.length ∧
    (∀ g, (tally cs).collectionsOf g = ofTier g cs) ∧
    (cs.length < 0x100000000 →
      (tally cs).averagePause = .ok (Word.total (cs.map (·.pause)) / cs.length)) ∧
    (0x100000000 ≤ cs.length → (tally cs).averagePause =
      if cs.length % 0x100000000 = 0 then .error .zeroDivisor
      else .ok (Word.total (cs.map (·.pause)) / (cs.length % 0x100000000))) := by
  have htotal : (tally cs).totalCollections = cs.length := totalCollections_tally cs
  refine ⟨recorded_eq h, htotal, fun g => collectionsOf_tally g cs, fun hlt => ?_, fun hle => ?_⟩
  · rw [← htotal] at hlt ⊢
    exact averagePause_of_lt hlt
  · rw [← htotal] at hle ⊢
    exact averagePause_of_le hle

/-- A young collection and a full one that ends a background cycle and compacts. -/
def youngThenFull : List CollectionSummary :=
  [{ index := 1, condemned := .gen0, reason := .induced, bytesFreed := 1024, pause := 4000000 },
    { index := 2, condemned := .large, reason := .background, compaction := some .induced,
      background := true, pause := 2000001 }]

theorem collections_summarised_youngThenFull : InRange youngThenFull ∧
    (∃ s, recorded youngThenFull = .ok s ∧ s.collections = [1, 0, 1] ∧ s.maxPause = 4000000 ∧
      s.totalFreed = 1024 ∧ s.lastCollected = 0 ∧ s.averagePause = .ok 3000000) := by
  have h : InRange youngThenFull := ⟨by decide, by decide, by decide⟩
  obtain ⟨hrun, -, -, hmean, -⟩ := collections_summarised h
  exact ⟨h, _, hrun, rfl, rfl, rfl, rfl, hmean (by decide)⟩

/-! ## Too many collections for a mean -/

/-- A collection that frees nothing and pauses for a nanosecond. -/
def idle : CollectionSummary := { index := 1, condemned := .gen0, reason := .induced, pause := 1 }

theorem total_replicate (n k : Nat) : Word.total (List.replicate n k) = n * k := by
  induction n with
  | zero => exact (Nat.zero_mul k).symm
  | succ n ih => rw [List.replicate_succ, Word.total_cons, ih, Nat.succ_mul, Nat.add_comm]

theorem total_map_idle (f : CollectionSummary → Nat) (n : Nat) :
    Word.total ((List.replicate n idle).map f) = n * f idle := by
  rw [List.map_replicate, total_replicate]

theorem inRange_idle (n : Nat) : InRange (List.replicate n idle) := by
  have hzero (f : CollectionSummary → Nat) (hf : f idle = 0) :
      Word.total ((List.replicate n idle).map f) < Word.count := by
    rw [total_map_idle, hf, Nat.mul_zero]
    decide
  exact ⟨hzero (·.bytesFreed) rfl, hzero (·.bytesPromoted) rfl, hzero (·.objectsRelocated) rfl⟩

/-- After 4294967296 collections of a nanosecond each there is no mean pause: the low 32 bits of
their number are zero. -/
theorem averagePause_faults : ∃ s, recorded (List.replicate 0x100000000 idle) = .ok s ∧
    s.totalCollections = 0x100000000 ∧ s.totalPause = 0x100000000 ∧
    s.averagePause = .error .zeroDivisor := by
  have htotal : (tally (List.replicate 0x100000000 idle)).totalCollections = 0x100000000 :=
    (totalCollections_tally _).trans List.length_replicate
  refine ⟨_, recorded_eq (inRange_idle _), htotal, total_map_idle (·.pause) _, ?_⟩
  rw [averagePause_of_le (Nat.le_of_eq htotal.symm), htotal]
  rfl

end GenHeap.Statistics
