import GenHeap.Marking
import GenHeap.Proofs.ObjectSpace
import GenHeap.Proofs.Worklist

/-!
Tracing is exact: it marks the condemned objects that the seeds reach through condemned objects,
no matter how the seeds are shared out, and changes nothing but marks.
-/

namespace GenHeap

open Worklist (Reached Search)

/-! ## The object graph -/

namespace ObjectSpace

/-- The references of the object at an address. -/
def references (s : ObjectSpace) (a : Nat) : List Nat := (s.get? a).elim [] Record.references

def Condemned (s : ObjectSpace) (c : Generation) (a : Nat) : Prop :=
  ∃ r, s.get? a = some r ∧ r.generation.condemnedBy c = true

def Marked (s : ObjectSpace) (a : Nat) : Prop := ∃ r, s.get? a = some r ∧ r.marked = true

/-- The same objects, of which other ones may be marked. -/
def SameButMarks (s s' : ObjectSpace) : Prop :=
  ∀ a, (s'.get? a).map ({ · with marked := false }) = (s.get? a).map ({ · with marked := false })

variable {s s' s'' : ObjectSpace} {a t : Nat} {r : Record} {c : Generation}

theorem references_eq (h : s.get? a = some r) : s.references a = r.references := by
  rw [references, h, Option.elim_some]

theorem mem_references : t ∈ s.references a ↔ ∃ r, s.get? a = some r ∧ t ∈ r.slots ∧ t ≠ 0 := by
  unfold references
  cases h : s.get? a with
  | none => simp
  | some r => simp [Record.references]

theorem condemned_gen2 (s : ObjectSpace) : s.Condemned .gen2 = (s.contains · = true) := by
  funext a
  refine propext ⟨fun h => ?_, fun h => ?_⟩
  · obtain ⟨r, hr, _⟩ := h
    exact contains_iff.2 ⟨r, hr⟩
  · obtain ⟨r, hr⟩ := contains_iff.1 h
    exact ⟨r, hr, by cases r.generation <;> rfl⟩

theorem Condemned.contains (h : s.Condemned c a) : s.contains a = true := by
  obtain ⟨r, hr, _⟩ := h
  exact contains_iff.2 ⟨r, hr⟩

namespace SameButMarks

theorem refl (s : ObjectSpace) : SameButMarks s s := fun _ => rfl

theorem symm (h : SameButMarks s s') : SameButMarks s' s := fun a => (h a).symm

theorem trans (h : SameButMarks s s') (h' : SameButMarks s' s'') : SameButMarks s s'' :=
  fun a => (h' a).trans (h a)

theorem get? (h : SameButMarks s s') (hr : s.get? a = some r) :
    ∃ m, s'.get? a = some { r with marked := m } := by
  have ha := h a
  rw [hr] at ha
  cases hq : s'.get? a with
  | none =>
    rw [hq] at ha
    cases ha
  | some q =>
    rw [hq] at ha
    refine ⟨q.marked, ?_⟩
    cases q
    cases r
    simp_all

theorem references (h : SameButMarks s s') : s'.references = s.references := by
  funext a
  cases hr : s.get? a with
  | none =>
    have ha := h a
    rw [hr, Option.map_none, Option.map_eq_none_iff] at ha
    rw [ObjectSpace.references, ObjectSpace.references, hr, ha]
  | some r =>
    obtain ⟨m, hm⟩ := h.get? hr
    rw [references_eq hm, references_eq hr]
    rfl

theorem condemned_iff (h : SameButMarks s s') : s'.Condemned c a ↔ s.Condemned c a := by
  have hmono {s s' : ObjectSpace} (h : SameButMarks s s') (hc : s.Condemned c a) :
      s'.Condemned c a := by
    obtain ⟨r, hr, hc⟩ := hc
    obtain ⟨m, hm⟩ := h.get? hr
    exact ⟨_, hm, hc⟩
  exact ⟨hmono h.symm, hmono h⟩

theorem condemned_eq (h : SameButMarks s s') : s'.Condemned c = s.Condemned c :=
  funext fun _ => propext h.condemned_iff

theorem contains_iff (h : SameButMarks s s') : s'.contains a = true ↔ s.contains a = true := by
  have hmono {s s' : ObjectSpace} (h : SameButMarks s s') (hc : s.contains a = true) :
      s'.contains a = true := by
    obtain ⟨r, hr⟩ := ObjectSpace.contains_iff.1 hc
    obtain ⟨m, hm⟩ := h.get? hr
    exact ObjectSpace.contains_iff.2 ⟨_, hm⟩
  exact ⟨hmono h.symm, hmono h⟩

theorem apart (h : SameButMarks s s') (hs : s.Apart) : s'.Apart where
  minBytes_le hr := by
    obtain ⟨_, hq⟩ := h.symm.get? hr
    have := hs.minBytes_le hq
    exact this
  stop_le hr hq hlt := by
    obtain ⟨_, hr'⟩ := h.symm.get? hr
    obtain ⟨_, hq'⟩ := h.symm.get? hq
    have := hs.stop_le hr' hq' hlt
    exact this

end SameButMarks

theorem sameButMarks_clearMarks (s : ObjectSpace) : SameButMarks s s.clearMarks := by
  intro a
  rw [get?_clearMarks, Option.map_map]
  rfl

theorem not_marked_clearMarks (s : ObjectSpace) (a : Nat) : ¬ s.clearMarks.Marked a := by
  rintro ⟨r, hr, hm⟩
  rw [get?_clearMarks, Option.map_eq_some_iff] at hr
  obtain ⟨q, _, rfl⟩ := hr
  cases hm

/-! ## Marks -/

def isMarked (s : ObjectSpace) (a : Nat) : Bool := (s.get? a).any (·.marked)

theorem isMarked_iff : s.isMarked a = true ↔ s.Marked a := by
  rw [isMarked, Option.any_eq_true]
  rfl

theorem sameButMarks_update (s : ObjectSpace) (a : Nat) :
    SameButMarks s (s.update a ({ · with marked := true })) := by
  intro b
  rw [get?_update]
  split
  · rw [Option.map_map]
    rfl
  · rfl

theorem marked_update (hr : s.get? a = some r) (b : Nat) :
    (s.update a ({ · with marked := true })).Marked b ↔ s.Marked b ∨ b = a := by
  unfold Marked
  rw [get?_update]
  by_cases hab : a = b
  · subst hab
    simp [hr]
  · rw [if_neg hab]
    simp [Ne.symm hab]

/-- Spaces with the same objects and the same marks look the same everywhere. -/
theorem SameButMarks.get?_eq (h : SameButMarks s s') (hmarked : ∀ a, s'.Marked a ↔ s.Marked a)
    (a : Nat) : s'.get? a = s.get? a := by
  have ha := h a
  cases hr : s.get? a with
  | none =>
    rw [hr, Option.map_none, Option.map_eq_none_iff] at ha
    exact ha
  | some r =>
    obtain ⟨m, hm⟩ := h.get? hr
    have heq : s'.isMarked a = s.isMarked a := by
      rw [Bool.eq_iff_iff, isMarked_iff, isMarked_iff, hmarked]
    rw [isMarked, isMarked, hm, hr] at heq
    have hmark : m = r.marked := heq
    rw [hm, hmark]

/-! ## The cost of a search -/

/-- The slots of the objects that are not done yet. -/
def slotsLeft (s : ObjectSpace) (done : Nat → Bool) : Nat :=
  Word.total (s.entries.map fun e => if done e.1 then 0 else e.2.slots.length)

theorem slotsLeft_le (s : ObjectSpace) (done : Nat → Bool) : s.slotsLeft done ≤ s.slotCount := by
  unfold slotsLeft slotCount
  generalize s.entries = l
  induction l with
  | nil => exact Nat.le_refl 0
  | cons x l ih =>
    simp only [List.map_cons, Word.total_cons]
    split <;> omega

theorem total_left_le {done done' : Nat → Bool} (hmono : ∀ b, done b = true → done' b = true)
    (l : List (Nat × Record)) :
    Word.total (l.map fun e => if done' e.1 then 0 else e.2.slots.length) ≤
      Word.total (l.map fun e => if done e.1 then 0 else e.2.slots.length) := by
  induction l with
  | nil => exact Nat.le_refl 0
  | cons x l ih =>
    simp only [List.map_cons, Word.total_cons]
    cases h : done x.1 with
    | true =>
      rw [hmono _ h]
      simpa using ih
    | false => split <;> simp <;> omega

theorem slotsLeft_anti {done done' : Nat → Bool} (hmono : ∀ b, done b = true → done' b = true) :
    s.slotsLeft done' ≤ s.slotsLeft done :=
  total_left_le hmono _

theorem slotsLeft_add_le {done done' : Nat → Bool} (hr : s.get? a = some r)
    (hmono : ∀ b, done b = true → done' b = true) (hold : done a = false)
    (hnew : done' a = true) : s.slotsLeft done' + r.references.length ≤ s.slotsLeft done := by
  have hlen : r.references.length ≤ r.slots.length := List.length_filter_le _ _
  have hle := total_left_le hmono
  have hmem := mem_entries.2 hr
  unfold slotsLeft
  generalize s.entries = l at hmem
  induction l with
  | nil => cases hmem
  | cons x l ih =>
    simp only [List.map_cons, Word.total_cons]
    rcases List.mem_cons.1 hmem with rfl | hmem
    · have := hle l
      simp only [hold, hnew, if_true, Bool.false_eq_true, if_false]
      omega
    · have := ih hmem
      have := hle [x]
      simp only [List.map_cons, Word.total_cons, List.map_nil, Word.total_nil] at this
      omega

end ObjectSpace

open ObjectSpace (SameButMarks)

namespace Marking

variable {s : ObjectSpace} {c : Generation}

/-- A visit marks and counts a condemned object without a mark and finds its references; at any
other address it does nothing. -/
theorem visit_cases (c : Generation) (p : Progress) (a : Nat) :
    (∃ r, p.space.get? a = some r ∧ r.generation.condemnedBy c = true ∧ r.marked = false ∧
      visit c p a = ({ space := p.space.update a ({ · with marked := true })
                       objects := p.objects + 1
                       bytes := p.bytes + r.size }, r.references)) ∨
    visit c p a = (p, []) ∧ (p.space.Condemned c a → p.space.Marked a) := by
  unfold visit
  cases hr : p.space.get? a with
  | none =>
    refine .inr ⟨rfl, ?_⟩
    rintro ⟨q, hq, _⟩
    cases hr.symm.trans hq
  | some r =>
    by_cases hfresh : r.generation.condemnedBy c = true ∧ r.marked = false
    · refine .inl ⟨r, rfl, hfresh.1, hfresh.2, ?_⟩
      simp only [hfresh, Bool.not_false, Bool.and_self, if_true]
    · have hskip : (r.generation.condemnedBy c && !r.marked) = false := by
        rwa [← Bool.not_eq_true, Bool.and_eq_true, Bool.not_eq_true']
      refine .inr ⟨by simp only [hskip, Bool.false_eq_true, if_false], ?_⟩
      rintro ⟨q, hq, hc⟩
      cases hr.symm.trans hq
      cases hm : r.marked with
      | true => exact ⟨r, hr, hm⟩
      | false => exact absurd ⟨hc, hm⟩ hfresh

/-- Visits mark condemned objects, each once. -/
theorem search (s : ObjectSpace) (c : Generation) :
    Search (visit c) (s.Condemned c) s.references (fun p => p.space.Marked)
      (fun p => s.slotsLeft p.space.isMarked) (fun p => SameButMarks s p.space) := by
  have hfresh {p : Progress} {a : Nat} (hs : SameButMarks s p.space) (ha : s.Condemned c a)
      (hn : ¬ p.space.Marked a) : ∃ r, p.space.get? a = some r ∧
        (visit c p a).1.space = p.space.update a ({ · with marked := true }) ∧
        (visit c p a).2 = s.references a := by
    rcases visit_cases c p a with ⟨r, hr, _, _, hvisit⟩ | ⟨_, hold⟩
    · rw [hvisit, ← hs.references, ObjectSpace.references_eq hr]
      exact ⟨r, hr, rfl, rfl⟩
    · exact absurd (hold (hs.condemned_iff.2 ha)) hn
  have hmarks {p : Progress} {a : Nat} (hs : SameButMarks s p.space) (ha : s.Condemned c a)
      (hn : ¬ p.space.Marked a) (b : Nat) :
      (visit c p a).1.space.Marked b ↔ p.space.Marked b ∨ b = a := by
    obtain ⟨r, hr, hspace, _⟩ := hfresh hs ha hn
    rw [hspace, ObjectSpace.marked_update hr]
  refine ⟨?_, ?_, ?_, ?_, ?_⟩
  · intro p a hs ha hn
    obtain ⟨_, _, hspace, _⟩ := hfresh hs ha hn
    rw [hspace]
    exact hs.trans (ObjectSpace.sameButMarks_update _ _)
  · intro p a hs ha hn
    obtain ⟨_, _, _, hfound⟩ := hfresh hs ha hn
    exact hfound
  · intro p a b hs ha hn _
    exact hmarks hs ha hn b
  · intro p a hs ha hn
    have hmark {b : Nat} := (hmarks hs ha hn b).trans (or_congr_left ObjectSpace.isMarked_iff.symm)
    obtain ⟨r, hr, _⟩ := id ha
    rw [ObjectSpace.references_eq hr]
    apply ObjectSpace.slotsLeft_add_le hr
    · intro b hb
      exact ObjectSpace.isMarked_iff.2 (hmark.2 (.inl hb))
    · rwa [← Bool.not_eq_true, ObjectSpace.isMarked_iff]
    · exact ObjectSpace.isMarked_iff.2 (hmark.2 (.inr rfl))
  · intro p a hs hold
    rcases visit_cases c p a with ⟨r, hr, hc, hm, _⟩ | ⟨hvisit, _⟩
    · obtain ⟨q, hq, hmq⟩ := hold (hs.condemned_iff.1 ⟨r, hr, hc⟩)
      cases hr.symm.trans hq
      rw [hm] at hmq
      cases hmq
    · exact hvisit

/-- The effect of a trace from seeds on a space. -/
structure Traced (s : ObjectSpace) (c : Generation) (seeds : Nat → Prop) (s' : ObjectSpace) :
    Prop where
  same : SameButMarks s s'
  marked_iff : ∀ a, s.Condemned c a →
    (s'.Marked a ↔ s.Marked a ∨ Reached (s.Condemned c) s.references seeds a)
  closed : Search.Closed (s.Condemned c) s.references s'.Marked []

theorem traced_traceSerial {p : Progress} {seeds : List Nat}
    (h : Search.Closed (p.space.Condemned c) p.space.references p.space.Marked []) :
    Traced p.space c (· ∈ seeds) (traceSerial c p seeds).space := by
  have hmem (t : Nat) : t ∈ Worklist.add [] seeds ↔ t ∈ seeds := by
    simp only [Worklist.add, List.append_nil, List.mem_reverse]
  have hlen : (Worklist.add [] seeds).length = seeds.length := by
    simp only [Worklist.add, List.append_nil, List.length_reverse]
  have hclosed : Search.Closed (p.space.Condemned c) p.space.references p.space.Marked
      (Worklist.add [] seeds) := by
    intro a t ha hm ht he
    exact .inl ((h a t ha hm ht he).resolve_right List.not_mem_nil)
  have hd := (search p.space c).drain (seeds.length + p.space.slotCount)
    (Worklist.add [] seeds) (SameButMarks.refl p.space) (by
      have := p.space.slotsLeft_le p.space.isMarked
      omega)
  refine ⟨hd.keeps, ?_, hd.closes hclosed⟩
  intro a ha
  rw [← show (· ∈ Worklist.add [] seeds) = (· ∈ seeds) from funext fun t => propext (hmem t)]
  exact hd.done_iff hclosed ha

theorem Traced.congr {s s' : ObjectSpace} {seeds seeds' : Nat → Prop} (h : Traced s c seeds s')
    (hseeds : ∀ a, s.Condemned c a → (seeds a ↔ seeds' a)) : Traced s c seeds' s' := by
  refine ⟨h.same, fun a ha => ?_, h.closed⟩
  rw [h.marked_iff a ha, Worklist.reached_congr hseeds]

theorem Traced.closed_after {s s' : ObjectSpace} {seeds : Nat → Prop} (h : Traced s c seeds s') :
    Search.Closed (s'.Condemned c) s'.references s'.Marked [] := by
  rw [h.same.condemned_eq, h.same.references]
  exact h.closed

theorem Traced.then {s s' s'' : ObjectSpace} {seeds seeds' : Nat → Prop}
    (h : Traced s c seeds s') (h' : Traced s' c seeds' s'') :
    Traced s c (fun a => seeds a ∨ seeds' a) s'' := by
  have hmarked := h'.marked_iff
  have hclosed := h'.closed
  rw [h.same.condemned_eq, h.same.references] at hmarked hclosed
  refine ⟨h.same.trans h'.same, fun a ha => ?_, hclosed⟩
  rw [hmarked a ha, h.marked_iff a ha, Worklist.reached_or_iff, or_assoc]

/-- Where nothing was marked before, the marks tell what the seeds reach. -/
theorem Traced.marked_of_clear {s s' : ObjectSpace} {seeds : Nat → Prop}
    (h : Traced s.clearMarks c seeds s') {a : Nat} (ha : s.Condemned c a) :
    s'.Marked a ↔ Reached (s.Condemned c) s.references seeds a := by
  have hsame := ObjectSpace.sameButMarks_clearMarks s
  rw [h.marked_iff a (hsame.condemned_iff.2 ha),
    or_iff_right (ObjectSpace.not_marked_clearMarks _ a), hsame.condemned_eq, hsame.references]

/-- Tracing marks what the seeds reach, whatever the number of workers. -/
theorem traced_trace {s : ObjectSpace} {seeds : List Nat} (workers threshold : Nat)
    (h : Search.Closed (s.Condemned c) s.references s.Marked []) :
    Traced s c (· ∈ seeds) (trace workers threshold c s seeds).space := by
  unfold trace
  split
  · exact traced_traceSerial (p := { space := s }) h
  · have hchunks (cs : List (List Nat)) (p : Progress)
        (h : Search.Closed (p.space.Condemned c) p.space.references p.space.Marked []) :
        Traced p.space c (· ∈ cs.flatten) (cs.foldl (traceSerial c) p).space := by
      induction cs generalizing p with
      | nil =>
        refine ⟨.refl _, fun a ha => ⟨.inl, ?_⟩, h⟩
        rintro (hm | hr)
        · exact hm
        · refine hr.of_closed (fun b hb => absurd hb List.not_mem_nil) fun b t hb hd ht he => ?_
          exact (h b t hb hd ht he).resolve_right List.not_mem_nil
      | cons x cs ih =>
        have hx : Traced p.space c (· ∈ x) (traceSerial c p x).space := traced_traceSerial h
        have := hx.then (ih _ hx.closed_after)
        rwa [← show (· ∈ (x :: cs).flatten) = fun a => a ∈ x ∨ a ∈ cs.flatten from
          funext fun a => propext (by simp)] at this
    have := hchunks (chunks (Word.pieces seeds.length workers - 1) seeds) { space := s } h
    rwa [flatten_chunks] at this

end Marking

end GenHeap
