import GenHeap.Proofs.Books
import GenHeap.Proofs.Compaction
import GenHeap.Proofs.Marking

/-!
The bytes of all objects. A space counts them as objects come and go, and its count is right: it is
the sum of the sizes of the objects that are there. What is booked of an object is its size, its
logical heap and its generation, so changes of anything else leave all portions of the bytes alone.
-/

namespace GenHeap

namespace ObjectSpace

/-- The sizes of some objects, summed up. -/
def weight (objects : List (Nat × Record)) : Nat := Word.total (objects.map (·.2.size))

/-- The count of bytes is right. -/
def Weighed (s : ObjectSpace) : Prop := s.totalBytes = weight s.entries

variable {s s' : ObjectSpace} {a : Nat} {r : Record}

theorem entries_nodup (s : ObjectSpace) : s.entries.Nodup := by
  refine (entries_pairwise s).imp fun {x y} hlt he => ?_
  rw [he] at hlt
  exact Nat.lt_irrefl _ hlt

/-- The objects are those that can be looked up. -/
theorem entries_perm {objects : List (Nat × Record)} (hnodup : objects.Nodup)
    (hmem : ∀ a r, (a, r) ∈ objects ↔ s.get? a = some r) : s.entries.Perm objects :=
  (List.perm_ext_iff_of_nodup (entries_nodup s) hnodup).2 fun (a, r) =>
    mem_entries.trans (hmem a r).symm

theorem weight_perm {xs ys : List (Nat × Record)} (h : xs.Perm ys) : weight xs = weight ys :=
  Word.total_perm (h.map _)

theorem weight_cons (x : Nat × Record) (xs : List (Nat × Record)) :
    weight (x :: xs) = x.2.size + weight xs :=
  Word.total_cons ..

theorem weight_append (xs ys : List (Nat × Record)) : weight (xs ++ ys) = weight xs + weight ys := by
  unfold weight
  rw [List.map_append, Word.total_append]

/-- What is read off the records lists the same where it looks the same everywhere. -/
theorem entries_congr {α : Type} {f : Record → α}
    (h : ∀ a, (s'.get? a).map f = (s.get? a).map f) :
    (s'.entries.map fun x => (x.1, f x.2)).Perm (s.entries.map fun x => (x.1, f x.2)) := by
  have hnodup (s : ObjectSpace) : (s.entries.map fun x => (x.1, f x.2)).Nodup := by
    rw [List.nodup_iff_pairwise_ne, List.pairwise_map]
    refine (entries_pairwise s).imp fun {x y} hlt he => ?_
    exact Nat.ne_of_lt hlt (Prod.mk.inj he).1
  have hmem (s : ObjectSpace) (a : Nat) (y : α) :
      (a, y) ∈ s.entries.map (fun x => (x.1, f x.2)) ↔ (s.get? a).map f = some y := by
    simp only [List.mem_map, Prod.exists, Prod.mk.injEq, mem_entries, Option.map_eq_some_iff]
    constructor
    · rintro ⟨_, r, hr, rfl, rfl⟩
      exact ⟨r, hr, rfl⟩
    · rintro ⟨r, hr, rfl⟩
      exact ⟨a, r, hr, rfl, rfl⟩
  refine (List.perm_ext_iff_of_nodup (hnodup s') (hnodup s)).2 fun (a, y) => ?_
  rw [hmem, hmem, h]

theorem weight_congr (h : ∀ a, (s'.get? a).map (·.size) = (s.get? a).map (·.size)) :
    weight s'.entries = weight s.entries := by
  have hread (xs : List (Nat × Record)) :
      weight xs = Word.total ((xs.map fun x => (x.1, x.2.size)).map Prod.snd) := by
    rw [List.map_map]
    rfl
  rw [hread, hread, Word.total_perm ((entries_congr h).map Prod.snd)]

/-- One object in front of the others. -/
theorem nodup_cons_others (s : ObjectSpace) (a : Nat) (r : Record) :
    ((a, r) :: s.entries.filter (·.1 != a)).Nodup := by
  refine List.nodup_cons.2 ⟨fun hin => ?_, (entries_nodup s).filter _⟩
  have hne := (List.mem_filter.1 hin).2
  simp at hne

theorem entries_split (hr : s.get? a = some r) :
    s.entries.Perm ((a, r) :: s.entries.filter (·.1 != a)) := by
  refine entries_perm (nodup_cons_others s a r) fun b q => ?_
  rw [List.mem_cons, List.mem_filter, mem_entries, bne_iff_ne, Prod.mk.injEq]
  constructor
  · rintro (⟨rfl, rfl⟩ | ⟨hq, _⟩)
    · exact hr
    · exact hq
  · intro hq
    by_cases hb : b = a
    · subst hb
      exact .inl ⟨rfl, Option.some.inj (hq.symm.trans hr)⟩
    · exact .inr ⟨hq, hb⟩

theorem entries_insert (hrun : s.insert a r = .ok s') :
    s'.entries.Perm ((a, r) :: s.entries.filter (·.1 != a)) := by
  refine entries_perm (nodup_cons_others s a r) fun b q => ?_
  rw [get?_insert hrun, List.mem_cons, List.mem_filter, mem_entries, bne_iff_ne, Prod.mk.injEq]
  by_cases hb : a = b
  · subst hb
    simp [eq_comm]
  · simp [hb, Ne.symm hb]

theorem entries_removeWhere (s : ObjectSpace) (p : Nat → Record → Bool) :
    (s.removeWhere p).2.entries.Perm (s.entries.filter fun x => !p x.1 x.2) := by
  refine entries_perm ((entries_nodup s).filter _) fun b q => ?_
  rw [List.mem_filter, mem_entries, get?_removeWhere, Option.filter_eq_some_iff]

/-- What is removed and what is left. -/
theorem entries_parts (s : ObjectSpace) (p : Nat → Record → Bool) :
    s.entries.Perm ((s.removeWhere p).1 ++ (s.removeWhere p).2.entries) := by
  have hparts : ((s.entries.filter fun x => p x.1 x.2) ++
      s.entries.filter fun x => !p x.1 x.2).Perm s.entries := List.filter_append_perm ..
  exact hparts.symm.trans ((List.Perm.refl _).append (entries_removeWhere s p).symm)

theorem others_of_get?_eq_none (hr : s.get? a = none) : s.entries.filter (·.1 != a) = s.entries := by
  refine List.filter_eq_self.2 fun x hx => ?_
  rw [bne_iff_ne]
  rintro rfl
  rw [mem_entries.1 hx] at hr
  cases hr

theorem weight_entries (s : ObjectSpace) (a : Nat) :
    weight s.entries = s.sizeAt a + weight (s.entries.filter (·.1 != a)) := by
  unfold sizeAt
  cases hr : s.get? a with
  | none => rw [others_of_get?_eq_none hr, Option.elim_none, Nat.zero_add]
  | some r => rw [Option.elim_some, ← weight_cons (a, r), weight_perm (entries_split hr)]

/-! ## Operations -/

theorem entries_empty : ({} : ObjectSpace).entries = [] :=
  List.perm_nil.1 <| entries_perm List.nodup_nil fun a r => by
    rw [get?_empty]
    exact ⟨nofun, nofun⟩

theorem weighed_empty : Weighed {} := by
  unfold Weighed
  rw [entries_empty]
  rfl

theorem Weighed.insert (h : s.Weighed) (hrun : s.insert a r = .ok s') : s'.Weighed := by
  have hperm := entries_insert hrun
  unfold ObjectSpace.insert at hrun
  rw [Checked.bind_eq_ok] at hrun
  obtain ⟨total, htotal, hrun⟩ := hrun
  rw [Checked.pure_eq_ok] at hrun
  rw [Word.add_eq_ok_iff] at htotal
  have hsplit := weight_entries s a
  have htotal' : s'.totalBytes = total - s.sizeAt a := by
    rw [← hrun]
  have hcons := weight_cons (a, r) (s.entries.filter (·.1 != a))
  simp only at hcons
  unfold Weighed at h ⊢
  rw [weight_perm hperm, hcons, htotal', ← htotal.2]
  omega

theorem weight_insert_le (hrun : s.insert a r = .ok s') :
    weight s'.entries ≤ weight s.entries + r.size := by
  have hsplit := weight_entries s a
  rw [weight_perm (entries_insert hrun), weight_cons]
  dsimp only
  omega

theorem Weighed.erase (h : s.Weighed) (a : Nat) : (s.erase a).Weighed := by
  have hperm : (s.erase a).entries.Perm (s.entries.filter (·.1 != a)) := by
    refine entries_perm ((entries_nodup s).filter _) fun b q => ?_
    rw [List.mem_filter, mem_entries, bne_iff_ne, get?_erase]
    by_cases hb : a = b
    · subst hb
      simp
    · simp [hb, Ne.symm hb]
  have hsplit := weight_entries s a
  unfold Weighed at h ⊢
  show s.totalBytes - s.sizeAt a = _
  rw [weight_perm hperm]
  omega

theorem weight_update {f : Record → Record} (hf : ∀ r, (f r).size = r.size) (a : Nat) :
    weight (s.update a f).entries = weight s.entries := by
  refine weight_congr fun b => ?_
  rw [get?_update]
  split
  · rw [Option.map_map]
    exact congrArg (Option.map · _) (funext hf)
  · rfl

theorem Weighed.update (h : s.Weighed) {f : Record → Record} (hf : ∀ r, (f r).size = r.size)
    (a : Nat) : (s.update a f).Weighed :=
  h.trans (weight_update hf a).symm

theorem weight_mapRecords {f : Nat → Record → Record} (hf : ∀ a r, (f a r).size = r.size) :
    weight (s.mapRecords f).entries = weight s.entries := by
  refine weight_congr fun b => ?_
  rw [get?_mapRecords, Option.map_map]
  exact congrArg (Option.map · _) (funext (hf b))

theorem Weighed.mapRecords (h : s.Weighed) {f : Nat → Record → Record}
    (hf : ∀ a r, (f a r).size = r.size) : (s.mapRecords f).Weighed :=
  h.trans (weight_mapRecords hf).symm

theorem weight_removeWhere_le (s : ObjectSpace) (p : Nat → Record → Bool) :
    weight (s.removeWhere p).2.entries ≤ weight s.entries := by
  rw [weight_perm (entries_parts s p), weight_append]
  exact Nat.le_add_left ..

theorem Weighed.removeWhere (h : s.Weighed) (p : Nat → Record → Bool) :
    (s.removeWhere p).2.Weighed := by
  have hparts := weight_perm (entries_parts s p)
  rw [weight_append] at hparts
  unfold Weighed at h ⊢
  show s.totalBytes - weight (s.removeWhere p).1 = _
  omega

theorem Weighed.foldl_erase (h : s.Weighed) (moves : List (Nat × Nat × Record)) :
    (moves.foldl (fun s x => s.erase x.1) s).Weighed := by
  induction moves generalizing s with
  | nil => exact h
  | cons x moves ih => exact ih (h.erase x.1)

theorem Weighed.apply {p : CompactionPlan} (h : s.Weighed) (hrun : p.apply s = .ok s') :
    s'.Weighed := by
  rw [CompactionPlan.apply_eq] at hrun
  split at hrun
  · cases hrun
    exact h
  · simp only [Checked.bind_eq_ok, Checked.pure_eq_ok] at hrun
    obtain ⟨moved, hmoved, rfl⟩ := hrun
    refine Weighed.mapRecords ?_ fun _ _ => rfl
    exact Checked.foldlM_induct Weighed (fun _ _ _ _ hk hstep => hk.insert hstep)
      (h.foldl_erase (p.moves s)) hmoved

/-! ## Portions -/

/-- The sizes of the objects of some logical heaps and generations, summed up. -/
def portion (p : Nat → Generation → Bool) (objects : List (Nat × Record)) : Nat :=
  weight (objects.filter fun x => p x.2.heap x.2.generation)

theorem portion_all (objects : List (Nat × Record)) : portion (fun _ _ => true) objects =
    weight objects := by
  unfold portion
  rw [List.filter_eq_self.2 fun _ _ => rfl]

theorem portion_cons (p : Nat → Generation → Bool) (x : Nat × Record) (xs : List (Nat × Record)) :
    portion p (x :: xs) = (if p x.2.heap x.2.generation then x.2.size else 0) + portion p xs := by
  unfold portion
  rw [List.filter_cons]
  split
  · rw [weight_cons]
  · rw [Nat.zero_add]

theorem portion_perm {p : Nat → Generation → Bool} {xs ys : List (Nat × Record)} (h : xs.Perm ys) :
    portion p xs = portion p ys :=
  weight_perm (h.filter _)

/-- What is booked of an object. -/
def posting (r : Record) : Nat × Nat × Generation := (r.size, r.heap, r.generation)

/-- Portions are read off the postings. -/
theorem portion_eq (p : Nat → Generation → Bool) (objects : List (Nat × Record)) :
    portion p objects = Word.total ((objects.map fun x => posting x.2).map fun y =>
      if p y.2.1 y.2.2 then y.1 else 0) := by
  induction objects with
  | nil => rfl
  | cons x xs ih =>
    rw [portion_cons, ih]
    rfl

/-- Two spaces hold the same bytes for all logical heaps and generations. -/
def SamePortions (s s' : ObjectSpace) : Prop := ∀ p, portion p s'.entries = portion p s.entries

theorem SamePortions.weight (h : s.SamePortions s') : weight s'.entries = weight s.entries := by
  have hall := h fun _ _ => true
  rwa [portion_all, portion_all] at hall

theorem SamePortions.refl (s : ObjectSpace) : s.SamePortions s := fun _ => rfl

theorem SamePortions.trans {s'' : ObjectSpace} (h : s.SamePortions s') (h' : s'.SamePortions s'') :
    s.SamePortions s'' := fun p => (h' p).trans (h p)

theorem samePortions_of_perm {f : Nat × Record → Nat × Record}
    (h : s'.entries.Perm (s.entries.map f)) (hf : ∀ x, posting (f x).2 = posting x.2) :
    s.SamePortions s' := by
  intro p
  have hmap : (s.entries.map f).map (fun x => posting x.2) = s.entries.map fun x => posting x.2 := by
    rw [List.map_map]
    exact List.map_congr_left fun x _ => hf x
  rw [portion_perm h, portion_eq, portion_eq, hmap]

theorem samePortions_of_get? (h : ∀ a, (s'.get? a).map posting = (s.get? a).map posting) :
    s.SamePortions s' := by
  intro p
  have hread (xs : List (Nat × Record)) : xs.map (fun x => posting x.2) =
      (xs.map fun x => (x.1, posting x.2)).map Prod.snd := by
    rw [List.map_map]
    rfl
  have hperm := ((entries_congr h).map Prod.snd).map fun y : Nat × Nat × Generation =>
    if p y.2.1 y.2.2 then y.1 else 0
  rw [portion_eq, portion_eq, hread, hread, Word.total_perm hperm]

theorem samePortions_update {f : Record → Record} (hf : ∀ r, posting (f r) = posting r) (a : Nat) :
    s.SamePortions (s.update a f) := by
  apply samePortions_of_get?
  intro b
  rw [get?_update]
  split
  · rw [Option.map_map]
    exact congrArg (Option.map · _) (funext hf)
  · rfl

theorem samePortions_mapRecords {f : Nat → Record → Record}
    (hf : ∀ a r, posting (f a r) = posting r) : s.SamePortions (s.mapRecords f) := by
  apply samePortions_of_get?
  intro a
  rw [get?_mapRecords, Option.map_map]
  exact congrArg (Option.map · _) (funext (hf a))

end ObjectSpace

/-! ## Marking -/

/-- What every visit keeps, a search keeps. -/
theorem Worklist.drain_induct {σ : Type} {visit : σ → Nat → σ × List Nat} (I : σ → Prop)
    (hvisit : ∀ s a, I s → I (visit s a).1) (fuel : Nat) {s : σ} (work : List Nat) (hs : I s) :
    I (drain visit fuel s work) := by
  induction fuel generalizing s work with
  | zero => exact hs
  | succ fuel ih =>
    cases work with
    | nil => exact hs
    | cons a work => exact ih _ (hvisit s a hs)

namespace Marking

variable {workers threshold : Nat} {c : Generation} {seeds : List Nat} {s : ObjectSpace}

theorem visit_induct (I : ObjectSpace → Prop)
    (hmark : ∀ s a, I s → I (s.update a fun r => { r with marked := true })) (p : Progress)
    (a : Nat) (hp : I p.space) : I (visit c p a).1.space := by
  unfold visit
  split
  · exact hp
  · split
    · exact hmark _ _ hp
    · exact hp

/-- What marking one object keeps, marking many keeps. -/
theorem trace_induct (I : ObjectSpace → Prop)
    (hmark : ∀ s a, I s → I (s.update a fun r => { r with marked := true })) (hs : I s) :
    I (trace workers threshold c s seeds).space := by
  have hserial (p : Progress) (xs : List Nat) (hp : I p.space) : I (traceSerial c p xs).space :=
    Worklist.drain_induct (fun p : Progress => I p.space) (visit_induct I hmark) _ _ hp
  unfold trace
  split
  · exact hserial _ _ hs
  · have hchunks (cs : List (List Nat)) (p : Progress) (hp : I p.space) :
        I (cs.foldl (traceSerial c) p).space := by
      induction cs generalizing p with
      | nil => exact hp
      | cons x cs ih => exact ih _ (hserial p x hp)
    exact hchunks _ _ hs

theorem samePortions_trace : s.SamePortions (trace workers threshold c s seeds).space :=
  trace_induct (fun s' => s.SamePortions s') (fun _ a h => h.trans
    (ObjectSpace.samePortions_update (f := fun r => { r with marked := true }) (fun _ => rfl) a))
    (.refl s)

theorem weighed_trace (hs : s.Weighed) : (trace workers threshold c s seeds).space.Weighed :=
  trace_induct ObjectSpace.Weighed
    (fun _ a h => h.update (f := fun r => { r with marked := true }) (fun _ => rfl) a) hs

/-- Marking in a pause traces what is left without the marks from before. -/
theorem mark_traces {cards : CardTable} {ranges : List (Nat × Nat)} {p : Progress} {scan : CardScan}
    (hrun : mark workers threshold s seeds c cards ranges = .ok (p, scan)) :
    ∃ found, p = trace workers threshold c s.clearMarks found := by
  unfold mark at hrun
  simp only at hrun
  split at hrun
  · rw [Checked.bind_eq_ok] at hrun
    obtain ⟨_, _, hrun⟩ := hrun
    cases hrun
    exact ⟨_, rfl⟩
  · cases hrun
    exact ⟨_, rfl⟩

theorem weighed_mark {cards : CardTable} {ranges : List (Nat × Nat)} {p : Progress} {scan : CardScan}
    (hs : s.Weighed) (hrun : mark workers threshold s seeds c cards ranges = .ok (p, scan)) :
    p.space.Weighed := by
  obtain ⟨_, rfl⟩ := mark_traces hrun
  exact weighed_trace (hs.mapRecords fun _ _ => rfl)

theorem samePortions_mark {cards : CardTable} {ranges : List (Nat × Nat)} {p : Progress}
    {scan : CardScan} (hrun : mark workers threshold s seeds c cards ranges = .ok (p, scan)) :
    s.SamePortions p.space := by
  obtain ⟨_, rfl⟩ := mark_traces hrun
  have hclear : s.SamePortions s.clearMarks := ObjectSpace.samePortions_mapRecords fun _ _ => rfl
  exact hclear.trans samePortions_trace

end Marking

end GenHeap
