import GenHeap.Proofs.Heap.Preservation

/-!
A background cycle from the operation in which it begins to its completion, with any operations
between. What the roots reach at the end is left in its place, and so is all that was made meanwhile.
-/

namespace GenHeap

open Worklist (Reached)

namespace Heap

variable {h₀ h₁ h₂ h' : Heap} {op : Operation} {ops : List Operation}

/-- What is made during a cycle is live at its end. -/
theorem live_of_made (hr : h₀.Reachable) (hop : op.apply h₀ = .ok h₁)
    (hcycle : h₁.background.isSome = true) (hops : ∀ op ∈ ops, op ≠ .abortBackground)
    (hrun : h₁.run ops = .ok h₂) (hn : h₂.collections = h₁.collections) :
    ∃ b, h₂.background = some b ∧ ∀ a, h₂.space.contains a = true →
      h₀.space.contains a = true ∨ b.isLive a = true := by
  obtain ⟨hm₁, hborn, _⟩ := apply_eq_ok hr.sound hop
  obtain ⟨b₁, hb₁⟩ := Option.isSome_iff_exists.1 hcycle
  obtain ⟨b₂, hb₂, hlive, hnew⟩ := ((leads_run hm₁ hops hrun).continues hn).cycle b₁ hb₁
  refine ⟨b₂, hb₂, fun a ha => ?_⟩
  rcases hnew a ha with hold | hl
  · exact (hborn b₁ hb₁ a hold).imp_right (hlive a hold)
  · exact .inr hl

/-- The completion of a cycle removes nothing that is reached from the roots at its end, from an
entry that it makes ready, or was made since the cycle began; what is left stays as it is, but for
its age. -/
theorem completeBackground_keeps {answer : Except HeapError (Option CollectionSummary)}
    (hr : h₀.Reachable) (hop : op.apply h₀ = .ok h₁) (hcycle : h₁.background.isSome = true)
    (hops : ∀ op ∈ ops, op ≠ .abortBackground) (hrun : h₁.run ops = .ok h₂)
    (hn : h₂.collections = h₁.collections) (hend : completeBackground h₂ = .ok (answer, h')) :
    (∃ summary, answer = .ok (some summary)) ∧
    (∀ a, h₂.InUse a → h'.space.contains a = true) ∧
    (∀ a, h₂.space.contains a = true → h₀.space.contains a = false →
      h'.space.contains a = true) ∧
    (∀ (i : Nat) l, h₂.heaps[i]? = some l → ∃ l' made, h'.heaps[i]? = some l' ∧
      l'.finalization.running = l.finalization.running ∧
      l'.finalization.ready = l.finalization.ready ++ made ∧
      ∀ a, Reached (h₂.space.contains · = true) h₂.space.references
        (fun a => ∃ e ∈ made, e.object = a) a → h'.space.contains a = true) ∧
    (∀ a q, h'.space.get? a = some q → ∃ r, h₂.space.get? a = some r ∧ r.Carried .gen2 id q) ∧
    (∀ id kind a, kind ≠ .weak → h₂.handles.find? id = some ⟨kind, a⟩ →
      h'.handles.find? id = some ⟨kind, a⟩) ∧
    ∀ o r t, h'.space.get? o = some r → t ∈ r.slots → t ≠ 0 → h'.space.contains t = true := by
  obtain ⟨b, hb, hmade⟩ := live_of_made hr hop hcycle hops hrun hn
  have hm := ((Reachable.step op hr hop).run hrun).sound
  obtain ⟨summary, live, rfl, hc⟩ := completeBackground_eq_ok hm hb hend
  have hleft {a : Nat} (ha : h₂.space.contains a = true) (hl : live a) :
      h'.space.contains a = true := by
    obtain ⟨r, hget⟩ := ObjectSpace.contains_iff.1 ha
    exact ObjectSpace.contains_iff.2 ⟨_, hc.forth hget hl⟩
  have hreached {seeds : Nat → Prop} (hseeds : ∀ a, seeds a → h₂.space.contains a = true → live a)
      {a : Nat} (ha : Reached (h₂.space.contains · = true) h₂.space.references seeds a) :
      h'.space.contains a = true :=
    hleft ha.within (ha.of_closed hseeds fun _ _ hin hl ht _ => hc.references hl hin ht)
  refine ⟨⟨summary, rfl⟩, fun a => hreached fun t ht _ => hc.roots (mem_roots.1 ht), ?_, ?_, ?_, ?_,
    hc.sound.closed.slots⟩
  · intro a ha hnew
    refine hleft ha (hc.cycle ha ?_)
    rcases hmade a ha with hold | hl
    · rw [hnew] at hold
      cases hold
    · exact hl
  · intro i l hl
    obtain ⟨found, hq⟩ := hc.queues
    obtain ⟨l', hl', he⟩ := getElem?_queues hq hl
    refine ⟨l', l.finalization.unreachable .gen2 found, hl', by rw [he]; rfl, by rw [he]; rfl,
      fun a => hreached ?_⟩
    rintro _ ⟨e, hmem, rfl⟩ _
    obtain ⟨g, _, hpending, _⟩ := FinalizationQueue.mem_unreachable.1 hmem
    exact hc.pending (List.mem_map_of_mem (List.mem_of_getElem? hl)) hpending
  · intro a q hq
    obtain ⟨ha, hl⟩ := hc.back hq
    obtain ⟨r, hget⟩ := ObjectSpace.contains_iff.1 ha
    cases hq.symm.trans (hc.forth hget hl)
    have hcarried : r.Carried .gen2 id (aged .gen2 { r with slots := r.slots.map id }) :=
      Record.carried_aged
    rw [List.map_id] at hcarried
    exact ⟨r, hget, hcarried⟩
  · intro id kind a hkind hid
    obtain ⟨found, _, hhandles⟩ := hc.handles
    have hhandles : h'.handles = h₂.handles.clearDeadWeak found := hhandles
    rw [hhandles]
    exact HandleTable.find?_clearDeadWeak_of_ne hid hkind

/-- The only reference to an object goes from one that is still to be traced to a new one, before
the tracer has taken a step. -/
theorem completeBackground_keeps_page : ∃ h₀ h₁ h₂ h' ops answer, h₀.Reachable ∧
    Operation.apply h₀ .startBackground = .ok h₁ ∧ h₁.run ops = .ok h₂ ∧
    completeBackground h₂ = .ok (answer, h') ∧ h₀.space.references 4096 = [4144] ∧
    h₂.space.references 4096 = [] ∧ h₂.space.references 4240 = [4144] ∧
    h₂.space.entries.map (·.1) = [4096, 4144, 4192, 4240] ∧
    h'.space.entries.map (·.1) = [4096, 4144, 4240] ∧
    (∀ a, h₂.InUse a → h'.space.contains a = true) := by
  have hpage : leadsTo pageConfig
      [.allocate 0 { size := 48, generation := .gen2, slots := 1 },
        .allocate 0 { size := 48, generation := .gen2 },
        .allocate 0 { size := 48, generation := .gen2 }, .writeSlot 4096 0 4144,
        .createHandle .strong 4096]
      (fun h₀ => h₀.space.references 4096 == [4144] &&
        (Operation.apply h₀ .startBackground).toOption.any fun h₁ => h₁.background.isSome &&
          (h₁.run [.allocate 0 { size := 48, generation := .gen2, slots := 1 },
            .writeSlot 4240 0 4144, .writeSlot 4096 0 0, .createHandle .strong 4240, .traceStep,
            .traceStep]).toOption.any fun h₂ => (h₂.collections == h₁.collections &&
              h₂.space.references 4096 == [] && h₂.space.references 4240 == [4144] &&
              h₂.space.entries.map (·.1) == [4096, 4144, 4192, 4240]) &&
            (completeBackground.apply h₂).toOption.any fun x =>
              x.2.space.entries.map (·.1) == [4096, 4144, 4240]) = true := by
    decide +kernel
  obtain ⟨h₀, hr, hp⟩ := exists_of_leadsTo hpage
  obtain ⟨hbefore, hp⟩ := Bool.and_eq_true_iff.1 hp
  obtain ⟨h₁, hop, hp⟩ := Checked.of_any hp
  obtain ⟨hcycle, hp⟩ := Bool.and_eq_true_iff.1 hp
  obtain ⟨h₂, hrun, hp⟩ := Checked.of_any hp
  obtain ⟨hend, hp⟩ := Bool.and_eq_true_iff.1 hp
  obtain ⟨⟨answer, h'⟩, hcomplete, hleft⟩ := Checked.of_any hp
  simp only [Bool.and_eq_true, beq_iff_eq] at hend
  obtain ⟨⟨⟨hn, hold⟩, hnew⟩, hobjects⟩ := hend
  obtain ⟨_, hkeeps, _⟩ := completeBackground_keeps hr hop hcycle (by simp) hrun hn hcomplete
  exact ⟨h₀, h₁, h₂, h', _, answer, hr, hop, hrun, hcomplete, eq_of_beq hbefore, hold, hnew,
    hobjects, eq_of_beq hleft, hkeeps⟩

end Heap

end GenHeap
