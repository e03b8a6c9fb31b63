import GenHeap.BackgroundMark
import GenHeap.Proofs.CardScan
import GenHeap.Proofs.MarkBitmap

/-!
Marking beside the embedder. What carries the argument is one invariant: a reference from a live
object leads to a live object or to the worklist, unless its slot is on a written card.
-/

namespace GenHeap

open Worklist (Reached Search)
open ObjectSpace (Apart)

namespace BackgroundMark

variable {b b' : BackgroundMark} {space space' : ObjectSpace} {a c o t : Nat} {r : Record}
  {watch : CardTable} {pending pending' : Nat → Prop}

/-- A step of the tracer changes nothing but its marks, its worklist and whether it is at its end. -/
theorem map_step {β : Type} {g : BackgroundMark → β}
    (hg : ∀ b bitmap worklist finished traced,
      g { b with bitmap, worklist, finished, traced } = g b)
    (space : ObjectSpace) (chunk : Nat) (b : BackgroundMark) : g (step space chunk b) = g b := by
  have hvisit (b : BackgroundMark) (a : Nat) : g (visit space b a).1 = g b := by
    unfold visit
    split
    · rfl
    · split
      · exact hg b (b.bitmap.mark a) b.worklist b.finished (b.traced + 1)
      · rfl
  have hall (batch : List Nat) (x : BackgroundMark × List Nat) :
      g (batch.foldl (fun (x : BackgroundMark × List Nat) a =>
        ((visit space x.1 a).1, x.2 ++ (visit space x.1 a).2)) x).1 = g x.1 := by
    induction batch generalizing x with
    | nil => rfl
    | cons a batch ih => exact (ih _).trans (hvisit x.1 a)
  unfold step
  dsimp only
  split
  · exact hg b b.bitmap b.worklist true b.traced
  · refine Eq.trans (hg _ _ _ _ _) ((hall _ _).trans ?_)
    exact hg b b.bitmap (b.worklist.drop chunk) b.finished b.traced

/-- A bitmap over the bounds of the cycle. -/
structure Matched (b : BackgroundMark) : Prop where
  low : b.bitmap.low = b.low
  high : b.bitmap.high = max b.high b.low

theorem Matched.covers_iff (h : b.Matched) : b.bitmap.covers a = b.covers a := by
  unfold MarkBitmap.covers covers inBounds
  rw [h.low, h.high]
  by_cases hlow : b.low ≤ a
  · have : a < max b.high b.low ↔ a < b.high := by omega
    simp only [this]
  · simp only [hlow, decide_false, Bool.false_and]

/-- The cycle with one more bit set. -/
def setBit (b : BackgroundMark) (a : Nat) : BackgroundMark := { b with bitmap := b.bitmap.mark a }

theorem isLive_traced {n : Nat} : ({ b with traced := n } : BackgroundMark).isLive a = b.isLive a :=
  (rfl)

theorem Matched.setBit (h : b.Matched) (a : Nat) : (b.setBit a).Matched :=
  ⟨MarkBitmap.low_mark.trans h.low, MarkBitmap.high_mark.trans h.high⟩

theorem isLive_setBit_mono (h : b.isLive c = true) : (b.setBit a).isLive c = true := by
  unfold isLive at *
  simp only [Bool.or_eq_true] at *
  exact h.imp_right fun hm => MarkBitmap.isMarked_mark.2 (.inl hm)

/-- Objects have granules of their own, so a bit that is set makes one object live. -/
theorem isLive_setBit (h : b.Matched) (hspace : space.Apart) (hr : space.get? a = some r)
    {q : Record} (hq : space.get? c = some q) :
    (b.setBit a).isLive c = true ↔ b.isLive c = true ∨ c = a := by
  unfold isLive setBit
  show (!b.covers c || _) = true ↔ _
  simp only [Bool.or_eq_true, Bool.not_eq_true', MarkBitmap.isMarked_mark]
  cases hcov : b.covers c with
  | false => simp
  | true =>
    simp only [Bool.true_eq_false, false_or]
    refine or_congr_right ⟨?_, ?_⟩
    · rintro ⟨g, hga, hgc⟩
      have hmin := hspace.minBytes_le hr
      have hmin' := hspace.minBytes_le hq
      rcases Nat.lt_trichotomy a c with hlt | heq | hgt
      · exact absurd hgc (MarkBitmap.granule?_ne hmin hmin' (.inl (hspace.stop_le hr hq hlt)) hga)
      · exact heq.symm
      · exact absurd hgc (MarkBitmap.granule?_ne hmin hmin' (.inr (hspace.stop_le hq hr hgt)) hga)
    · rintro rfl
      have hcovers := h.covers_iff (a := c)
      rw [hcov] at hcovers
      exact ⟨_, if_pos hcovers, if_pos hcovers⟩

/-! ## One visit -/

theorem visit_live (h : b.Matched) (hlive : space.contains a = true → b.isLive a = true) :
    visit space b a = (b, []) := by
  unfold visit
  cases hr : space.get? a with
  | none => rfl
  | some r =>
    have hl := hlive (ObjectSpace.contains_iff.2 ⟨r, hr⟩)
    have hcond : (b.covers a && b.bitmap.isNews a) = false := by
      unfold MarkBitmap.isNews
      rw [h.covers_iff]
      unfold isLive at hl
      cases hc : b.covers a with
      | false => rfl
      | true =>
        rw [hc] at hl
        simp only [Bool.not_true, Bool.false_or] at hl
        rw [hl]
        rfl
    simp only [hcond, Bool.false_eq_true, if_false]

theorem visit_white (h : b.Matched) (hr : space.get? a = some r) (hlive : b.isLive a = false) :
    visit space b a = ({ b.setBit a with traced := b.traced + 1 }, r.references) := by
  unfold isLive at hlive
  simp only [Bool.or_eq_false_iff, Bool.not_eq_false'] at hlive
  have hcond : (b.covers a && b.bitmap.isNews a) = true := by
    unfold MarkBitmap.isNews
    rw [h.covers_iff, hlive.1, hlive.2]
    rfl
  unfold visit
  simp only [hr, hcond, if_true]
  rfl

/-- Visits make objects live, each once. -/
theorem search (hspace : space.Apart) (b₀ : BackgroundMark) :
    Search (visit space) (fun a => space.contains a = true) space.references
      (fun b a => b.isLive a = true) (fun b => space.slotsLeft b.isLive)
      (fun b => b.Matched ∧ b.low = b₀.low ∧ b.high = b₀.high) := by
  have hwhite {b : BackgroundMark} {a : Nat} (hb : b.Matched) (ha : space.contains a = true)
      (hn : ¬ b.isLive a = true) : ∃ r, space.get? a = some r ∧
        visit space b a = ({ b.setBit a with traced := b.traced + 1 }, r.references) := by
    obtain ⟨r, hr⟩ := ObjectSpace.contains_iff.1 ha
    exact ⟨r, hr, visit_white hb hr (Bool.eq_false_iff.2 hn)⟩
  refine ⟨?_, ?_, ?_, ?_, ?_⟩
  · intro b a ⟨hb, hlow, hhigh⟩ ha hn
    obtain ⟨r, _, hv⟩ := hwhite hb ha hn
    rw [hv]
    exact ⟨⟨(hb.setBit a).low, (hb.setBit a).high⟩, hlow, hhigh⟩
  · intro b a ⟨hb, _⟩ ha hn
    obtain ⟨r, hr, hv⟩ := hwhite hb ha hn
    rw [hv, ObjectSpace.references_eq hr]
  · intro b a c ⟨hb, _⟩ ha hn hc
    obtain ⟨r, hr, hv⟩ := hwhite hb ha hn
    obtain ⟨q, hq⟩ := ObjectSpace.contains_iff.1 hc
    rw [hv, isLive_traced]
    exact isLive_setBit hb hspace hr hq
  · intro b a ⟨hb, _⟩ ha hn
    obtain ⟨r, hr, hv⟩ := hwhite hb ha hn
    rw [hv, ObjectSpace.references_eq hr]
    apply ObjectSpace.slotsLeft_add_le hr
    · intro c hc
      rw [isLive_traced]
      exact isLive_setBit_mono hc
    · exact Bool.eq_false_iff.2 hn
    · rw [isLive_traced]
      exact (isLive_setBit hb hspace hr hr).2 (.inr rfl)
  · intro b a ⟨hb, _⟩ hold
    exact visit_live hb hold

/-! ## The tracer -/

/-- References from live objects lead to live objects or are pending, unless their slot is on a
written card. -/
def Guarded (b : BackgroundMark) (space : ObjectSpace) (watch : CardTable) (pending : Nat → Prop) :
    Prop :=
  ∀ o r slot t, space.get? o = some r → b.isLive o = true → r.slots[slot]? = some t → t ≠ 0 →
    b.isLive t = true ∨ pending t ∨ watch.isDirty (Object.slotPlace o slot) = true

theorem Guarded.mono (h : b.Guarded space watch pending) (hp : ∀ t, pending t → pending' t) :
    b.Guarded space watch pending' := fun o r slot t hr hl ht hne =>
  (h o r slot t hr hl ht hne).imp_right fun hw => hw.imp_left (hp t)

/-- What a visit does to a cycle: it sets bits, and leaves bounds and worklist alone. -/
structure Advances (b b' : BackgroundMark) : Prop where
  matched : b.Matched → b'.Matched
  low : b'.low = b.low
  high : b'.high = b.high
  worklist : b'.worklist = b.worklist
  live : ∀ a, b.isLive a = true → b'.isLive a = true

theorem Advances.refl (b : BackgroundMark) : Advances b b := ⟨id, rfl, rfl, rfl, fun _ h => h⟩

theorem Advances.trans {b'' : BackgroundMark} (h : Advances b b') (h' : Advances b' b'') :
    Advances b b'' :=
  ⟨h'.matched ∘ h.matched, h'.low.trans h.low, h'.high.trans h.high,
    h'.worklist.trans h.worklist, fun a ha => h'.live a (h.live a ha)⟩

theorem advances_visit (b : BackgroundMark) (a : Nat) : Advances b (visit space b a).1 := by
  unfold visit
  split
  · exact .refl b
  · split
    · refine ⟨fun h => ?_, rfl, rfl, rfl, fun c hc => ?_⟩
      · exact ⟨(h.setBit a).low, (h.setBit a).high⟩
      · exact isLive_setBit_mono (a := a) hc
    · exact .refl b

theorem Guarded.visit (h : b.Guarded space watch fun t => t = a ∨ pending t) (hb : b.Matched)
    (hspace : space.Apart) (hall : space.NoDangling) :
    (BackgroundMark.visit space b a).1.Guarded space watch
      fun t => t ∈ (BackgroundMark.visit space b a).2 ∨ pending t := by
  by_cases hlive : space.contains a = true → b.isLive a = true
  · rw [visit_live hb hlive]
    intro o r slot t hr hl ht hne
    rcases h o r slot t hr hl ht hne with hl' | (rfl | hp) | hw
    · exact .inl hl'
    · exact .inl (hlive (hall o r t hr (List.mem_of_getElem? ht) hne))
    · exact .inr (.inl (.inr hp))
    · exact .inr (.inr hw)
  · obtain ⟨hc, hn⟩ := Classical.not_imp.1 hlive
    obtain ⟨q, hq⟩ := ObjectSpace.contains_iff.1 hc
    rw [visit_white hb hq (Bool.eq_false_iff.2 hn)]
    intro o r slot t hr hl ht hne
    rw [isLive_traced] at *
    rcases (isLive_setBit hb hspace hq hr).1 hl with hl' | rfl
    · rcases h o r slot t hr hl' ht hne with hl'' | (rfl | hp) | hw
      · exact .inl (isLive_setBit_mono hl'')
      · exact .inl ((isLive_setBit hb hspace hq hq).2 (.inr rfl))
      · exact .inr (.inl (.inr hp))
      · exact .inr (.inr hw)
    · cases hq.symm.trans hr
      refine .inr (.inl (.inl (List.mem_filter.2 ⟨List.mem_of_getElem? ht, ?_⟩)))
      simpa using hne

theorem advances_visitAll (b : BackgroundMark) (batch : List Nat) :
    Advances b (visitAll space b batch).1 := by
  unfold visitAll
  generalize ([] : List Nat) = found
  induction batch generalizing b found with
  | nil => exact .refl b
  | cons a batch ih => exact (advances_visit b a).trans (ih _ _)

theorem Guarded.visitAll {batch : List Nat}
    (h : b.Guarded space watch fun t => t ∈ batch ∨ pending t) (hb : b.Matched)
    (hspace : space.Apart) (hall : space.NoDangling) :
    (BackgroundMark.visitAll space b batch).1.Guarded space watch
      fun t => t ∈ (BackgroundMark.visitAll space b batch).2 ∨ pending t := by
  unfold BackgroundMark.visitAll
  have h' : b.Guarded space watch fun t => t ∈ batch ∨ t ∈ ([] : List Nat) ∨ pending t :=
    h.mono fun t ht => ht.imp_right Or.inr
  clear h
  generalize ([] : List Nat) = found at h' ⊢
  induction batch generalizing b found with
  | nil =>
    exact h'.mono fun t ht => ht.resolve_left List.not_mem_nil
  | cons a batch ih =>
    refine ih ((advances_visit b a).matched hb) _ ?_
    have hnow : b.Guarded space watch
        fun t => t = a ∨ t ∈ batch ∨ t ∈ found ∨ pending t := h'.mono fun t ht => by
      rcases ht with ht | ht
      · exact (List.mem_cons.1 ht).imp_right .inl
      · exact .inr (.inr ht)
    refine (hnow.visit hb hspace hall).mono fun t ht => ?_
    rw [List.mem_append]
    rcases ht with ht | ht | ht | ht
    · exact .inr (.inl (.inr ht))
    · exact .inl ht
    · exact .inr (.inl (.inl ht))
    · exact .inr (.inr ht)

/-- A step of the tracer keeps the guard: what it takes off the worklist it visits. -/
theorem Guarded.step {chunk : Nat} (h : b.Guarded space watch (· ∈ b.worklist)) (hb : b.Matched)
    (hspace : space.Apart) (hall : space.NoDangling) :
    (BackgroundMark.step space chunk b).Matched ∧
      (BackgroundMark.step space chunk b).Guarded space watch
        (· ∈ (BackgroundMark.step space chunk b).worklist) := by
  unfold BackgroundMark.step
  by_cases hempty : ((b.worklist.take chunk).reverse.isEmpty) = true
  · simp only [hempty, if_true]
    exact ⟨⟨hb.low, hb.high⟩, h⟩
  · simp only [hempty, Bool.false_eq_true, if_false]
    generalize hrest : ({ b with worklist := b.worklist.drop chunk } : BackgroundMark) = b₁
    have hb₁ : b₁.Matched := hrest ▸ ⟨hb.low, hb.high⟩
    have hwork : b₁.worklist = b.worklist.drop chunk := hrest ▸ rfl
    have h₁ : b₁.Guarded space watch
        fun t => t ∈ (b.worklist.take chunk).reverse ∨ t ∈ b.worklist.drop chunk := by
      intro o r slot t hr hl ht hne
      have hl' : b.isLive o = true := by
        rw [← hrest] at hl
        exact hl
      rcases h o r slot t hr hl' ht hne with hl'' | hp | hw
      · refine .inl ?_
        rw [← hrest]
        exact hl''
      · refine .inr (.inl ?_)
        show t ∈ (b.worklist.take chunk).reverse ∨ t ∈ b.worklist.drop chunk
        rw [List.mem_reverse, ← List.mem_append, List.take_append_drop]
        exact hp
      · exact .inr (.inr hw)
    have hadv : Advances b₁ (BackgroundMark.visitAll space b₁ (b.worklist.take chunk).reverse).1 :=
      advances_visitAll b₁ _
    have hall' := h₁.visitAll hb₁ hspace hall
    refine ⟨⟨(hadv.matched hb₁).low, (hadv.matched hb₁).high⟩, ?_⟩
    refine hall'.mono fun t ht => ?_
    show t ∈ Worklist.add _ _
    unfold Worklist.add
    rw [List.mem_append, List.mem_reverse, hadv.worklist, hwork]
    exact ht

theorem Guarded.steps {chunk fuel : Nat} (h : b.Guarded space watch (· ∈ b.worklist))
    (hb : b.Matched) (hspace : space.Apart) (hall : space.NoDangling) :
    (BackgroundMark.steps space chunk fuel b).Matched ∧
      (BackgroundMark.steps space chunk fuel b).Guarded space watch
        (· ∈ (BackgroundMark.steps space chunk fuel b).worklist) := by
  induction fuel generalizing b with
  | zero => exact ⟨hb, h⟩
  | succ fuel ih =>
    unfold BackgroundMark.steps
    split
    · exact ⟨hb, h⟩
    · obtain ⟨hb', h'⟩ := h.step hb hspace hall
      exact ih h' hb'

theorem isLive_step {chunk : Nat} (h : b.isLive a = true) : (step space chunk b).isLive a = true := by
  unfold step
  by_cases hempty : ((b.worklist.take chunk).reverse.isEmpty) = true
  · simp only [hempty, if_true]
    exact h
  · simp only [hempty, Bool.false_eq_true, if_false]
    exact (advances_visitAll { b with worklist := b.worklist.drop chunk } _).live a h

theorem isLive_steps {chunk fuel : Nat} (h : b.isLive a = true) :
    (steps space chunk fuel b).isLive a = true := by
  induction fuel generalizing b with
  | zero => exact h
  | succ fuel ih =>
    unfold steps
    split
    · exact h
    · exact ih (isLive_step h)

/-! ## New objects -/

theorem matched_allocateBlack (h : b.Matched) (a : Nat) : (b.allocateBlack a).Matched := by
  unfold allocateBlack
  split
  · exact h.setBit a
  · exact h

theorem worklist_allocateBlack : (b.allocateBlack a).worklist = b.worklist := by
  unfold allocateBlack
  split <;> rfl

theorem phase_allocateBlack (b : BackgroundMark) (a : Nat) : (b.allocateBlack a).phase = b.phase := by
  unfold allocateBlack
  split <;> rfl

/-- A new object is live, and no other object becomes live with it. -/
theorem isLive_allocateBlack (h : b.Matched) (hspace : space.Apart) (hr : space.get? a = some r)
    {q : Record} (hq : space.get? c = some q) :
    (b.allocateBlack a).isLive c = true ↔ b.isLive c = true ∨ c = a := by
  unfold allocateBlack
  split
  · exact isLive_setBit h hspace hr hq
  next hcov =>
    refine ⟨.inl, ?_⟩
    rintro (hl | rfl)
    · exact hl
    · unfold isLive
      rw [Bool.eq_false_iff.2 hcov]
      rfl

/-- A new object has empty slots, so the guard need not look at them. -/
theorem Guarded.allocateBlack (h : b.Guarded space watch pending) (hb : b.Matched)
    (hspace : space'.Apart) (hempty : ∀ t ∈ r.slots, t = 0)
    (hget : ∀ c, space'.get? c = if a = c then some r else space.get? c)
    (hall : space.NoDangling) : (b.allocateBlack a).Guarded space' watch pending := by
  have hself : space'.get? a = some r := (hget a).trans (if_pos rfl)
  intro o q slot t hq hl ht hne
  by_cases hao : a = o
  · subst hao
    cases hself.symm.trans hq
    exact absurd (hempty t (List.mem_of_getElem? ht)) hne
  · have hq' := hq
    rw [hget, if_neg hao] at hq'
    have hl' := ((isLive_allocateBlack hb hspace hself hq).1 hl).resolve_right (Ne.symm hao)
    rcases h o q slot t hq' hl' ht hne with hlive | hrest
    · obtain ⟨x, hx⟩ := ObjectSpace.contains_iff.1
        (hall o q t hq' (List.mem_of_getElem? ht) hne)
      have hx' : ∃ y, space'.get? t = some y := by
        rw [hget]
        split
        · exact ⟨r, rfl⟩
        · exact ⟨x, hx⟩
      obtain ⟨y, hy⟩ := hx'
      exact .inl ((isLive_allocateBlack hb hspace hself hy).2 (.inl hlive))
    · exact .inr hrest

/-! ## The final pause -/

/-- The references of a live object with a slot on a written card are found. -/
theorem mem_cardReferences {card : Nat} {found : List Nat} (hspace : space.Apart)
    (hrun : cardReferences space b watch card = .ok found) (hr : space.get? o = some r)
    (hl : b.isLive o = true) (ht : t ∈ r.references) (hi : watch.index? a = some card)
    (ha : a < Word.count) (hpos : 0 < watch.cardSize) (hin : o ≤ a ∧ a < o + r.size) :
    t ∈ found := by
  simp only [cardReferences, Checked.bind_eq_ok, Checked.pure_eq_ok, Prod.exists] at hrun
  obtain ⟨lo, hi', hbounds, objects, hover, rfl⟩ := hrun
  have hab := CardTable.mem_bounds hbounds hi ha hpos
  have ho : o ∈ objects :=
    (hspace.spread.mem_overlapping hover (CardTable.bounds_le hbounds)).2 ⟨r, hr, by omega, by omega⟩
  simp only [List.mem_flatMap, List.mem_filterMap, List.mem_filter]
  exact ⟨r, ⟨o, ⟨ho, hl⟩, hr⟩, ht⟩

theorem mem_flatten_mapM {f : Nat → Checked (List Nat)} {cards : List Nat}
    {found : List (List Nat)} (hrun : cards.mapM f = .ok found) {card : Nat} (hc : card ∈ cards)
    (hf : ∀ l, f card = .ok l → t ∈ l) : t ∈ found.flatten := by
  obtain ⟨i, hi⟩ := List.mem_iff_getElem?.1 hc
  rcases Checked.mapM_getElem? hrun i with ⟨hn, _⟩ | ⟨x, l, hx, hl, hfx⟩
  · rw [hi] at hn
    cases hn
  · cases hi.symm.trans hx
    exact List.mem_flatten.2 ⟨l, List.mem_of_getElem? hl, hf l hfx⟩

/-- Only references of live objects are found. -/
theorem cardReferences_sound {card : Nat} {found : List Nat}
    (hrun : cardReferences space b watch card = .ok found) (ht : t ∈ found) :
    ∃ o, space.contains o = true ∧ b.isLive o = true ∧ t ∈ space.references o := by
  simp only [cardReferences, Checked.bind_eq_ok, Checked.pure_eq_ok, Prod.exists] at hrun
  obtain ⟨_, _, _, objects, _, rfl⟩ := hrun
  simp only [List.mem_flatMap, List.mem_filterMap, List.mem_filter] at ht
  obtain ⟨r, ⟨o, ⟨_, hl⟩, hr⟩, ht⟩ := ht
  exact ⟨o, ObjectSpace.contains_iff.2 ⟨r, hr⟩, hl, ObjectSpace.references_eq hr ▸ ht⟩

theorem of_mem_flatten_mapM {f : Nat → Checked (List Nat)} {cards : List Nat}
    {found : List (List Nat)} (hrun : cards.mapM f = .ok found) (ht : t ∈ found.flatten) :
    ∃ card l, f card = .ok l ∧ t ∈ l := by
  obtain ⟨l, hl, ht⟩ := List.mem_flatten.1 ht
  obtain ⟨i, hi⟩ := List.mem_iff_getElem?.1 hl
  rcases Checked.mapM_getElem? hrun i with ⟨_, hn⟩ | ⟨card, l', _, hl', hf⟩
  · rw [hi] at hn
    cases hn
  · cases hi.symm.trans hl'
    exact ⟨card, l, hf, ht⟩

/-- Marking up to closure from live objects that lead to live ones or to the stack. -/
structure Closes (space : ObjectSpace) (b : BackgroundMark) (seeds : Nat → Prop)
    (b' : BackgroundMark) : Prop where
  matched : b'.Matched
  low : b'.low = b.low
  high : b'.high = b.high
  live_iff : ∀ a, space.contains a = true → (b'.isLive a = true ↔
    b.isLive a = true ∨ Reached (fun a => space.contains a = true) space.references seeds a)
  closed : ∀ o t, b'.isLive o = true → space.contains o = true → t ∈ space.references o →
    space.contains t = true → b'.isLive t = true

theorem traceToClosure_closes {stack : List Nat} (hb : b.Matched) (hspace : space.Apart)
    (hclosed : ∀ o t, b.isLive o = true → space.contains o = true → t ∈ space.references o →
      space.contains t = true → b.isLive t = true ∨ t ∈ stack) :
    Closes space b (· ∈ stack) (traceToClosure space b stack) := by
  have hmem (t : Nat) : t ∈ Worklist.add [] stack ↔ t ∈ stack := by
    simp only [Worklist.add, List.append_nil, List.mem_reverse]
  have hlen : (Worklist.add [] stack).length = stack.length := by
    simp only [Worklist.add, List.append_nil, List.length_reverse]
  have hstart : Search.Closed (fun a => space.contains a = true) space.references
      (fun a => b.isLive a = true) (Worklist.add [] stack) := fun o t ho hl ht hc =>
    (hclosed o t hl ho ht hc).imp_right (hmem t).2
  have hd := (search hspace b).drain (stack.length + space.slotCount) (Worklist.add [] stack)
    ⟨hb, rfl, rfl⟩ (by
      have := space.slotsLeft_le b.isLive
      omega)
  refine ⟨hd.keeps.1, hd.keeps.2.1, hd.keeps.2.2, ?_, ?_⟩
  · intro a ha
    rw [← show (· ∈ Worklist.add [] stack) = (· ∈ stack) from funext fun t => propext (hmem t)]
    exact hd.done_iff hstart ha
  · intro o t hl ho ht hc
    exact (hd.closes hstart o t ho hl ht hc).resolve_right List.not_mem_nil

/-- After the final pause live objects lead to live objects only, and the roots are live. It starts
from the worklist, from the roots and from what live objects refer to. -/
theorem Guarded.finishUnderPause {roots : List Nat} {ranges : List (Nat × Nat)} {n : Nat}
    (h : b.Guarded space watch (· ∈ b.worklist)) (hb : b.Matched) (hspace : space.Apart)
    (hslots : space.SlotsFit) (hpos : 0 < watch.cardSize)
    (hranges : ∀ o r, space.get? o = some r → ∃ start stop, (start, stop) ∈ ranges ∧
      watch.base ≤ start ∧ start ≤ o ∧ o + r.size ≤ stop ∧ o + r.size < Word.count)
    (hrun : BackgroundMark.finishUnderPause space b roots watch ranges = .ok (n, b')) :
    ∃ stack : List Nat, Closes space b (· ∈ stack) b' ∧
      (∀ t ∈ roots, space.contains t = true → b'.isLive t = true) ∧
      ∀ t ∈ stack, t ∈ b.worklist ∨ t ∈ roots ∨
        ∃ o, space.contains o = true ∧ b.isLive o = true ∧ t ∈ space.references o := by
  simp only [BackgroundMark.finishUnderPause, Checked.bind_eq_ok, Checked.pure_eq_ok,
    Prod.mk.injEq] at hrun
  obtain ⟨found, hfound, _, rfl⟩ := hrun
  generalize hstack : b.worklist.reverse ++ roots ++ found.flatten = stack
  have hcloses : Closes space { b with worklist := [] } (· ∈ stack)
      (traceToClosure space { b with worklist := [] } stack) := by
    refine traceToClosure_closes ⟨hb.low, hb.high⟩ hspace ?_
    intro o t hl ho ht _
    obtain ⟨r, hr⟩ := ObjectSpace.contains_iff.1 ho
    obtain ⟨_, hr', hslot, hne⟩ := ObjectSpace.mem_references.1 ht
    cases hr.symm.trans hr'
    obtain ⟨slot, hslot⟩ := List.mem_iff_getElem?.1 hslot
    rcases h o r slot t hr hl hslot hne with hl' | hw | hdirty
    · exact .inl hl'
    · refine .inr (hstack ▸ ?_)
      simp only [List.mem_append, List.mem_reverse]
      exact .inl (.inl hw)
    · obtain ⟨card, hi, hcard⟩ := CardTable.isDirty_iff.1 hdirty
      obtain ⟨start, stop, hrange, hbase, hlo, hhi, hword⟩ := hranges o r hr
      have hfit := hslots o r hr
      have hslt := (List.getElem?_eq_some_iff.1 hslot).1
      have hin : o ≤ Object.slotPlace o slot ∧ Object.slotPlace o slot < o + r.size := by
        unfold Object.slotPlace
        unfold Object.headerBytes Object.slotBytes at *
        omega
      have hmem : card ∈ Marking.dirtyCards watch ranges := Marking.mem_dirtyCards.2
        ⟨start, stop, hrange, CardTable.mem_dirtyIn hi hcard hbase (by omega) (by omega)⟩
      refine .inr (hstack ▸ List.mem_append_right _ ?_)
      refine mem_flatten_mapM hfound hmem fun l hl' => ?_
      exact mem_cardReferences hspace hl' hr hl (ObjectSpace.references_eq hr ▸ ht) hi (by omega)
        hpos hin
  refine ⟨stack, ⟨hcloses.matched, hcloses.low, hcloses.high, hcloses.live_iff, hcloses.closed⟩,
    ?_, ?_⟩
  · intro t ht hc
    refine (hcloses.live_iff t hc).2 (.inr (.seed (hstack ▸ ?_) hc))
    simp only [List.mem_append]
    exact .inl (.inr ht)
  · intro t ht
    rw [← hstack] at ht
    simp only [List.mem_append, List.mem_reverse] at ht
    rcases ht with (ht | ht) | ht
    · exact .inl ht
    · exact .inr (.inl ht)
    · obtain ⟨card, l, hcard, ht⟩ := of_mem_flatten_mapM hfound ht
      exact .inr (.inr (cardReferences_sound hcard ht))

end BackgroundMark

end GenHeap
