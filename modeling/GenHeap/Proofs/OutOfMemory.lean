import Mathlib.Data.List.Basic
import GenHeap.Chunks
import GenHeap.OutOfMemory
import GenHeap.Proofs.Progress

/-!
Records of failures. The words of an event read back as the event at the start of its millisecond,
and a ring shows the latest events that were recorded in it, as many as it has slots, in their order.
-/

namespace GenHeap.OutOfMemory

open Checked (Runs)

namespace Event

/-- The event at the start of its millisecond. -/
def truncated (e : Event) : Event := { e with time := e.milliseconds * 1000000 }

/-- Whether the time of an event is one that a calendar date stands for. -/
def Dated (e : Event) : Prop :=
  firstMillisecond ≤ e.milliseconds ∧ e.milliseconds ≤ lastMillisecond

instance (e : Event) : Decidable e.Dated := inferInstanceAs (Decidable (_ ∧ _))

variable {e : Event} {es : List Event}

theorem length_encode (e : Event) : e.encode.length = words := rfl

theorem length_flatMap_encode (es : List Event) :
    (es.flatMap encode).length = words * es.length := by
  induction es with
  | nil => rfl
  | cons e es ih =>
    rw [List.flatMap_cons, List.length_append, ih, length_encode, List.length_cons, Nat.mul_succ,
      Nat.add_comm]

/-- A signed integer of 64 bits comes back from its word. -/
theorem intOfWord_wordOfInt {i : Int} (hlow : -Word.signBit ≤ i) (hhigh : i < Word.signBit) :
    intOfWord (wordOfInt i) = i := by
  unfold intOfWord wordOfInt Word.count
  unfold Word.signBit at *
  split <;> omega

theorem decode?_encode (hdated : e.Dated) : decode? e.encode = some e.truncated := by
  obtain ⟨hfirst, hlast⟩ := hdated
  have hword : intOfWord (wordOfInt e.milliseconds) = e.milliseconds := by
    unfold firstMillisecond at hfirst
    unfold lastMillisecond at hlast
    apply intOfWord_wordOfInt <;> unfold Word.signBit <;> omega
  unfold encode decode?
  dsimp only
  rw [hword, guard, if_pos ⟨hfirst, hlast⟩, Reason.ofCode?_code, Generation.ofIndex?_index]
  rfl

/-- Words of events are cut where one event ends and the next begins. -/
theorem chunks_flatMap_encode (es : List Event) :
    chunks (words - 1) (es.flatMap encode) = es.map encode := by
  have hlength (e : Event) : e.encode.length = words - 1 + 1 := length_encode e
  exact chunks_flatMap hlength es

theorem decode_flatMap_encode (hdated : ∀ e ∈ es, e.Dated) :
    (chunks (words - 1) (es.flatMap encode)).filterMap decode? = es.map truncated := by
  rw [chunks_flatMap_encode, List.filterMap_map]
  induction es with
  | nil => rfl
  | cons e es ih =>
    have hfirst : (decode? ∘ encode) e = some e.truncated := decode?_encode (hdated e (.head _))
    rw [List.filterMap_cons_some hfirst, List.map_cons, ih fun e he => hdated e (.tail _ he)]

end Event

namespace History

/-- The events that a ring with room for `capacity` of them is to show when `recorded` were recorded. -/
def latest (capacity : Nat) (recorded : List Event) : List Event :=
  recorded.drop (recorded.length - capacity)

/-- The ring counts `recorded`, and has the latest of them in its slots. -/
structure Holds (h : History) (recorded : List Event) : Prop where
  capacity_pos : 0 < h.capacity
  total : h.total = recorded.length
  kept : h.kept = min recorded.length h.capacity
  head : h.head = recorded.length % h.capacity
  slots : ∀ {j : Nat} {e : Event}, recorded[j]? = some e → recorded.length ≤ j + h.capacity →
    h.slots[j % h.capacity]? = some (some e)

variable {h : History} {recorded : List Event} {e : Event} {i j : Nat}

theorem capacity_record (h : History) (e : Event) : (h.record e).capacity = h.capacity := by
  unfold capacity record
  exact Array.size_setIfInBounds

theorem holds_empty {capacity : Nat} (hrun : empty capacity = .ok h) :
    h.Holds [] ∧ h.capacity = max capacity 1 := by
  simp only [empty, Checked.bind_eq_ok, Checked.pure_eq_ok] at hrun
  obtain ⟨_, _, rfl⟩ := hrun
  have hsize : (⟨Array.replicate (max capacity 1) none, 0, 0, 0⟩ : History).capacity =
      max capacity 1 := Array.size_replicate
  refine ⟨⟨?_, rfl, ?_, ?_, fun hj => nomatch hj⟩, hsize⟩
  · rw [hsize]
    omega
  · exact (Nat.zero_min _).symm
  · exact (Nat.zero_mod _).symm

/-- Numbers that are less than the capacity apart have slots of their own. -/
theorem mod_ne_of_lt {c n : Nat} (hj : j < n) (hn : n < j + c) : n % c ≠ j % c := by
  intro heq
  have hzero := Nat.sub_mod_eq_zero_of_mod_eq heq
  rw [Nat.mod_eq_of_lt (by omega)] at hzero
  omega

theorem Holds.record (hh : h.Holds recorded) (e : Event) :
    (h.record e).Holds (recorded ++ [e]) := by
  have hpos := hh.capacity_pos
  have hkept := hh.kept
  constructor
  · rwa [capacity_record]
  · rw [List.length_append]
    exact congrArg (· + 1) hh.total
  · rw [capacity_record, List.length_append, List.length_singleton]
    show min (h.kept + 1) h.capacity = _
    omega
  · rw [capacity_record, List.length_append, List.length_singleton]
    show (h.head + 1) % h.capacity = _
    rw [hh.head, Nat.mod_add_mod]
  · intro j x hj hlast
    rw [capacity_record] at hlast ⊢
    rw [List.length_append, List.length_singleton] at hlast
    show (h.slots.setIfInBounds h.head (some e))[j % h.capacity]? = _
    rw [hh.head]
    by_cases hnew : j = recorded.length
    · subst hnew
      rw [List.getElem?_concat_length] at hj
      cases hj
      exact Array.getElem?_setIfInBounds_self_of_lt (Nat.mod_lt _ hpos)
    · have hlt : j < recorded.length := by
        have hbound := (List.getElem?_eq_some_iff.1 hj).1
        rw [List.length_append, List.length_singleton] at hbound
        omega
      rw [List.getElem?_append_left hlt] at hj
      rw [Array.getElem?_setIfInBounds_ne (mod_ne_of_lt hlt (by omega))]
      exact hh.slots hj (by omega)

theorem Holds.slot? (hh : h.Holds recorded) (hi : i < h.kept) :
    h.slot? i = recorded[recorded.length - h.kept + i]? := by
  have hpos := hh.capacity_pos
  have hkept := hh.kept
  have hlt : recorded.length - h.kept + i < recorded.length := by omega
  have hplace : (h.start + i) % h.capacity = (recorded.length - h.kept + i) % h.capacity := by
    have hdiv := Nat.mod_add_div recorded.length h.capacity
    have hround : recorded.length - h.kept + i + h.capacity =
        h.head + h.capacity - h.kept + i + h.capacity * (recorded.length / h.capacity) := by
      rw [hh.head]
      omega
    rw [start, Nat.mod_add_mod, ← Nat.add_mod_right (recorded.length - h.kept + i), hround,
      Nat.add_mul_mod_self_left]
  unfold History.slot?
  rw [hplace, hh.slots (List.getElem?_eq_getElem hlt) (by omega), List.getElem?_eq_getElem hlt]
  rfl

/-- The slots from the oldest event to the newest hold the latest events, and none is empty. -/
theorem Holds.map_slot? (hh : h.Holds recorded) :
    (List.range h.kept).map h.slot? = (latest h.capacity recorded).map some := by
  have hkept := hh.kept
  rw [latest]
  refine List.ext_getElem ?_ fun i hi _ => ?_
  · rw [List.length_map, List.length_map, List.length_range, List.length_drop]
    omega
  · rw [List.length_map, List.length_range] at hi
    rw [List.getElem_map, List.getElem_range, hh.slot? hi, List.getElem_map, List.getElem_drop,
      List.getElem?_eq_getElem (by omega)]
    congr 2
    omega

/-- A ring shows the latest of the events recorded in it, in their order. -/
theorem Holds.events (hh : h.Holds recorded) : h.events = latest h.capacity recorded := by
  have hslots := congrArg (List.filterMap id) hh.map_slot?
  rw [List.filterMap_map, List.filterMap_map] at hslots
  exact hslots.trans List.filterMap_some

theorem Holds.length_events (hh : h.Holds recorded) : h.events.length ≤ h.capacity := by
  rw [hh.events, latest, List.length_drop]
  omega

theorem Holds.latest? (hh : h.Holds recorded) : h.latest? = recorded.getLast? := by
  have hpos := hh.capacity_pos
  have hkept := hh.kept
  unfold History.latest?
  cases hn : recorded.length with
  | zero =>
    rw [if_pos (by omega), List.length_eq_zero_iff.1 hn]
    rfl
  | succ n =>
    have hn' : n < recorded.length := by omega
    -- one slot in front of the head is that of the last event, also around the end
    have hplace : (h.head + h.capacity - 1) % h.capacity = n % h.capacity := by
      rw [hh.head, hn, Nat.add_sub_assoc hpos, Nat.mod_add_mod,
        show n + 1 + (h.capacity - 1) = n + h.capacity by omega, Nat.add_mod_right]
    rw [if_neg (by omega), hplace, hh.slots (List.getElem?_eq_getElem hn') (by omega),
      List.getLast?_eq_getElem?, hn, Nat.add_sub_cancel, List.getElem?_eq_getElem hn']
    rfl

/-- What a ring with room for `capacity` events shows of those that were recorded in it. -/
structure Shows (h : History) (capacity : Nat) (recorded : List Event) : Prop where
  events_eq : h.events = latest capacity recorded
  /-- no slot between the oldest event and the newest is empty -/
  slots_eq : (List.range h.kept).map h.slot? = h.events.map some
  kept_eq : h.kept = min recorded.length capacity
  latest?_eq : h.latest? = recorded.getLast?
  isEmpty_iff : h.isEmpty = true ↔ recorded = []
  total_eq : h.total = recorded.length

theorem Holds.shows (hh : h.Holds recorded) : h.Shows h.capacity recorded where
  events_eq := hh.events
  slots_eq := hh.events.symm ▸ hh.map_slot?
  kept_eq := hh.kept
  latest?_eq := hh.latest?
  isEmpty_iff := by
    have hpos := hh.capacity_pos
    have hkept := hh.kept
    rw [isEmpty, beq_iff_eq, ← List.length_eq_zero_iff]
    omega
  total_eq := hh.total

theorem Holds.foldl_record (hh : h.Holds recorded) (es : List Event) :
    (es.foldl History.record h).Holds (recorded ++ es) ∧
      (es.foldl History.record h).capacity = h.capacity := by
  induction es generalizing h recorded with
  | nil => exact ⟨(List.append_nil recorded).symm ▸ hh, rfl⟩
  | cons e es ih =>
    obtain ⟨hholds, hcapacity⟩ := ih (hh.record e)
    rw [List.append_assoc] at hholds
    exact ⟨hholds, hcapacity.trans (capacity_record h e)⟩

/-- Whatever was recorded in it, a ring shows the latest events, one if it was to have room for
none. A ring is refused only for want of memory. -/
theorem latest_events_kept (capacity : Nat) :
    (Runs (empty capacity) ↔ max capacity 1 * slotBytes < Word.signBit) ∧
    ∀ h, empty capacity = .ok h → ∀ recorded : List Event,
      (recorded.foldl record h).Shows (max capacity 1) recorded := by
  refine ⟨by simp [empty], fun h hrun recorded => ?_⟩
  obtain ⟨hh, hcapacity⟩ := holds_empty hrun
  obtain ⟨hholds, hsame⟩ := hh.foldl_record recorded
  exact hcapacity ▸ hsame ▸ hholds.shows

/-- The third event takes the slot of the first. -/
theorem latest_events_kept_wrapped : ∃ h, empty 2 = .ok h ∧
    let event size : Event := ⟨0, .fragmentation, size, .gen0, 0⟩
    let recorded := [event 1, event 2, event 3]
    (recorded.foldl record h).Shows 2 recorded ∧ (recorded.foldl record h).head = 1 := by
  obtain ⟨hruns, hshows⟩ := latest_events_kept 2
  obtain ⟨h, hrun⟩ := hruns.2 (by decide)
  refine ⟨h, hrun, hshows h hrun _, ?_⟩
  cases hrun
  rfl

end History

end GenHeap.OutOfMemory
