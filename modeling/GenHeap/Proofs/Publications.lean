import GenHeap.Proofs.Board
import GenHeap.Proofs.Progress

/-!
What a board shows after any publications. Of a field that is one word it shows the last value
written, of a list the longest part of the last one that fits and consists of whole elements,
whatever was shown before. The sequence number is odd from the beginning of a publication to its
end.
-/

namespace GenHeap.Diagnostics.Board

open Checked (Runs)

/-- What is written to a field. -/
inductive Write where
  | word (f : Field) (value : Nat)
  | flag (f : Field) (value : Bool)
  | list (f : Field) (values : List Nat)

namespace Write

def field : Write → Field
  | word f _ | flag f _ | list f _ => f

def values : Write → List Nat
  | word _ value => [value]
  | flag _ value => [if value then 1 else 0]
  | list _ values => values

def apply (b : Board) : Write → Board
  | word f value => b.set f value
  | flag f value => b.setFlag f value
  | list f values => b.setArray f values

/-- Words are written to fields that are one word, lists to the others. -/
def Typed : Write → Prop
  | word f _ | flag f _ => f.isWord = true
  | list f _ => f.isWord = false

end Write

theorem Write.Typed.values_eq {w : Write} (hw : w.Typed) (hf : w.field.isWord = true) :
    ∃ value, w.values = [value] := by
  cases w with
  | word | flag => exact ⟨_, rfl⟩
  | list => cases hf.symm.trans hw

def writeAll (b : Board) (ws : List Write) : Board := ws.foldl Write.apply b

/-- Publications one after the other. -/
def publishAll (b : Board) (ps : List (List Write)) : Board :=
  ps.foldl (fun b ws => b.publish (·.writeAll ws)) b

/-- The last values that were written to a field. -/
def last? (ws : List Write) (f : Field) : Option (List Nat) :=
  ((ws.filter (·.field = f)).getLast?).map Write.values

variable {b : Board} {f g : Field} {w : Write} {ws ws' : List Write} {ps : List (List Write)}
  {values : List Nat} {capacity : Nat}

/-! ## Whole elements that fit -/

/-- A list of whole elements at the start of another one, as long as there is room. -/
structure LongestFit (room elementWords : Nat) (values shown : List Nat) : Prop where
  start : shown <+: values
  length_le : shown.length ≤ room
  whole : elementWords ∣ shown.length
  longest : ∀ p, p <+: values → p.length ≤ room → elementWords ∣ p.length →
    p.length ≤ shown.length

theorem longestFit_fitting (room elementWords : Nat) (values : List Nat) :
    LongestFit room elementWords values (fitting room elementWords values) := by
  have hlength : (fitting room elementWords values).length =
      elementWords * (min values.length room / elementWords) := by
    have hdiv := Nat.div_add_mod (min values.length room) elementWords
    rw [fitting, List.length_take]
    omega
  refine ⟨List.take_prefix .., length_fitting_le, hlength ▸ Nat.dvd_mul_right .., ?_⟩
  intro p hp hroom hwhole
  have hbound : p.length ≤ min values.length room := Nat.le_min.2 ⟨hp.length_le, hroom⟩
  rw [hlength, ← Nat.mul_div_cancel' hwhole]
  exact Nat.mul_le_mul_left _ (Nat.div_le_div_right hbound)

/-! ## Writes -/

theorem words_apply_self (hb : b.Formed) (hw : w.Typed) : (w.apply b).words w.field =
    fitting (room b.eventCapacity w.field) (elementWords w.field) w.values := by
  cases w with
  | word f value => exact (words_set_self hb hw).trans (fitting_of_isWord hw).symm
  | flag f value => exact (words_setFlag_self hb hw).trans (fitting_of_isWord hw).symm
  | list f values => exact words_setArray_self hb

theorem words_apply_of_ne (hne : g ≠ w.field) : (w.apply b).words g = b.words g := by
  cases w with
  | word | flag | list => exact words_modifyCell_of_ne hne

theorem formed_apply (hb : b.Formed) (hw : w.Typed) : (w.apply b).Formed := by
  cases w with
  | word => exact formed_set.2 hb
  | flag => exact formed_setFlag.2 hb
  | list => exact (formed_setArray hw).2 hb

theorem eventCapacity_apply : (w.apply b).eventCapacity = b.eventCapacity := by
  cases w with
  | word => exact eventCapacity_set
  | flag => exact eventCapacity_setFlag
  | list => exact eventCapacity_setArray

theorem sequence_apply (b : Board) (w : Write) : (w.apply b).sequence = b.sequence := by
  cases w <;> rfl

theorem last?_append (ws : List Write) (w : Write) (f : Field) :
    last? (ws ++ [w]) f = if w.field = f then some w.values else last? ws f := by
  rw [last?, List.filter_append, List.getLast?_append]
  split
  next hf => simp [hf]
  next hf => simp [hf, last?]

/-- A board made for some events that shows what was written to it. -/
structure Follows (b : Board) (capacity : Nat) (ws : List Write) : Prop where
  formed : b.Formed
  eventCapacity_eq : b.eventCapacity = capacity
  words_eq : ∀ f, b.words f =
    (last? ws f).elim (blank f) (fitting (room capacity f) (elementWords f))

theorem follows_ofCapacity (hrun : ofCapacity capacity = .ok b) : b.Follows capacity [] :=
  ⟨formed_ofCapacity hrun, eventCapacity_ofCapacity hrun, words_ofCapacity hrun⟩

theorem Follows.turn (h : b.Follows capacity ws) : b.turn.Follows capacity ws :=
  ⟨formed_turn.2 h.formed, h.eventCapacity_eq, h.words_eq⟩

theorem Follows.apply (h : b.Follows capacity ws) (hw : w.Typed) :
    (w.apply b).Follows capacity (ws ++ [w]) := by
  refine ⟨formed_apply h.formed hw, eventCapacity_apply.trans h.eventCapacity_eq, fun f => ?_⟩
  rw [last?_append]
  split
  next hf =>
    subst hf
    rw [words_apply_self h.formed hw, h.eventCapacity_eq]
    rfl
  next hf => rw [words_apply_of_ne (Ne.symm hf), h.words_eq]

theorem Follows.writeAll (h : b.Follows capacity ws) (hws : ∀ w ∈ ws', w.Typed) :
    (b.writeAll ws').Follows capacity (ws ++ ws') := by
  induction ws' generalizing b ws with
  | nil => exact (List.append_nil ws).symm ▸ h
  | cons w ws' ih =>
    rw [List.forall_mem_cons] at hws
    have hlater := ih (h.apply hws.1) hws.2
    rwa [List.append_assoc] at hlater

theorem sequence_writeAll (b : Board) (ws : List Write) :
    (b.writeAll ws).sequence = b.sequence := by
  induction ws generalizing b with
  | nil => rfl
  | cons w ws ih => exact (ih (w.apply b)).trans (sequence_apply b w)

/-! ## Publications -/

theorem Follows.publishAll (h : b.Follows capacity ws) (hps : ∀ p ∈ ps, ∀ w ∈ p, w.Typed) :
    (b.publishAll ps).Follows capacity (ws ++ ps.flatten) := by
  induction ps generalizing b ws with
  | nil => exact (List.append_nil ws).symm ▸ h
  | cons p ps ih =>
    rw [List.forall_mem_cons] at hps
    have hlater := ih (h.turn.writeAll hps.1).turn hps.2
    rwa [List.append_assoc] at hlater

theorem sequence_publishAll (b : Board) (ps : List (List Write)) :
    (b.publishAll ps).sequence = b.sequence + 2 * ps.length := by
  induction ps generalizing b with
  | nil => rfl
  | cons p ps ih =>
    have hfirst : (b.publish (·.writeAll p)).sequence = b.sequence + 2 :=
      congrArg (· + 1) (sequence_writeAll b.turn p)
    show ((b.publish (·.writeAll p)).publishAll ps).sequence = _
    rw [ih, hfirst, List.length_cons]
    omega

/-- What a board made for some events shows after some writes. -/
structure Shows (b : Board) (capacity : Nat) (ws : List Write) : Prop where
  blank : ∀ f, last? ws f = none → b.words f = blank f
  word : ∀ f values, f.isWord = true → last? ws f = some values → b.words f = values
  list : ∀ f values, f.isWord = false → last? ws f = some values →
    LongestFit (room capacity f) (elementWords f) values (b.words f)

theorem last?_eq_some (h : last? ws f = some values) :
    ∃ w ∈ ws, w.field = f ∧ w.values = values := by
  obtain ⟨w, hw, hvalues⟩ := Option.map_eq_some_iff.1 h
  obtain ⟨hmem, hf⟩ := List.mem_filter.1 (List.mem_of_getLast? hw)
  exact ⟨w, hmem, of_decide_eq_true hf, hvalues⟩

theorem Follows.shows (h : b.Follows capacity ws) (hws : ∀ w ∈ ws, w.Typed) :
    b.Shows capacity ws := by
  refine ⟨fun f hnone => ?_, fun f values hf hlast => ?_, fun f values _ hlast => ?_⟩
  · rw [h.words_eq, hnone]
    rfl
  · obtain ⟨w, hmem, rfl, rfl⟩ := last?_eq_some hlast
    obtain ⟨value, hvalue⟩ := (hws w hmem).values_eq hf
    rw [h.words_eq, hlast, hvalue]
    exact fitting_of_isWord hf
  · rw [h.words_eq, hlast]
    exact longestFit_fitting ..

theorem runs_ofCapacity : Runs (ofCapacity capacity) ↔
    OutOfMemory.Event.words * capacity * 8 < Word.signBit := by
  simp only [ofCapacity, Word.mul, Checked.runs_bind, Word.runs_fit, Word.runs_requireCapacity,
    Checked.runs_pure, Word.fit_eq_ok_iff]
  constructor
  · rintro ⟨hword, h⟩
    exact (h _ ⟨hword, rfl⟩).1
  · intro hbytes
    have hword : OutOfMemory.Event.words * capacity < Word.count := by
      unfold Word.signBit at hbytes
      unfold Word.count
      omega
    exact ⟨hword, fun _ hwords => ⟨hwords.2 ▸ hbytes, fun _ _ => trivial⟩⟩

/-- A board shows what was published on it. Whatever was written before, its sequence number is
twice the number of publications between two of them and odd within one, and a write to one field
changes no other. A board is refused only for want of memory. -/
theorem published_shown (capacity : Nat) :
    (Runs (ofCapacity capacity) ↔ OutOfMemory.Event.words * capacity * 8 < Word.signBit) ∧
    ∀ b, ofCapacity capacity = .ok b →
      ∀ ps : List (List Write), (∀ p ∈ ps, ∀ w ∈ p, w.Typed) →
        (b.publishAll ps).Shows capacity ps.flatten ∧
        (b.publishAll ps).sequence = 2 * ps.length ∧ (b.publishAll ps).isConsistent = true ∧
        ∀ ws : List Write, (∀ w ∈ ws, w.Typed) →
          ((b.publishAll ps).turn.writeAll ws).isConsistent = false ∧
          ((b.publishAll ps).turn.writeAll ws).Shows capacity (ps.flatten ++ ws) ∧
          ∀ w : Write, ∀ f, f ≠ w.field → (w.apply ((b.publishAll ps).turn.writeAll ws)).words f =
            ((b.publishAll ps).turn.writeAll ws).words f := by
  refine ⟨runs_ofCapacity, fun b hrun ps hps => ?_⟩
  have hfollows := (follows_ofCapacity hrun).publishAll hps
  have hsequence : (b.publishAll ps).sequence = 2 * ps.length := by
    rw [sequence_publishAll, ofCapacity_eq_ok hrun, Nat.zero_add]
  have htyped : ∀ w ∈ ps.flatten, w.Typed := by
    intro w hw
    obtain ⟨p, hp, hw⟩ := List.mem_flatten.1 hw
    exact hps p hp w hw
  refine ⟨hfollows.shows htyped, hsequence, ?_, fun ws hws => ⟨?_, ?_, ?_⟩⟩
  · rw [isConsistent, hsequence, Nat.mul_mod_right]
    rfl
  · have hinside : ((b.publishAll ps).turn.writeAll ws).sequence = 2 * ps.length + 1 :=
      (sequence_writeAll ..).trans (congrArg (· + 1) hsequence)
    rw [isConsistent, hinside, Nat.mul_add_mod]
    rfl
  · exact (hfollows.turn.writeAll hws).shows (List.forall_mem_append.2 ⟨htyped, hws⟩)
  · exact fun w f hne => words_apply_of_ne hne

/-- Longer and shorter lists of words of events, of which five make one. -/
def resized : List (List Write) := [
  [.word .collectionIndex 7, .flag .analysisSuccess true, .list .outOfMemoryEvents (List.range 7)],
  [.list .compactions [1, 2, 3], .list .outOfMemoryEvents (List.range 12)],
  [.word .collectionIndex 8, .list .outOfMemoryEvents [9]]]

/-- Of seven words one event is shown, of twelve the two for which there is room, and of one
nothing, though words of the events before it are still there. -/
theorem published_shown_resized : ∃ b, ofCapacity 2 = .ok b ∧
    (b.publishAll resized).Shows 2 resized.flatten ∧ (b.publishAll resized).sequence = 6 ∧
    (b.publishAll resized).words .collectionIndex = [8] ∧
    (b.publishAll resized).words .outOfMemoryEvents = [] ∧
    (b.publishAll (resized.take 2)).words .outOfMemoryEvents = List.range 10 ∧
    (b.publishAll (resized.take 1)).words .outOfMemoryEvents = List.range 5 := by
  obtain ⟨hruns, hboards⟩ := published_shown 2
  obtain ⟨b, hrun⟩ := hruns.2 (by decide)
  have htyped : ∀ p ∈ resized, ∀ w ∈ p, w.Typed := by simp [resized, Write.Typed, Field.isWord]
  obtain ⟨hshows, hsequence, _⟩ := hboards b hrun resized htyped
  refine ⟨b, hrun, hshows, hsequence, ?_⟩
  cases hrun
  decide

end GenHeap.Diagnostics.Board
