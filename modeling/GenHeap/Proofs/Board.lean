import GenHeap.Diagnostics.Board
import GenHeap.Proofs.Effect

/-!
Boards as tables from fields to words. A board has a cell for each field of the catalogue; what is
written to one field shows there, cut to the room that it has, and no other field changes. Words
that a shorter value leaves behind are not shown, and a longer one is written over them.
-/

namespace GenHeap.Diagnostics

namespace Field

/-- Whether a field is one word. -/
def isWord : Field → Bool
  | outOfMemoryEvents | dataPoints | compactions | expansions | mechanisms | internalRoots | budgets
  | allocated => false
  | _ => true

variable {f g : Field}

theorem index_lt (f : Field) : f.index < all.length :=
  (List.getElem?_eq_some_iff.1 (all_index f)).1

theorem index_inj : f.index = g.index ↔ f = g := by
  refine ⟨fun hindex => ?_, congrArg index⟩
  have hboth := (all_index f).symm.trans ((congrArg (all[·]?) hindex).trans (all_index g))
  exact Option.some.inj hboth

theorem isWord_iff :
    f.isWord = true ↔ f.descriptor.shape = .direct ∨ f.descriptor.shape = .pointer := by
  cases f <;> decide

end Field

/-! ## Cells -/

namespace Board

variable {room elementWords : Nat} {values : List Nat}

theorem length_fitting_le : (fitting room elementWords values).length ≤ room := by
  rw [fitting, List.length_take]
  exact Nat.le_trans (Nat.min_le_left ..) (Nat.le_trans (Nat.sub_le ..) (Nat.min_le_right ..))

/-- Whole elements that fit are shown as they are. -/
theorem fitting_of_le (hroom : values.length ≤ room) (hwhole : values.length % elementWords = 0) :
    fitting room elementWords values = values := by
  rw [fitting, Nat.min_eq_left hroom, hwhole, Nat.sub_zero, List.take_length]

end Board

namespace Cell

variable {c : Cell} {value : Nat} {values : List Nat}

/-- The room of a cell and of its elements. -/
def extent (c : Cell) : Nat × Nat := (c.store.length, c.elementWords)

theorem extent_set : (c.set value).extent = c.extent :=
  Prod.ext List.length_set rfl

theorem extent_setArray : (c.setArray values).extent = c.extent := by
  refine Prod.ext ?_ rfl
  show (Board.fitting c.store.length c.elementWords values ++ c.store.drop _).length = c.store.length
  rw [List.length_append, List.length_drop, Nat.add_sub_cancel' Board.length_fitting_le]

theorem words_setArray :
    (c.setArray values).words = Board.fitting c.extent.1 c.extent.2 values :=
  List.take_left' rfl

theorem length_words_set : (c.set value).words.length = c.words.length := by
  simp only [words, set, List.length_take, List.length_set]

theorem words_set (hextent : c.extent.1 = 1) (hshown : c.words.length = 1) :
    (c.set value).words = [value] := by
  obtain ⟨w, hw⟩ := List.length_eq_one_iff.1 hextent
  rw [words, hw, List.length_take, List.length_singleton] at hshown
  rw [words, set, hw]
  exact List.take_of_length_le (show 1 ≤ c.shown by omega)

/-- What a field shows before it is written: zeros, or nothing if its length varies. -/
theorem words_ofField (eventCapacity : Nat) (f : Field) : (ofField eventCapacity f).words =
    match f.descriptor.shape with
    | .varying _ => []
    | _ => List.replicate (Board.room eventCapacity f) 0 := by
  cases hshape : f.descriptor.shape <;> simp only [words, ofField, hshape]
  case varying => exact List.take_zero
  all_goals exact List.take_of_length_le (Nat.le_of_eq List.length_replicate)

end Cell

namespace Board

variable {b b' : Board} {f g : Field} {value capacity : Nat} {values : List Nat} {flag : Bool}
  {write : Cell → Cell}

/-- What a field shows before it is written: zeros, or nothing if its length varies. -/
def blank (f : Field) : List Nat :=
  match f.descriptor.shape with
  | .direct | .pointer => [0]
  | .fixed words => List.replicate words 0
  | .varying _ => []

/-- The room of each cell and of its elements. -/
def extents (b : Board) : List (Nat × Nat) := b.cells.map Cell.extent

/-- The events for which there is room. -/
def eventCapacity (b : Board) : Nat :=
  (b.extents.getD Field.outOfMemoryEvents.index (0, 0)).1 / OutOfMemory.Event.words

/-- A board with a cell for each field, with room for what it can show; it shows one word of a field
that is one. -/
structure Formed (b : Board) : Prop where
  extents : b.extents = Field.all.map fun f => (room b.eventCapacity f, elementWords f)
  single : ∀ {f : Field}, f.isWord = true → (b.words f).length = 1

theorem Formed.of_cells (hb : b.Formed) (hcells : b'.cells = b.cells) : b'.Formed := by
  obtain ⟨hextents, hsingle⟩ := hb
  unfold eventCapacity Board.extents at hextents
  unfold words at hsingle
  refine ⟨?_, fun hf => ?_⟩
  · unfold eventCapacity Board.extents
    rwa [hcells]
  · unfold words
    rw [hcells]
    exact hsingle hf

/-- The cell of a field. -/
theorem Formed.exists_cell (hb : b.Formed) (f : Field) : ∃ c, b.cells[f.index]? = some c ∧
    c.extent = (room b.eventCapacity f, elementWords f) := by
  have hextent : b.extents[f.index]? = some (room b.eventCapacity f, elementWords f) := by
    rw [hb.extents, List.getElem?_map, Field.all_index]
    rfl
  rw [Board.extents, List.getElem?_map] at hextent
  exact Option.map_eq_some_iff.1 hextent

theorem words_eq {c : Cell} (hc : b.cells[f.index]? = some c) : b.words f = c.words := by
  rw [words, hc]
  rfl

theorem words_modifyCell_self {c : Cell} (hc : b.cells[f.index]? = some c) :
    (b.modifyCell f write).words f = (write c).words := by
  refine words_eq ?_
  rw [modifyCell, List.getElem?_modify_eq, hc]
  rfl

theorem words_modifyCell_of_ne (hne : g ≠ f) : (b.modifyCell f write).words g = b.words g := by
  have hindex : f.index ≠ g.index := fun he => hne (Field.index_inj.1 he).symm
  simp only [words, modifyCell, List.getElem?_modify_ne _ _ hindex]

theorem extents_modifyCell (hwrite : ∀ c, (write c).extent = c.extent) :
    (b.modifyCell f write).extents = b.extents := by
  refine List.ext_getElem? fun i => ?_
  simp only [extents, modifyCell, List.getElem?_map, List.getElem?_modify]
  cases b.cells[i]? with
  | none => rfl
  | some c =>
    simp only [Option.map_eq_map, Option.map_some]
    split
    · rw [hwrite]
    · rfl

/-! ## Fields -/

theorem room_of_isWord (hf : f.isWord = true) : room capacity f = 1 := by
  rcases Field.isWord_iff.1 hf with hshape | hshape <;> simp only [room, hshape]

theorem elementWords_of_isWord (hf : f.isWord = true) : elementWords f = 1 := by
  rcases Field.isWord_iff.1 hf with hshape | hshape <;> simp only [elementWords, hshape]

theorem fitting_of_isWord (hf : f.isWord = true) :
    fitting (room capacity f) (elementWords f) [value] = [value] := by
  rw [room_of_isWord hf, elementWords_of_isWord hf]
  exact fitting_of_le (Nat.le_refl 1) (Nat.mod_one 1)

theorem words_set_self (hb : b.Formed) (hf : f.isWord = true) :
    (b.set f value).words f = [value] := by
  obtain ⟨c, hc, hextent⟩ := hb.exists_cell f
  have hshown := hb.single hf
  rw [words_eq hc] at hshown
  refine (words_modifyCell_self hc).trans (Cell.words_set ?_ hshown)
  rw [hextent, room_of_isWord hf]

theorem words_set_of_ne (hne : g ≠ f) : (b.set f value).words g = b.words g :=
  words_modifyCell_of_ne hne

theorem words_setFlag_self (hb : b.Formed) (hf : f.isWord = true) :
    (b.setFlag f flag).words f = [if flag then 1 else 0] := words_set_self hb hf

theorem words_setFlag_of_ne (hne : g ≠ f) : (b.setFlag f flag).words g = b.words g :=
  words_set_of_ne hne

theorem words_setArray_self (hb : b.Formed) : (b.setArray f values).words f =
    fitting (room b.eventCapacity f) (elementWords f) values := by
  obtain ⟨c, hc, hextent⟩ := hb.exists_cell f
  refine (words_modifyCell_self hc).trans ?_
  rw [Cell.words_setArray, hextent]

theorem words_setArray_of_ne (hne : g ≠ f) : (b.setArray f values).words g = b.words g :=
  words_modifyCell_of_ne hne

theorem extents_set : (b.set f value).extents = b.extents :=
  extents_modifyCell fun _ => Cell.extent_set

theorem extents_setArray : (b.setArray f values).extents = b.extents :=
  extents_modifyCell fun _ => Cell.extent_setArray

theorem eventCapacity_of_extents (h : b'.extents = b.extents) :
    b'.eventCapacity = b.eventCapacity := by
  rw [eventCapacity, h, eventCapacity]

theorem eventCapacity_set : (b.set f value).eventCapacity = b.eventCapacity :=
  eventCapacity_of_extents extents_set

theorem eventCapacity_setFlag : (b.setFlag f flag).eventCapacity = b.eventCapacity :=
  eventCapacity_set

theorem eventCapacity_setArray : (b.setArray f values).eventCapacity = b.eventCapacity :=
  eventCapacity_of_extents extents_setArray

/-! ## Well-formed boards -/

/-- Writing a word shows as many words as before. -/
theorem length_words_set : ((b.set f value).words g).length = (b.words g).length := by
  by_cases hne : g = f
  · subst hne
    cases hc : b.cells[g.index]? with
    | none =>
      unfold words set modifyCell
      rw [List.getElem?_modify_eq, hc]
      rfl
    | some c =>
      rw [words_eq hc]
      exact (congrArg List.length (words_modifyCell_self hc)).trans Cell.length_words_set
  · rw [words_set_of_ne hne]

/-- Whether a board is well-formed depends on its extents and on how many words its fields show. -/
theorem formed_congr (hextents : b'.extents = b.extents)
    (hlength : ∀ {g : Field}, g.isWord = true → (b'.words g).length = (b.words g).length) :
    b'.Formed ↔ b.Formed := by
  have hcapacity := eventCapacity_of_extents hextents
  constructor
  · rintro ⟨h, hsingle⟩
    exact ⟨by rw [← hextents, h, hcapacity], fun hg => (hlength hg).symm.trans (hsingle hg)⟩
  · rintro ⟨h, hsingle⟩
    exact ⟨by rw [hextents, h, hcapacity], fun hg => (hlength hg).trans (hsingle hg)⟩

theorem formed_set : (b.set f value).Formed ↔ b.Formed :=
  formed_congr extents_set fun _ => length_words_set

theorem formed_setFlag : (b.setFlag f flag).Formed ↔ b.Formed := formed_set

theorem formed_setArray (hf : f.isWord = false) : (b.setArray f values).Formed ↔ b.Formed := by
  refine formed_congr extents_setArray fun {g} hg => ?_
  rw [words_setArray_of_ne]
  rintro rfl
  cases hg.symm.trans hf

theorem formed_turn : b.turn.Formed ↔ b.Formed :=
  ⟨fun hb => hb.of_cells rfl, fun hb => hb.of_cells rfl⟩

theorem words_publish {write : Board → Board} :
    (b.publish write).words f = (write b.turn).words f := rfl

theorem eventCapacity_publish {write : Board → Board}
    (hwrite : ∀ b, (write b).eventCapacity = b.eventCapacity) :
    (b.publish write).eventCapacity = b.eventCapacity := hwrite b.turn

theorem ofCapacity_eq_ok (hrun : ofCapacity capacity = .ok b) :
    b = { cells := Field.all.map (.ofField capacity) } := by
  simp only [ofCapacity, Checked.bind_eq_ok, Checked.pure_eq_ok] at hrun
  obtain ⟨_, _, _, _, rfl⟩ := hrun
  rfl

theorem words_ofCapacity (hrun : ofCapacity capacity = .ok b) (f : Field) :
    b.words f = blank f := by
  have hcell : b.cells[f.index]? = some (.ofField capacity f) := by
    rw [ofCapacity_eq_ok hrun, List.getElem?_map, Field.all_index]
    rfl
  rw [words_eq hcell, Cell.words_ofField]
  cases f <;> rfl

theorem eventCapacity_ofCapacity (hrun : ofCapacity capacity = .ok b) :
    b.eventCapacity = capacity := by
  rw [ofCapacity_eq_ok hrun]
  show (List.replicate (OutOfMemory.Event.words * capacity) 0).length / OutOfMemory.Event.words = _
  rw [List.length_replicate]
  exact Nat.mul_div_cancel_left _ (by decide)

theorem formed_ofCapacity (hrun : ofCapacity capacity = .ok b) : b.Formed := by
  refine ⟨?_, fun {f} hf => ?_⟩
  · rw [eventCapacity_ofCapacity hrun, ofCapacity_eq_ok hrun, extents, List.map_map]
    refine List.map_congr_left fun f _ => Prod.ext ?_ rfl
    exact List.length_replicate
  · rw [words_ofCapacity hrun]
    rcases Field.isWord_iff.1 hf with hshape | hshape <;> simp only [blank, hshape] <;> rfl

end Board

end GenHeap.Diagnostics
