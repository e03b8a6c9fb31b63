import GenHeap.Proofs.Json.Token

/-!
JSON values written and read again. A value is written as the text of its tokens, with spaces
between them, and the tokens of a value are read as that value, inside whatever containers are
open.
-/

namespace GenHeap.Json

open Token (Ends Reads)

/-- Values that a text can hold as they are: natural numbers only, and a text for every string and
every key. -/
inductive Plain : Json → Prop where
  | null : Plain null
  | bool (b : Bool) : Plain (bool b)
  | natural (n : Nat) : Plain (natural n)
  | string (s : String) : Plain (string (some s))
  | array {vs : List Json} (hvs : ∀ v ∈ vs, Plain v) : Plain (array vs)
  | object {es : List (Option String × Json)} (hkeys : ∀ e ∈ es, e.1.isSome = true)
    (hes : ∀ e ∈ es, Plain e.2) : Plain (object es)

mutual

/-- The tokens of a value. -/
def tokens : Json → List Token
  | null => [.null]
  | bool b => [.bool b]
  | natural n => [.natural n]
  | number literal => [.number literal]
  | string text => [.string text]
  | array [] => [.beginArray, .endArray]
  | array (v :: vs) => .beginArray :: (tokens v ++ (laterValues vs ++ [.endArray]))
  | object [] => [.beginObject, .endObject]
  | object ((k, v) :: es) =>
    .beginObject :: .string k :: .colon :: (tokens v ++ (laterEntries es ++ [.endObject]))

def laterValues : List Json → List Token
  | [] => []
  | v :: vs => .comma :: (tokens v ++ laterValues vs)

def laterEntries : List (Option String × Json) → List Token
  | [] => []
  | (k, v) :: es => .comma :: .string k :: .colon :: (tokens v ++ laterEntries es)

end

variable {j v : Json} {vs : List Json} {es : List (Option String × Json)} {depth : Nat}
  {cs : List Char} {ts : List Token} {stack : List Frame}

/-! ## From text to tokens -/

/-- A value is found in front of whatever follows it. -/
def Legible (j : Json) : Prop :=
  ∀ depth cs ts, Ends cs → Reads cs ts → Reads (write depth j ++ cs) (tokens j ++ ts)

theorem reads_newLine (h : Reads cs ts) : Reads (newLine depth ++ cs) ts :=
  (h.spaces _).space rfl

theorem ends_newLine (depth : Nat) (cs : List Char) : Ends (newLine depth ++ cs) := rfl

theorem reads_key {k : Option String} (hk : k.isSome = true) (h : Reads cs ts) :
    Reads (quote (k.getD "") ++ ':' :: ' ' :: cs) (.string k :: .colon :: ts) := by
  obtain ⟨s, rfl⟩ := Option.isSome_iff_exists.1 hk
  exact ((h.space rfl).mark rfl rfl).quote s

theorem reads_writeValues (depth : Nat) (hvs : ∀ v ∈ vs, Legible v) (hend : Ends cs) (h : Reads cs ts) :
    Reads (writeValues depth vs ++ cs) (laterValues vs ++ ts) ∧
      Ends (writeValues depth vs ++ cs) := by
  induction vs with
  | nil => exact ⟨h, hend⟩
  | cons v vs ih =>
    obtain ⟨hrest, hnext⟩ := ih fun v hv => hvs v (List.mem_cons_of_mem _ hv)
    have hv := hvs v List.mem_cons_self depth _ _ hnext hrest
    rw [writeValues, laterValues]
    simp only [List.cons_append, List.append_assoc]
    exact ⟨(reads_newLine hv).mark rfl rfl, rfl⟩

theorem reads_writeEntries (depth : Nat) (hkeys : ∀ e ∈ es, e.1.isSome = true)
    (hes : ∀ e ∈ es, Legible e.2) (hend : Ends cs) (h : Reads cs ts) :
    Reads (writeEntries depth es ++ cs) (laterEntries es ++ ts) ∧
      Ends (writeEntries depth es ++ cs) := by
  induction es with
  | nil => exact ⟨h, hend⟩
  | cons e es ih =>
    obtain ⟨hrest, hnext⟩ := ih (fun e he => hkeys e (List.mem_cons_of_mem _ he))
      fun e he => hes e (List.mem_cons_of_mem _ he)
    have hv := hes e List.mem_cons_self depth _ _ hnext hrest
    have hk := reads_key (hkeys e List.mem_cons_self) hv
    obtain ⟨k, v⟩ := e
    rw [writeEntries, laterEntries]
    simp only [List.cons_append, List.append_assoc, List.nil_append]
    exact ⟨(reads_newLine hk).mark rfl rfl, rfl⟩

/-- The tokens of a plain value are those of its text, at every depth. -/
theorem Plain.legible (hj : Plain j) : Legible j := by
  induction hj with
  | null =>
    intro depth cs ts hend h
    exact h.word rfl rfl hend
  | bool b =>
    intro depth cs ts hend h
    cases b with
    | false => exact h.word rfl rfl hend
    | true => exact h.word rfl rfl hend
  | natural n =>
    intro depth cs ts hend h
    exact h.natural n hend
  | string s =>
    intro depth cs ts hend h
    exact h.quote s
  | @array vs hvs ih =>
    intro depth cs ts hend h
    cases vs with
    | nil => exact (h.mark rfl rfl).mark rfl rfl
    | cons v vs =>
      have hclose : Reads (newLine depth ++ ']' :: cs) (.endArray :: ts) :=
        reads_newLine (h.mark rfl rfl)
      obtain ⟨hrest, hnext⟩ := reads_writeValues (depth + 1)
        (fun v hv => ih v (List.mem_cons_of_mem _ hv)) (ends_newLine _ _) hclose
      have hv := ih v List.mem_cons_self (depth + 1) _ _ hnext hrest
      rw [write, tokens]
      simp only [List.cons_append, List.append_assoc, List.nil_append]
      exact (reads_newLine hv).mark rfl rfl
  | @object es hkeys hes ih =>
    intro depth cs ts hend h
    cases es with
    | nil => exact (h.mark rfl rfl).mark rfl rfl
    | cons e es =>
      have hclose : Reads (newLine depth ++ '\x7d' :: cs) (.endObject :: ts) :=
        reads_newLine (h.mark rfl rfl)
      obtain ⟨hrest, hnext⟩ := reads_writeEntries (depth + 1)
        (fun e he => hkeys e (List.mem_cons_of_mem _ he))
        (fun e he => ih e (List.mem_cons_of_mem _ he)) (ends_newLine _ _) hclose
      have hv := ih e List.mem_cons_self (depth + 1) _ _ hnext hrest
      have hk := reads_key (hkeys e List.mem_cons_self) hv
      obtain ⟨k, v⟩ := e
      rw [write, tokens]
      simp only [List.cons_append, List.append_assoc, List.nil_append]
      exact (reads_newLine hk).mark rfl rfl

/-! ## From tokens to values -/

/-- The tokens of a value are read as it, inside whatever is open. -/
def Readable (j : Json) : Prop :=
  ∀ stack ts, readValue stack (tokens j ++ ts) = readRest stack j ts

theorem tokens_ne_endArray (j : Json) (more : List Token) : tokens j ++ ts ≠ .endArray :: more := by
  match j with
  | .array [] | .array (_ :: _) | .object [] | .object (_ :: _) => nofun
  | .null | .bool _ | .natural _ | .number _ | .string _ => nofun

/-- No value looks like a key, if no colon follows it. -/
theorem tokens_ne_key {t : Token} (ht : t ≠ .colon) (j : Json) (key : Option String)
    (more : List Token) : tokens j ++ t :: ts ≠ .string key :: .colon :: more := by
  match j with
  | .array [] | .array (_ :: _) | .object [] | .object (_ :: _) => nofun
  | .null | .bool _ | .natural _ | .number _ => nofun
  | .string _ =>
    intro h
    cases h
    exact ht rfl

theorem exists_laterValues (vs : List Json) (ts : List Token) :
    ∃ t more, laterValues vs ++ .endArray :: ts = t :: more ∧ t ≠ .colon := by
  cases vs with
  | nil => exact ⟨_, _, rfl, nofun⟩
  | cons v vs => exact ⟨_, _, rfl, nofun⟩

theorem readRest_laterValues (hvs : ∀ v ∈ vs, Readable v) (done : List Json) (v : Json) :
    readRest (.array done :: stack) v (laterValues vs ++ .endArray :: ts) =
      readRest stack (array (done.reverse ++ v :: vs)) ts := by
  induction vs generalizing done v with
  | nil =>
    rw [laterValues, List.nil_append, readRest, List.reverse_cons]
  | cons w vs ih =>
    obtain ⟨t, more, hmore, ht⟩ := exists_laterValues vs ts
    have hnokey : ∀ (key : Option String) (rest : List Token),
        tokens w ++ (laterValues vs ++ .endArray :: ts) = .string key :: .colon :: rest → False := by
      intro key rest
      rw [hmore]
      exact tokens_ne_key ht w key rest
    rw [laterValues, List.cons_append, List.append_assoc, readRest.eq_5 _ _ _ _ hnokey,
      hvs w List.mem_cons_self, ih (fun v hv => hvs v (List.mem_cons_of_mem _ hv)),
      List.reverse_cons, List.append_assoc]
    rfl

theorem readRest_laterEntries (hes : ∀ e ∈ es, Readable e.2) (done : List (Option String × Json))
    (k : Option String) (v : Json) :
    readRest (.object done k :: stack) v (laterEntries es ++ .endObject :: ts) =
      readRest stack (object (done.reverse ++ (k, v) :: es)) ts := by
  induction es generalizing done k v with
  | nil =>
    rw [laterEntries, List.nil_append, readRest, List.reverse_cons]
  | cons e es ih =>
    obtain ⟨key, w⟩ := e
    rw [laterEntries]
    simp only [List.cons_append, List.append_assoc]
    rw [readRest, hes (key, w) List.mem_cons_self,
      ih (fun e he => hes e (List.mem_cons_of_mem _ he)), List.reverse_cons, List.append_assoc]
    rfl

theorem Plain.readable (hj : Plain j) : Readable j := by
  induction hj with
  | null => exact fun _ _ => rfl
  | bool b => exact fun _ _ => rfl
  | natural n => exact fun _ _ => rfl
  | string s => exact fun _ _ => rfl
  | @array vs hvs ih =>
    intro stack ts
    cases vs with
    | nil => exact readValue.eq_1 stack ts
    | cons v vs =>
      rw [tokens]
      simp only [List.cons_append, List.append_assoc, List.nil_append]
      rw [readValue.eq_2 _ _ fun more => tokens_ne_endArray v more, ih v List.mem_cons_self,
        readRest_laterValues fun v hv => ih v (List.mem_cons_of_mem _ hv)]
      rfl
  | @object es hkeys hes ih =>
    intro stack ts
    cases es with
    | nil => exact readValue.eq_3 stack ts
    | cons e es =>
      obtain ⟨k, v⟩ := e
      rw [tokens]
      simp only [List.cons_append, List.append_assoc, List.nil_append]
      rw [readValue, ih (k, v) List.mem_cons_self,
        readRest_laterEntries fun e he => ih e (List.mem_cons_of_mem _ he)]
      rfl

/-! ## The whole -/

/-- A plain value is what its text says. -/
theorem ofText?_text (hj : Plain j) : ofText? j.text = some j := by
  have hreads := hj.legible 0 [] [] rfl Token.reads_nil _ (Nat.le_refl _)
  have htokens : Token.ofText? j.text = some (tokens j) := by
    unfold Token.ofText? text
    rw [String.toList_ofList]
    rwa [List.append_nil, List.append_nil] at hreads
  have hvalue := hj.readable [] []
  rw [List.append_nil, readRest.eq_1] at hvalue
  unfold ofText?
  rw [htokens]
  exact hvalue

end GenHeap.Json
