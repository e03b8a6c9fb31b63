import Mathlib.Data.List.Flatten
import GenHeap.Proofs.FinalizationQueue

/-!
The order of a finalization queue. Its buckets, in the order in which they are sorted anew, are one line.
An entry that is registered enters the line behind all that wait in its bucket, and so in front of
those in the buckets behind it. From then on the line only loses entries: a collection that makes
objects older moves buckets as wholes, each to the end of the one before it.
-/

namespace GenHeap

/-- Where the survivors of a generation are after a collection of `c`. -/
def Generation.aged (c g : Generation) : Generation :=
  if g.ephemeral && g.condemnedBy c then g.promoted else g

namespace FinalizationQueue

variable {q q' : FinalizationQueue} {a b object : Nat} {g c : Generation} {f : Nat → Nat}
  {live : Nat → Bool}

/-- The objects that wait in one bucket. -/
def bucket (q : FinalizationQueue) (g : Generation) : List Nat := (q.pending.get g).map (·.object)

/-- The objects that wait, in one line. -/
def line (q : FinalizationQueue) : List Nat := sortOrder.flatMap q.bucket

/-- The objects that wait in the buckets behind that of a generation. -/
def behind (q : FinalizationQueue) (g : Generation) : List Nat :=
  ((sortOrder.dropWhile (· != g)).drop 1).flatMap q.bucket

theorem perm_line : q.line.Perm q.waiting := by
  have horder : sortOrder.Perm Generation.all := by decide
  unfold waiting
  rw [List.map_flatMap]
  exact horder.flatMap_right _

theorem mem_line : a ∈ q.line ↔ a ∈ q.waiting := perm_line.mem_iff

theorem Tidy.nodup_line (h : q.Tidy) : q.line.Nodup := perm_line.nodup_iff.2 h.waiting

theorem bucket_sublist_line (q : FinalizationQueue) (g : Generation) :
    (q.bucket g).Sublist q.line := by
  have hg : g ∈ sortOrder := by cases g <;> decide
  obtain ⟨front, back, he⟩ := List.append_of_mem hg
  rw [line, he, List.flatMap_append, List.flatMap_cons]
  exact .trans (List.sublist_append_left ..) (List.sublist_append_right ..)

theorem line_of_pending (hp : q'.pending = q.pending) : q'.line = q.line := by
  unfold line bucket
  rw [hp]

/-! ## What happens to the line -/

theorem bucket_register (k : Generation) :
    (q.register a g).bucket k = if k = g then q.bucket g ++ [a] else q.bucket k := by
  unfold bucket register
  split
  next hk =>
    subst hk
    rw [PerGeneration.get_modify_self, List.map_append]
    rfl
  next hk => rw [PerGeneration.get_modify_of_ne _ _ hk]

/-- A registration enters the line in front of the buckets behind its own. -/
theorem line_register (q : FinalizationQueue) (a : Nat) (g : Generation) :
    ∃ front, q.line = front ++ q.behind g ∧ (q.register a g).line = front ++ a :: q.behind g := by
  obtain ⟨before, after, he, hbefore, hafter, hbehind⟩ : ∃ before after,
      sortOrder = before ++ g :: after ∧ g ∉ before ∧ g ∉ after ∧
        (sortOrder.dropWhile (· != g)).drop 1 = after := by
    cases g
    case gen2 => exact ⟨[], _, rfl, by decide, by decide, rfl⟩
    case gen1 => exact ⟨[.gen2], _, rfl, by decide, by decide, rfl⟩
    case gen0 => exact ⟨[.gen2, .gen1], _, rfl, by decide, by decide, rfl⟩
    case large => exact ⟨[.gen2, .gen1, .gen0], _, rfl, by decide, by decide, rfl⟩
    case pinned => exact ⟨[.gen2, .gen1, .gen0, .large], _, rfl, by decide, by decide, rfl⟩
  have hother {gs : List Generation} (hg : g ∉ gs) :
      gs.flatMap (q.register a g).bucket = gs.flatMap q.bucket := by
    refine List.flatMap_congr fun k hk => ?_
    rw [bucket_register, if_neg fun (h : k = g) => hg (h ▸ hk)]
  refine ⟨before.flatMap q.bucket ++ q.bucket g, ?_, ?_⟩
  · rw [line, behind, hbehind, he, List.flatMap_append, List.flatMap_cons, List.append_assoc]
  · rw [line, behind, hbehind, he, List.flatMap_append, List.flatMap_cons, hother hbefore,
      hother hafter, bucket_register, if_pos rfl]
    simp only [List.append_assoc, List.singleton_append]

theorem line_suppress_sublist (q : FinalizationQueue) (object : Nat) :
    (q.suppress object).line.Sublist q.line := by
  unfold suppress
  split
  · exact .refl _
  next g _ =>
    refine List.Sublist.flatMap_right _ fun k _ => ?_
    unfold bucket
    by_cases hk : k = g
    · subst hk
      rw [PerGeneration.get_modify_self]
      exact List.eraseP_sublist.map _
    · rw [PerGeneration.get_modify_of_ne _ _ hk]

theorem line_relocate : (q.relocate f).line = q.line.map f := by
  have hbucket (k : Generation) : (q.relocate f).bucket k = (q.bucket k).map f := by
    simp only [bucket, relocate, PerGeneration.get_map, List.map_map]
    rfl
  unfold line
  rw [List.map_flatMap]
  exact List.flatMap_congr fun k _ => hbucket k

/-- A scan that finds all live in the buckets that are not condemned takes the dead out of the line. -/
theorem line_scanUnreachable (hspared : ∀ g, g.condemnedBy c = false → ∀ a ∈ q.bucket g,
    live a = true) : (q.scanUnreachable c live).line = q.line.filter live := by
  unfold line
  rw [List.filter_flatMap]
  refine List.flatMap_congr fun g _ => ?_
  have hfilter : (q.bucket g).filter live = ((q.pending.get g).filter (live ·.object)).map (·.object) :=
    List.filter_map
  rw [hfilter, bucket, scanUnreachable, PerGeneration.get_ofFn]
  split
  next => rfl
  next hg =>
    have hall : ∀ e ∈ q.pending.get g, live e.object = true := fun e he =>
      hspared g (Bool.eq_false_iff.2 hg) _ (List.mem_map_of_mem he)
    rw [List.filter_eq_self.2 hall]

section Sorting

variable {generationOf : Nat → Option Generation}

/-- Where all entries of a bucket go to the same one, buckets are moved as wholes. -/
theorem bucket_syncGenerations {next : Generation → Generation}
    (hnext : ∀ g, ∀ e ∈ q.pending.get g, (generationOf e.object).getD e.generation = next g)
    (k : Generation) : (q.syncGenerations generationOf).bucket k =
      (sortOrder.filter (next · == k)).flatMap q.bucket := by
  have hmoved (g : Generation) : (((q.pending.get g).map fun e =>
      { e with generation := (generationOf e.object).getD e.generation }).filter
        (·.generation == k)).map (·.object) = if next g == k then q.bucket g else [] := by
    rw [List.filter_map, List.map_map]
    split
    next hk =>
      rw [List.filter_eq_self.2 fun e he => ?_]
      · rfl
      · rw [Function.comp_apply, hnext g e he]
        exact hk
    next hk =>
      rw [List.filter_eq_nil_iff.2 fun e he => ?_]
      · rfl
      · rw [Function.comp_apply, hnext g e he]
        exact hk
  unfold bucket syncGenerations
  rw [PerGeneration.get_ofFn, List.map_flatMap, List.filter_flatMap, List.map_flatMap]
  induction sortOrder with
  | nil => rfl
  | cons g gs ih =>
    rw [List.flatMap_cons, ih, hmoved, List.filter_cons]
    split <;> rfl

/-- No bucket passes another one. -/
theorem line_syncGenerations (hnext : ∀ g, ∀ e ∈ q.pending.get g,
    (generationOf e.object).getD e.generation = Generation.aged c g) :
    (q.syncGenerations generationOf).line = q.line := by
  have horder : (sortOrder.flatMap fun k => sortOrder.filter (Generation.aged c · == k)) =
      sortOrder := by
    cases c <;> decide
  calc (q.syncGenerations generationOf).line
      = sortOrder.flatMap fun k =>
          (sortOrder.filter (Generation.aged c · == k)).flatMap q.bucket :=
        List.flatMap_congr fun k _ => bucket_syncGenerations hnext k
    _ = (sortOrder.flatMap fun k => sortOrder.filter (Generation.aged c · == k)).flatMap q.bucket :=
        List.flatMap_assoc.symm
    _ = q.line := by rw [horder, line]

end Sorting

/-- What waits in `q'` waited in `q`, in the same order, and was moved by `f`. -/
structure Keeps (f : Nat → Nat) (q q' : FinalizationQueue) : Prop where
  line : ∃ live : Nat → Bool, q'.line = (q.line.filter live).map f
  injective : ∀ a ∈ q.line, ∀ b ∈ q.line, f a = f b → a = b
  registered : q'.registered = q.registered

theorem Keeps.of_pending (hp : q'.pending = q.pending) (hr : q'.registered = q.registered) :
    Keeps id q q' := by
  refine ⟨⟨fun _ => true, ?_⟩, fun _ _ _ _ he => he, hr⟩
  rw [line_of_pending hp, List.filter_true, List.map_id]

theorem eq_filter_of_sublist {xs ys : List Nat} (hs : xs.Sublist ys) (hn : ys.Nodup) :
    xs = ys.filter (xs.contains ·) := by
  induction hs with
  | slnil => rfl
  | cons y hs ih =>
    obtain ⟨hy, hn⟩ := List.nodup_cons.1 hn
    rw [List.filter_cons_of_neg (by simpa using fun h => hy (hs.subset h))]
    exact ih hn
  | @cons_cons xs ys y hs ih =>
    obtain ⟨hy, hn⟩ := List.nodup_cons.1 hn
    rw [List.filter_cons_of_pos (by simp)]
    refine congrArg _ ((ih hn).trans (List.filter_congr fun z hz => ?_))
    have hne : z ≠ y := fun h => hy (h ▸ hz)
    simp [hne]

theorem not_both_orders {xs : List Nat} (hn : xs.Nodup) (hab : [a, b].Sublist xs) :
    ¬ [b, a].Sublist xs := by
  induction xs with
  | nil => cases hab
  | cons x xs ih =>
    obtain ⟨hx, hn⟩ := List.nodup_cons.1 hn
    intro hba
    cases hab with
    | cons _ hab =>
      cases hba with
      | cons _ hba => exact ih hn hab hba
      | cons_cons _ hba => exact hx (hab.subset (List.mem_cons_of_mem _ List.mem_cons_self))
    | cons_cons _ hab =>
      have hb : b ∈ xs := List.singleton_sublist.1 hab
      cases hba with
      | cons _ hba => exact hx (hba.subset (List.mem_cons_of_mem _ List.mem_cons_self))
      | cons_cons _ hba => exact hx hb

/-- What stands in a list in some order does so in a part of it. -/
theorem sublist_of_mem {xs ys : List Nat} (hs : xs.Sublist ys) (hn : ys.Nodup)
    (hab : [a, b].Sublist ys) (ha : a ∈ xs) (hb : b ∈ xs) : [a, b].Sublist xs := by
  have hboth : [a, b].filter (xs.contains ·) = [a, b] := List.filter_eq_self.2 (by simp [ha, hb])
  rw [eq_filter_of_sublist hs hn, ← hboth]
  exact hab.filter _

theorem keeps_suppress (ht : q.Tidy) (object : Nat) : Keeps id q (q.suppress object) := by
  refine ⟨⟨(q.suppress object).line.contains, ?_⟩, fun _ _ _ _ he => he, registered_suppress⟩
  rw [List.map_id]
  exact eq_filter_of_sublist (line_suppress_sublist q object) ht.nodup_line

end FinalizationQueue

/-! ## The roll of what waits -/

/-- A registration that waits: its number among those of its queue, its object, and the numbers of the
registrations that waited in the buckets behind its own when it was made. -/
structure Ticket where
  number : Nat
  object : Nat
  overtook : List Nat

/-- The same registration, with its object moved by `f`. -/
def Ticket.move (f : Nat → Nat) (t : Ticket) : Ticket := { t with object := f t.object }

namespace FinalizationQueue

variable {q q' : FinalizationQueue} {a b object : Nat} {g c : Generation} {f : Nat → Nat}
  {roll : List Ticket} {t u : Ticket}

/-- The tickets of what still waits, with their objects moved by `f`. -/
def retain (f : Nat → Nat) (roll : List Ticket) (q' : FinalizationQueue) : List Ticket :=
  (roll.map (·.move f)).filter fun t => q'.isRegistered t.object

/-- One more ticket, for an object of a generation that is to be registered. -/
def enroll (q : FinalizationQueue) (a : Nat) (g : Generation) (roll : List Ticket) : List Ticket :=
  roll ++ [{
    number := q.registered, object := a
    overtook := (roll.filter fun t => (q.behind g).contains t.object).map (·.number) }]

/-- All that waits has its ticket on the roll, in the order of registration. Of two, the later one is in
front in the line exactly if it overtook the other one. -/
structure Enlists (q : FinalizationQueue) (roll : List Ticket) : Prop where
  objects : (roll.map (·.object)).Perm q.line
  numbers : roll.Pairwise fun t u => t.number < u.number
  bounded : ∀ t ∈ roll, t.number < q.registered
  order : roll.Pairwise fun t u => if t.number ∈ u.overtook
    then [u.object, t.object].Sublist q.line else [t.object, u.object].Sublist q.line

theorem enlists_empty (h : q.line = []) : q.Enlists [] :=
  ⟨h ▸ .refl _, .nil, fun _ ht => absurd ht List.not_mem_nil, .nil⟩

theorem Enlists.mem_line (h : q.Enlists roll) (ht : t ∈ roll) : t.object ∈ q.line :=
  h.objects.mem_iff.1 (List.mem_map_of_mem ht)

theorem Enlists.number_inj (h : q.Enlists roll) (ht : t ∈ roll) (hu : u ∈ roll)
    (he : t.number = u.number) : t = u := by
  have hnodup : (roll.map (·.number)).Nodup :=
    List.pairwise_map.2 (h.numbers.imp fun hlt => Nat.ne_of_lt hlt)
  exact List.inj_on_of_nodup_map hnodup ht hu he

theorem Keeps.line_eq (hk : Keeps f q q') :
    q'.line = (q.line.filter fun a => q'.isRegistered (f a)).map f := by
  obtain ⟨live, hline⟩ := hk.line
  refine hline.trans (congrArg _ (List.filter_congr fun a ha => ?_))
  rw [Bool.eq_iff_iff, isRegistered_iff, ← FinalizationQueue.mem_line, hline, List.mem_map]
  constructor
  · exact fun hl => ⟨a, List.mem_filter.2 ⟨ha, hl⟩, rfl⟩
  · rintro ⟨b, hb, he⟩
    obtain ⟨hb, hl⟩ := List.mem_filter.1 hb
    rwa [hk.injective b hb a ha he] at hl

/-- Two that stay keep their order. -/
theorem Keeps.sublist (hk : Keeps f q q') (ha : q'.isRegistered (f a) = true)
    (hb : q'.isRegistered (f b) = true) (hab : [a, b].Sublist q.line) :
    [f a, f b].Sublist q'.line := by
  have hboth : ([a, b].filter fun x => q'.isRegistered (f x)) = [a, b] :=
    List.filter_eq_self.2 (by simp [ha, hb])
  have hfiltered := (hab.filter fun x => q'.isRegistered (f x)).map f
  rwa [← hk.line_eq, hboth] at hfiltered

theorem Enlists.keeps (h : q.Enlists roll) (hk : Keeps f q q') : q'.Enlists (retain f roll q') := by
  have hpairs {R S : Ticket → Ticket → Prop} (hp : roll.Pairwise R)
      (hRS : ∀ t u, q'.isRegistered (f t.object) = true → q'.isRegistered (f u.object) = true →
        R t u → S (t.move f) (u.move f)) : (retain f roll q').Pairwise S :=
    List.pairwise_filter.2 (List.pairwise_map.2 (hp.imp fun {t u} hR
      (ht : q'.isRegistered (t.move f).object = true) hu => hRS t u ht hu hR))
  refine ⟨?_, hpairs h.numbers fun _ _ _ _ hlt => hlt, fun t ht => ?_, hpairs h.order ?_⟩
  · have hobjects : (retain f roll q').map (·.object) =
        ((roll.map (·.object)).filter fun a => q'.isRegistered (f a)).map f := by
      simp only [retain, List.filter_map, List.map_map]
      rfl
    rw [hobjects, hk.line_eq]
    exact (h.objects.filter _).map f
  · obtain ⟨t₀, ht₀, rfl⟩ := List.mem_map.1 (List.mem_filter.1 ht).1
    rw [hk.registered]
    exact h.bounded t₀ ht₀
  · intro t u ht hu hR
    show if t.number ∈ u.overtook then _ else _
    split
    next hover => exact hk.sublist hu ht (by rwa [if_pos hover] at hR)
    next hover => exact hk.sublist ht hu (by rwa [if_neg hover] at hR)

/-- A new ticket is behind all of its bucket, and has overtaken what waits in the buckets behind. -/
theorem Enlists.register (h : q.Enlists roll) (a : Nat) (g : Generation) :
    (q.register a g).Enlists (q.enroll a g roll) := by
  obtain ⟨front, hline, hline'⟩ := line_register q a g
  have hold : q.line.Sublist (q.register a g).line := by
    rw [hline, hline']
    exact (List.sublist_cons_self ..).append_left _
  have hovertook {t : Ticket} (ht : t ∈ roll) : t.number ∈ (roll.filter fun t =>
      (q.behind g).contains t.object).map (·.number) ↔ t.object ∈ q.behind g := by
    simp only [List.mem_map, List.mem_filter, List.contains_iff_mem]
    constructor
    · rintro ⟨u, ⟨hu, hbehind⟩, he⟩
      rwa [← h.number_inj hu ht he]
    · exact fun hbehind => ⟨t, ⟨ht, hbehind⟩, rfl⟩
  refine ⟨?_, ?_, fun t ht => ?_, ?_⟩
  · rw [enroll, List.map_append, hline']
    refine (h.objects.append_right _).trans ?_
    rw [hline]
    exact (List.perm_append_singleton a _).trans List.perm_middle.symm
  · refine List.pairwise_append.2 ⟨h.numbers, List.pairwise_singleton .., fun t ht u hu => ?_⟩
    rw [List.mem_singleton.1 hu]
    exact h.bounded t ht
  · rcases List.mem_append.1 ht with ht | ht
    · exact Nat.lt_succ_of_lt (h.bounded t ht)
    · rw [List.mem_singleton.1 ht]
      exact Nat.lt_succ_self _
  · refine List.pairwise_append.2 ⟨h.order.imp fun {t u} hR => ?_, List.pairwise_singleton ..,
      fun t ht u hu => ?_⟩
    · split
      next hover => exact .trans (by rwa [if_pos hover] at hR) hold
      next hover => exact .trans (by rwa [if_neg hover] at hR) hold
    · rw [List.mem_singleton.1 hu, hline']
      have hmem := h.mem_line ht
      rw [hline, List.mem_append] at hmem
      split
      next hover =>
        have hbehind := (hovertook ht).1 hover
        exact ((List.singleton_sublist.2 hbehind).cons_cons a).trans (List.sublist_append_right ..)
      next hover =>
        have hfront := hmem.resolve_right fun hbehind => hover ((hovertook ht).2 hbehind)
        exact (List.singleton_sublist.2 hfront).append ((List.nil_sublist _).cons_cons a)

/-- The roll is in the order of the numbers. -/
theorem Enlists.sublist_of_lt (h : q.Enlists roll) (ht : t ∈ roll) (hu : u ∈ roll)
    (hlt : t.number < u.number) : [t, u].Sublist roll := by
  obtain ⟨i, hi, rfl⟩ := List.mem_iff_getElem.1 ht
  obtain ⟨j, hj, rfl⟩ := List.mem_iff_getElem.1 hu
  have hnumbers := List.pairwise_iff_getElem.1 h.numbers
  have hij : i < j := by
    rcases Nat.lt_trichotomy i j with hij | rfl | hji
    · exact hij
    · exact absurd hlt (Nat.lt_irrefl _)
    · exact absurd (hnumbers j i hj hi hji) (Nat.lt_asymm hlt)
  have hpairs : roll.Pairwise fun t u => [t, u].Sublist roll :=
    List.pairwise_iff_forall_sublist.2 id
  exact List.pairwise_iff_getElem.1 hpairs i j hi hj hij

/-- In a bucket, two stand in the order of registration unless the later one overtook the other. -/
theorem Enlists.bucket_order (h : q.Enlists roll) (hnodup : q.line.Nodup) (ht : t ∈ roll)
    (hu : u ∈ roll) (hlt : t.number < u.number) (htg : t.object ∈ q.bucket g)
    (hug : u.object ∈ q.bucket g) :
    [t.object, u.object].Sublist (q.bucket g) ↔ t.number ∉ u.overtook := by
  have hsub := bucket_sublist_line q g
  have horder := List.pairwise_iff_forall_sublist.1 h.order (h.sublist_of_lt ht hu hlt)
  constructor
  · intro hbucket hover
    rw [if_pos hover] at horder
    exact not_both_orders hnodup horder (hbucket.trans hsub)
  · intro hover
    rw [if_neg hover] at horder
    exact sublist_of_mem hsub hnodup horder htg hug

/-- A bucket is in the order of registration if and only if none in it has overtaken another one in it. -/
theorem Enlists.bucket_sublist_iff (h : q.Enlists roll) (hnodup : q.line.Nodup) (g : Generation) :
    (q.bucket g).Sublist (roll.map (·.object)) ↔ ∀ t ∈ roll, ∀ u ∈ roll, t.number < u.number →
      t.object ∈ q.bucket g → u.object ∈ q.bucket g → t.number ∉ u.overtook := by
  have hsub := bucket_sublist_line q g
  constructor
  · intro hbucket t ht u hu hlt htg hug
    have hobjects := (h.sublist_of_lt ht hu hlt).map (·.object)
    rw [← h.bucket_order hnodup ht hu hlt htg hug]
    exact sublist_of_mem hbucket (h.objects.nodup_iff.2 hnodup) hobjects htg hug
  · intro hnone
    -- the tickets of the bucket, in the order of the roll
    let kept := roll.filter fun t => (q.bucket g).contains t.object
    have hkept : kept.map (·.object) = (roll.map (·.object)).filter (q.bucket g).contains := by
      rw [List.filter_map]
      rfl
    have hperm : (kept.map (·.object)).Perm (q.bucket g) := by
      rw [hkept]
      exact (h.objects.filter _).trans (.of_eq (eq_filter_of_sublist hsub hnodup).symm)
    have hfirst : (kept.map (·.object)).Pairwise fun a b => [a, b].Sublist (q.bucket g) := by
      refine List.pairwise_map.2 (List.pairwise_iff_forall_sublist.2 fun {t u} htu => ?_)
      obtain ⟨ht, htg⟩ := List.mem_filter.1 (htu.subset List.mem_cons_self)
      obtain ⟨hu, hug⟩ := List.mem_filter.1 (htu.subset (List.mem_cons_of_mem _ List.mem_cons_self))
      rw [List.contains_iff_mem] at htg hug
      have hlt := List.pairwise_iff_forall_sublist.1 h.numbers (htu.trans List.filter_sublist)
      exact (h.bucket_order hnodup ht hu hlt htg hug).2 (hnone t ht u hu hlt htg hug)
    have hsecond : (q.bucket g).Pairwise fun a b => [a, b].Sublist (q.bucket g) :=
      List.pairwise_iff_forall_sublist.2 id
    have he := hperm.eq_of_pairwise
      (fun a b _ _ hab hba => absurd hba (not_both_orders (hnodup.sublist hsub) hab)) hfirst hsecond
    rw [← he, hkept]
    exact List.filter_sublist

end FinalizationQueue

end GenHeap
