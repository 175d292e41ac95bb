import Shroud.Proofs.Equivalences

/-!
# Classes under numbers

A state can keep its classes in a table under numbers, a new class under the number that is next. Classes are then
found, replaced and taken out by number. Numbers are told apart only as long as no class gets one that is in use:
putting a class under a number that is there replaces what it stands for.

**Positions and numbers.** Without its numbers the table is the list of classes of `Partition`
(`Numbered.plain`). While the numbers are counted, every update of the table is the update of the list
(`Numbered.Mirrored`): the number of a class is in one place, so numbers are equal exactly if positions are.

**Updates that fail.** A merge or a move that fails leaves a state, and the analysis could go on with it. Such states are
reached as well (`Numbered.Reached`).

**Results.**

* `Numbered.Reached.wellFormed`: in every reached table the numbers in use differ and are below the next one, and the
  classes are sets, none empty, no two overlapping.
* `Numbered.Counted.mirrored`: what is known does not depend on the numbers.
* `Partition.Sound.specified`: what every update makes of the relation.
* `Numbered.Reached.equivalences`: a reached table represents an equivalence, and the updates act on it as they should.
-/

namespace Shroud

/-! ## Tables -/

/-- Classes under numbers, and the number for the next class. -/
structure Numbered (α : Type) where
  entries : List (Nat × List α)
  next : Nat
  deriving Repr, DecidableEq

namespace Numbered

section Tables

variable {α : Type}

def empty : Numbered α := ⟨[], 0⟩

/-- The class under a number. -/
def classAt (p : Numbered α) (k : Nat) : List α :=
  match p.entries.find? (·.1 == k) with
  | some e => e.2
  | none => []

/-- Put a class under a number. A class that is there is replaced, otherwise the number comes last. -/
def put (p : Numbered α) (k : Nat) (c : List α) : Numbered α :=
  match p.entries.findIdx? (·.1 == k) with
  | some i => { p with entries := p.entries.set i (k, c) }
  | none => { p with entries := p.entries ++ [(k, c)] }

/-- Take a number out. -/
def drop (p : Numbered α) (k : Nat) : Numbered α := { p with entries := p.entries.eraseP (·.1 == k) }

/-- Put a class under the next number. -/
def add (p : Numbered α) (c : List α) : Numbered α := { p.put p.next c with next := p.next + 1 }

/-- Number classes from the start. -/
def ofClasses (cs : List (List α)) : Numbered α := cs.foldl add empty

/-- Without the labels that can change, numbered afresh. -/
def separate (p : Numbered α) (fixed : α → Bool) : Numbered α :=
  ofClasses (p.entries.map fun e => Partition.splitClass fixed e.2).flatten

def members (p : Numbered α) : List α := (p.entries.map (·.2)).flatten

/-- Classes that have labels left keep their numbers. -/
def project (p : Numbered α) (keep : α → Bool) : Numbered α :=
  { p with entries := (p.entries.map fun e => (e.1, e.2.filter keep)).filter fun e => !e.2.isEmpty }

/-- The classes without their numbers. -/
def plain (p : Numbered α) : Partition α := ⟨p.entries.map (·.2)⟩

end Tables

/-! ## Updates by number -/

section Updates

variable {α : Type} [DecidableEq α]

def insert (p : Numbered α) (x : α) : Numbered α := p.add [x]

/-- The number of the first class that lists the label. -/
def number? (p : Numbered α) (x : α) : Option Nat := (p.entries.find? (·.2.contains x)).map (·.1)

def has (p : Numbered α) (x : α) : Bool := (p.number? x).isSome

def same (p : Numbered α) (x y : α) : Bool :=
  x == y || (match p.number? x, p.number? y with
    | some i, some j => i == j
    | _, _ => false)

def merge (p : Numbered α) (x y : α) : Except PartitionError Unit × Numbered α :=
  match p.number? x, p.number? y with
  | some k, some l =>
    if k = l then (.ok (), p)
    else (.ok (), (p.put k (Partition.union (p.classAt k) (p.classAt l))).drop l)
  | none, some l => (.error .notFound, p.drop l)
  | some _, none => (.error .notFound, p)
  | none, none => (.ok (), p)

def remove (p : Numbered α) (x : α) : Except PartitionError (Numbered α) :=
  match p.number? x with
  | none => .error .notPresent
  | some k =>
    let rest := (p.classAt k).filter (· ≠ x)
    .ok (if rest.isEmpty then p.drop k else p.put k rest)

def moveTo (p : Numbered α) (x y : α) : Except PartitionError Unit × Numbered α :=
  if p.same x y then (.ok (), p)
  else match p.remove x with
    | .error e => (.error e, p)
    | .ok q =>
      match q.number? y with
      | none => (.error .notFound, q)
      | some l => (.ok (), q.put l (Partition.union (q.classAt l) [x]))

def isolate (p : Numbered α) (x : α) : Except PartitionError (Numbered α) :=
  match p.remove x with
  | .error e => .error e
  | .ok q => .ok (q.insert x)

/-- The class that the label is in. -/
def classOf (p : Numbered α) (x : α) : List α :=
  match p.number? x with
  | some k => p.classAt k
  | none => []

/-- What is known in both tables, numbered afresh. -/
def join (p q : Numbered α) : Except PartitionError (Numbered α) :=
  if Partition.sameElements p.members q.members then
    .ok (ofClasses (Partition.dedupClasses
      (p.members.map fun x => (p.classOf x).filter (q.classOf x).contains)))
  else .error .differentLabels

end Updates

/-! ## Numbers that differ -/

section Counted

variable {α : Type} {p : Numbered α} {i j k : Nat} {c d : List α}

/-- No number is in use twice, and the next one is not in use. -/
structure Counted (p : Numbered α) : Prop where
  distinct : (p.entries.map (·.1)).Nodup
  below : ∀ e ∈ p.entries, e.1 < p.next

theorem counted_empty : (empty : Numbered α).Counted := by
  refine ⟨List.nodup_nil, fun e he => ?_⟩
  cases he

theorem getElem?_plain (h : p.entries[i]? = some (k, c)) : p.plain.classes.getD i [] = c := by
  simp [plain, List.getD_eq_getElem?_getD, h]

namespace Counted

/-- A number stands in one place. -/
theorem findIdx?_eq (h : p.Counted) (hi : p.entries[i]? = some (k, c)) :
    p.entries.findIdx? (·.1 == k) = some i := by
  obtain ⟨bound, found⟩ := List.getElem?_eq_some_iff.mp hi
  refine List.findIdx?_eq_some_iff_getElem.mpr ⟨bound, by simp [found], fun j before same => ?_⟩
  have inner : i < (p.entries.map (·.1)).length := by simpa using bound
  have earlier : j < (p.entries.map (·.1)).length := before.trans inner
  have equal : (p.entries.map (·.1))[j] = (p.entries.map (·.1))[i] := by
    simpa [found] using same
  have := (h.distinct.getElem_inj_iff).mp equal
  omega

theorem eq_iff (h : p.Counted) {l : Nat} (hi : p.entries[i]? = some (k, c)) (hj : p.entries[j]? = some (l, d)) :
    k = l ↔ i = j := by
  constructor
  · rintro rfl
    have := h.findIdx?_eq hi
    rw [h.findIdx?_eq hj] at this
    exact (Option.some.inj this).symm
  · rintro rfl
    rw [hi] at hj
    exact congrArg Prod.fst (Option.some.inj hj)

theorem classAt_eq (h : p.Counted) (hi : p.entries[i]? = some (k, c)) : p.classAt k = c := by
  rw [classAt, List.find?_eq_bind_findIdx?_getElem?, h.findIdx?_eq hi, Option.bind_some, hi]

theorem put_entries (h : p.Counted) (hi : p.entries[i]? = some (k, c)) :
    (p.put k d).entries = p.entries.set i (k, d) := by
  rw [put, h.findIdx?_eq hi]

theorem plain_put (h : p.Counted) (hi : p.entries[i]? = some (k, c)) :
    (p.put k d).plain = ⟨p.plain.classes.set i d⟩ := by
  rw [plain, h.put_entries hi, List.map_set]
  rfl

theorem plain_drop (h : p.Counted) (hi : p.entries[i]? = some (k, c)) :
    (p.drop k).plain = ⟨p.plain.classes.eraseIdx i⟩ := by
  rw [plain, drop, List.eraseP_eq_eraseIdx, h.findIdx?_eq hi, ← List.eraseIdx_map]
  rfl

/-- The next number is new, so nothing is replaced. -/
theorem add_entries (h : p.Counted) : (p.add c).entries = p.entries ++ [(p.next, c)] := by
  have fresh : p.entries.findIdx? (·.1 == p.next) = none := by
    refine List.findIdx?_eq_none_iff.mpr fun e he => ?_
    have := h.below e he
    simp only [beq_eq_false_iff_ne]
    omega
  rw [add, put, fresh]

theorem plain_add (h : p.Counted) : (p.add c).plain = ⟨p.plain.classes ++ [c]⟩ := by
  rw [plain, h.add_entries, List.map_append]
  rfl

theorem drop (h : p.Counted) (k : Nat) : (p.drop k).Counted where
  distinct := h.distinct.sublist (List.eraseP_sublist.map _)
  below e he := h.below e (List.mem_of_mem_eraseP he)

theorem put (h : p.Counted) (hi : p.entries[i]? = some (k, c)) : (p.put k d).Counted := by
  have numbers : (p.entries.set i (k, d)).map (·.1) = p.entries.map (·.1) := by
    obtain ⟨bound, found⟩ := List.getElem?_eq_some_iff.mp hi
    rw [List.map_set]
    have inner : i < (p.entries.map (·.1)).length := by simpa using bound
    have same : k = (p.entries.map (·.1))[i] := by simp [found]
    conv_lhs => rw [same]
    exact List.set_getElem_self _
  refine ⟨?_, fun e he => ?_⟩
  · rw [h.put_entries hi, numbers]
    exact h.distinct
  · rw [h.put_entries hi] at he
    have kept : (p.put k d).next = p.next := by
      rw [Numbered.put, h.findIdx?_eq hi]
    rw [kept]
    rcases List.mem_or_eq_of_mem_set he with he | rfl
    · exact h.below e he
    · exact h.below (k, c) (List.mem_of_getElem? hi)

theorem project (h : p.Counted) (keep : α → Bool) : (p.project keep).Counted := by
  have numbers : ((p.entries.map fun e => (e.1, e.2.filter keep)).map (·.1)) = p.entries.map (·.1) := by
    rw [List.map_map]
    rfl
  refine ⟨(numbers ▸ h.distinct).sublist (List.filter_sublist.map _), fun e he => ?_⟩
  obtain ⟨e', he', rfl⟩ := List.mem_map.mp (List.mem_filter.mp he).1
  exact h.below e' he'

theorem add (h : p.Counted) (c : List α) : (p.add c).Counted := by
  refine ⟨?_, fun e he => ?_⟩
  · rw [h.add_entries, List.map_append, List.nodup_append]
    refine ⟨h.distinct, List.nodup_singleton _, ?_⟩
    rintro a ha b hb rfl
    obtain ⟨e, he, rfl⟩ := List.mem_map.mp ha
    have := h.below e he
    simp at hb
    omega
  · rw [h.add_entries, List.mem_append, List.mem_singleton] at he
    show e.1 < p.next + 1
    rcases he with he | rfl
    · exact Nat.lt_succ_of_lt (h.below e he)
    · exact Nat.lt_succ_self _

end Counted

/-- Classes that are numbered afresh stay in their order. -/
theorem ofClasses_counted (cs : List (List α)) : (ofClasses cs).Counted ∧ (ofClasses cs).plain = ⟨cs⟩ := by
  have go (p : Numbered α) (h : p.Counted) :
      (cs.foldl Numbered.add p).Counted ∧ (cs.foldl Numbered.add p).plain = ⟨p.plain.classes ++ cs⟩ := by
    induction cs generalizing p with
    | nil => exact ⟨h, by simp⟩
    | cons c cs ih =>
      obtain ⟨counted, listed⟩ := ih (p.add c) (h.add c)
      refine ⟨counted, listed.trans ?_⟩
      rw [h.plain_add, List.append_assoc, List.singleton_append]
  exact go empty counted_empty

theorem members_plain (p : Numbered α) : p.members = p.plain.members := rfl

theorem separate_plain (p : Numbered α) (fixed : α → Bool) : (p.separate fixed).plain = p.plain.separate fixed := by
  rw [separate, (ofClasses_counted _).2, Partition.separate, plain, List.map_map]
  rfl

theorem project_plain (p : Numbered α) (keep : α → Bool) : (p.project keep).plain = p.plain.project keep := by
  simp only [project, plain, Partition.project, List.map_map, List.filter_map]
  rfl

end Counted

/-! ## The same updates with and without numbers -/

section Mirrored

variable {α : Type} [DecidableEq α] {p q : Numbered α} {x y : α}

/-- Both searches stop at the same place, or neither finds the label. -/
theorem search (p : Numbered α) (x : α) : (p.number? x = none ∧ p.plain.index? x = none) ∨
    ∃ k i c, p.number? x = some k ∧ p.plain.index? x = some i ∧ p.entries[i]? = some (k, c) := by
  have position : p.plain.index? x = p.entries.findIdx? (·.2.contains x) := List.findIdx?_map
  have number : p.number? x = ((p.entries.findIdx? (·.2.contains x)).bind (p.entries[·]?)).map (·.1) := by
    rw [number?, List.find?_eq_bind_findIdx?_getElem?]
  rw [position, number]
  cases hi : p.entries.findIdx? (·.2.contains x) with
  | none => exact .inl ⟨rfl, rfl⟩
  | some i =>
    obtain ⟨bound, -, -⟩ := List.findIdx?_eq_some_iff_getElem.mp hi
    have found : p.entries[i]? = some (p.entries[i].1, p.entries[i].2) := List.getElem?_eq_getElem bound
    exact .inr ⟨_, i, _, by rw [Option.bind_some, found, Option.map_some], rfl, found⟩

theorem has_plain (p : Numbered α) (x : α) : p.has x = p.plain.has x := by
  rw [has, Partition.has]
  rcases search p x with ⟨hn, hi⟩ | ⟨k, i, c, hn, hi, -⟩ <;> rw [hn, hi]
  rfl

namespace Counted

theorem same_plain (h : p.Counted) (x y : α) : p.same x y = p.plain.same x y := by
  rw [same, Partition.same]
  rcases search p x with ⟨hx, hi⟩ | ⟨k, i, c, hx, hi, atx⟩ <;>
    rcases search p y with ⟨hy, hj⟩ | ⟨l, j, d, hy, hj, aty⟩ <;> rw [hx, hi, hy, hj]
  have equal : (k == l) = (i == j) := by
    rw [Bool.eq_iff_iff, beq_iff_eq, beq_iff_eq]
    exact h.eq_iff atx aty
  simp only [equal]

theorem merge_plain (h : p.Counted) (x y : α) : (p.merge x y).map id plain = p.plain.merge x y := by
  rw [merge, Partition.merge]
  rcases search p x with ⟨hx, hi⟩ | ⟨k, i, c, hx, hi, atx⟩ <;>
    rcases search p y with ⟨hy, hj⟩ | ⟨l, j, d, hy, hj, aty⟩ <;> rw [hx, hi, hy, hj] <;> dsimp only
  · rfl
  · rw [Prod.map_apply, h.plain_drop aty]
    rfl
  · rfl
  · by_cases same : k = l
    · rw [if_pos same, if_pos ((h.eq_iff atx aty).mp same)]
      rfl
    · have apart : i ≠ j := fun equal => same ((h.eq_iff atx aty).mpr equal)
      have there : (p.put k (Partition.union c d)).entries[j]? = some (l, d) := by
        rw [h.put_entries atx, List.getElem?_set_ne apart, aty]
      rw [if_neg same, if_neg apart, h.classAt_eq atx, h.classAt_eq aty, getElem?_plain atx, getElem?_plain aty,
        Prod.map_apply, (h.put atx).plain_drop there, h.plain_put atx]
      rfl

theorem remove_plain (h : p.Counted) (x : α) : (p.remove x).map plain = p.plain.remove x := by
  rw [remove, Partition.remove]
  rcases search p x with ⟨hx, hi⟩ | ⟨k, i, c, hx, hi, atx⟩ <;> rw [hx, hi] <;> dsimp only
  · rfl
  · rw [h.classAt_eq atx, getElem?_plain atx]
    split
    · exact congrArg Except.ok (h.plain_drop atx)
    · exact congrArg Except.ok (h.plain_put atx)

theorem merge (h : p.Counted) (x y : α) : (p.merge x y).2.Counted := by
  rw [Numbered.merge]
  rcases search p x with ⟨hx, hi⟩ | ⟨k, i, c, hx, hi, atx⟩ <;>
    rcases search p y with ⟨hy, hj⟩ | ⟨l, j, d, hy, hj, aty⟩ <;> rw [hx, hy] <;> dsimp only
  · exact h
  · exact h.drop l
  · exact h
  · split
    · exact h
    · exact (h.put atx).drop l

theorem remove (h : p.Counted) (hr : p.remove x = .ok q) : q.Counted := by
  rw [Numbered.remove] at hr
  rcases search p x with ⟨hx, -⟩ | ⟨k, i, c, hx, -, atx⟩ <;> rw [hx] at hr <;> dsimp only at hr
  · cases hr
  · cases hr
    split
    · exact h.drop k
    · exact h.put atx

theorem isolate (h : p.Counted) (hi : p.isolate x = .ok q) : q.Counted := by
  rw [Numbered.isolate] at hi
  cases hr : p.remove x with
  | error e =>
    rw [hr] at hi
    cases hi
  | ok r =>
    rw [hr] at hi
    cases hi
    exact (h.remove hr).add [x]

theorem isolate_plain (h : p.Counted) (x : α) : (p.isolate x).map plain = p.plain.isolate x := by
  rw [Numbered.isolate, Partition.isolate, ← h.remove_plain]
  cases hr : p.remove x with
  | error e => rfl
  | ok r => exact congrArg Except.ok (h.remove hr).plain_add

/-- A move looks for the other class in what the removal has left. -/
theorem moveTo_plain (h : p.Counted) (x y : α) : (p.moveTo x y).map id plain = p.plain.moveTo x y := by
  rw [Numbered.moveTo, Partition.moveTo, h.same_plain, ← h.remove_plain]
  split
  · rfl
  · cases hr : p.remove x with
    | error e => rfl
    | ok q =>
      have counted := h.remove hr
      dsimp only [Except.map]
      rcases search q y with ⟨hy, hj⟩ | ⟨l, j, d, hy, hj, aty⟩ <;> rw [hy, hj]
      · rfl
      · dsimp only
        rw [counted.classAt_eq aty, getElem?_plain aty, Prod.map_apply, counted.plain_put aty]
        rfl

theorem moveTo (h : p.Counted) (x y : α) : (p.moveTo x y).2.Counted := by
  rw [Numbered.moveTo]
  split
  · exact h
  · cases hr : p.remove x with
    | error e => exact h
    | ok q =>
      have counted := h.remove hr
      dsimp only
      rcases search q y with ⟨hy, -⟩ | ⟨l, j, d, hy, -, aty⟩ <;> rw [hy]
      · exact counted
      · exact counted.put aty

theorem classOf_plain (h : p.Counted) (x : α) : p.classOf x = p.plain.classOf x := by
  rw [classOf, Partition.classOf]
  rcases search p x with ⟨hx, hi⟩ | ⟨k, i, c, hx, hi, atx⟩ <;> rw [hx, hi]
  dsimp only
  rw [h.classAt_eq atx, getElem?_plain atx]

theorem join_plain (h : p.Counted) (h' : q.Counted) : (p.join q).map plain = p.plain.join q.plain := by
  have parts : (p.members.map fun x => (p.classOf x).filter (q.classOf x).contains) =
      p.plain.members.map fun x => (p.plain.classOf x).filter (q.plain.classOf x).contains := by
    simp only [h.classOf_plain, h'.classOf_plain, members_plain]
  rw [join, Partition.join, members_plain, members_plain]
  split
  · rw [← members_plain p, parts]
    exact congrArg Except.ok (ofClasses_counted _).2
  · rfl

theorem join (hj : p.join q = .ok r) : r.Counted := by
  rw [Numbered.join] at hj
  split at hj
  · cases hj
    exact (ofClasses_counted _).1
  · cases hj

end Counted

/-- Every answer and every update is the one without numbers. -/
structure Mirrored (p : Numbered α) : Prop where
  has x : p.has x = p.plain.has x
  same x y : p.same x y = p.plain.same x y
  insert x : (p.insert x).plain = p.plain.insert x
  merge x y : (p.merge x y).map id plain = p.plain.merge x y
  remove x : (p.remove x).map plain = p.plain.remove x
  moveTo x y : (p.moveTo x y).map id plain = p.plain.moveTo x y
  isolate x : (p.isolate x).map plain = p.plain.isolate x
  separate fixed : (p.separate fixed).plain = p.plain.separate fixed
  project keep : (p.project keep).plain = p.plain.project keep
  join q : q.Counted → (p.join q).map plain = p.plain.join q.plain

theorem Counted.mirrored (h : p.Counted) : p.Mirrored where
  has := has_plain p
  same := h.same_plain
  insert _ := h.plain_add
  merge := h.merge_plain
  remove := h.remove_plain
  moveTo := h.moveTo_plain
  isolate := h.isolate_plain
  separate := separate_plain p
  project := project_plain p
  join _ := h.join_plain

end Mirrored

/-! ## Reached tables -/

section Reached

/-- The numbers in use differ and are below the next one; the classes are sets, none empty, no two overlapping. -/
structure WellFormed {α : Type} (p : Numbered α) : Prop where
  counted : p.Counted
  sound : p.plain.Sound

theorem WellFormed.project {α : Type} {p : Numbered α} (h : p.WellFormed) (keep : α → Bool) :
    (p.project keep).WellFormed := by
  refine ⟨h.counted.project keep, ?_⟩
  rw [project_plain]
  exact h.sound.project keep

variable {α : Type} [DecidableEq α]

/-- The tables that updates lead to. Of the labels only those are inserted that are not known yet. A merge or a move
that fails leaves a table too. -/
inductive Reached (fixed : α → Bool) : Numbered α → Prop
  | empty : Reached fixed empty
  | insert {p x} : Reached fixed p → p.has x = false → Reached fixed (p.insert x)
  | merge {p x y} : Reached fixed p → Reached fixed (p.merge x y).2
  | remove {p q x} : Reached fixed p → p.remove x = .ok q → Reached fixed q
  | moveTo {p x y} : Reached fixed p → Reached fixed (p.moveTo x y).2
  | isolate {p q x} : Reached fixed p → p.isolate x = .ok q → Reached fixed q
  | separate {p} : Reached fixed p → Reached fixed (p.separate fixed)
  | project {p} (keep) : Reached fixed p → Reached fixed (p.project keep)
  | join {p q r} : Reached fixed p → Reached fixed q → p.join q = .ok r → Reached fixed r

variable {fixed : α → Bool} {p q r : Numbered α} {x y : α}

namespace WellFormed

theorem insert (h : p.WellFormed) (unknown : p.has x = false) : (p.insert x).WellFormed := by
  refine ⟨h.counted.add [x], ?_⟩
  rw [h.counted.mirrored.insert]
  exact h.sound.insert (has_plain p x ▸ unknown)

theorem merge (h : p.WellFormed) : (p.merge x y).2.WellFormed := by
  refine ⟨h.counted.merge x y, ?_⟩
  have mirrored : (p.merge x y).2.plain = (p.plain.merge x y).2 := congrArg Prod.snd (h.counted.merge_plain x y)
  rw [mirrored]
  exact h.sound.merge x y

theorem remove (h : p.WellFormed) (hr : p.remove x = .ok q) : q.WellFormed := by
  have mirrored := h.counted.remove_plain x
  rw [hr] at mirrored
  exact ⟨h.counted.remove hr, h.sound.remove mirrored.symm⟩

theorem moveTo (h : p.WellFormed) : (p.moveTo x y).2.WellFormed := by
  refine ⟨h.counted.moveTo x y, ?_⟩
  have mirrored : (p.moveTo x y).2.plain = (p.plain.moveTo x y).2 := congrArg Prod.snd (h.counted.moveTo_plain x y)
  rw [mirrored]
  exact h.sound.moveTo x y

theorem isolate (h : p.WellFormed) (hi : p.isolate x = .ok q) : q.WellFormed := by
  have mirrored := h.counted.isolate_plain x
  rw [hi] at mirrored
  exact ⟨h.counted.isolate hi, h.sound.isolate mirrored.symm⟩

theorem separate (h : p.WellFormed) (fixed : α → Bool) : (p.separate fixed).WellFormed := by
  refine ⟨(ofClasses_counted _).1, ?_⟩
  rw [separate_plain]
  exact h.sound.separate fixed

theorem join (h : p.WellFormed) (h' : q.WellFormed) (hj : p.join q = .ok r) : r.WellFormed := by
  have mirrored := h.counted.join_plain h'.counted
  rw [hj] at mirrored
  exact ⟨Counted.join hj, h.sound.join h'.sound mirrored.symm⟩

end WellFormed

theorem Reached.wellFormed (h : Reached fixed p) : p.WellFormed := by
  induction h with
  | empty => exact ⟨counted_empty, Partition.sound_empty⟩
  | insert _ unknown ih => exact ih.insert unknown
  | merge _ ih => exact ih.merge
  | remove _ hr ih => exact ih.remove hr
  | moveTo _ ih => exact ih.moveTo
  | isolate _ hi ih => exact ih.isolate hi
  | separate _ ih => exact ih.separate fixed
  | project keep _ ih => exact ih.project keep
  | join _ _ hj ih ih' => exact ih.join ih' hj

/-- However a table was reached, its classes do not overlap and have numbers below the next one. Without the numbers it
is a state of `Partition`, whose relation the updates change as specified. -/
theorem Reached.equivalences (h : Reached fixed p) :
    p.WellFormed ∧ p.Mirrored ∧ p.plain.Specified fixed :=
  ⟨h.wellFormed, h.wellFormed.counted.mirrored, h.wellFormed.sound.specified fixed⟩

/-- Three labels of which two were merged. The number of the class that disappeared is not used again. -/
def merged : Numbered Nat := ((((empty.insert 1).insert 2).insert 3).merge 1 2).2

theorem reached_merged : Reached (· == 1) merged := by
  have opened : Reached (· == 1) (((empty.insert 1).insert 2).insert 3) :=
    ((Reached.empty.insert (by decide)).insert (by decide)).insert (by decide)
  exact opened.merge

theorem merged_equivalences : merged = ⟨[(0, [1, 2]), (2, [3])], 3⟩ ∧ Reached (· == 1) merged ∧
    merged.WellFormed ∧ merged.Mirrored ∧ merged.plain.Specified (· == 1) :=
  ⟨by decide, reached_merged, reached_merged.equivalences⟩

end Reached

end Numbered

/-! ## Updates that fail -/

namespace Partition

variable {α : Type} [DecidableEq α] {fixed : α → Bool} {x y : α}

/-- The updates that can fail. -/
inductive Update (α : Type) where
  | merge (x y : α)
  | remove (x : α)
  | moveTo (x y : α)
  | isolate (x : α)
  | join (q : Partition α)
  deriving Repr, DecidableEq

namespace Update

/-- What an update reports, and the state that it leaves. -/
def run (p : Partition α) : Update α → Except PartitionError Unit × Partition α
  | .merge x y => p.merge x y
  | .remove x =>
    match p.remove x with
    | .ok q => (.ok (), q)
    | .error e => (.error e, p)
  | .moveTo x y => p.moveTo x y
  | .isolate x =>
    match p.isolate x with
    | .ok q => (.ok (), q)
    | .error e => (.error e, p)
  | .join q => ((p.join q).map fun _ => (), p)

/-- The second label of a merge, or the first one of a move, is found and taken out before the other one is missed. -/
def Tears (p : Partition α) : Update α → Prop
  | .merge x y => p.has x = false ∧ p.has y = true
  | .moveTo x y => p.has x = true ∧ p.has y = false
  | _ => False

end Update

theorem Agrees.refl (p : Partition α) : p.Agrees p := ⟨fun _ => rfl, fun _ _ => rfl⟩

theorem index?_of_unknown {p : Partition α} (h : p.has x = false) : p.index? x = none := by
  simpa [has] using h

/-- A merge fails if one label is known and the other is not, and loses the class of the second. -/
theorem Sound.merge_kept_iff {p : Partition α} (h : p.Sound) (failed : (p.merge x y).1 ≠ .ok ()) :
    (p.merge x y).2.Agrees p ↔ ¬ Update.Tears p (.merge x y) := by
  cases hx : p.has x with
  | true =>
    have unknown : p.has y = false := by
      by_contra known
      exact failed (merge_of_has hx (by simpa using known))
    obtain ⟨i, hi⟩ := index?_of_has hx
    have kept : (p.merge x y).2 = p := by rw [Partition.merge, hi, index?_of_unknown unknown]
    rw [kept]
    refine iff_of_true (Agrees.refl p) fun torn => ?_
    rw [Update.Tears, hx] at torn
    cases torn.1
  | false =>
    cases hy : p.has y with
    | false =>
      refine absurd ?_ failed
      rw [Partition.merge, index?_of_unknown hx, index?_of_unknown hy]
    | true =>
      obtain ⟨j, hj⟩ := index?_of_has hy
      have found := index?_eq_some hj
      have hj' := index?_lt hj
      have left : (p.merge x y).2 = ⟨p.classes.eraseIdx j⟩ := by rw [Partition.merge, index?_of_unknown hx, hj]
      refine iff_of_false (fun agrees => ?_) fun kept => kept ⟨hx, hy⟩
      have still : y ∈ (p.classes.eraseIdx j).flatten := has_iff.mp (left ▸ (agrees.1 y).trans hy)
      have others := count_eraseIdx hj' y
      have once : p.classes.flatten.count y ≤ 1 := h.count_le y
      rw [getD_eq hj'] at found
      have first : 0 < p.classes[j].count y := List.count_pos_iff.mpr found.2
      have second : 0 < (p.classes.eraseIdx j).flatten.count y := List.count_pos_iff.mpr still
      omega

/-- A move fails if a label is not known, and loses the first one if it is the second that is not known. -/
theorem Sound.moveTo_kept_iff {p : Partition α} (h : p.Sound) (failed : (p.moveTo x y).1 ≠ .ok ()) :
    (p.moveTo x y).2.Agrees p ↔ ¬ Update.Tears p (.moveTo x y) := by
  have apart : p.same x y = false := by
    by_contra same
    refine failed ?_
    rw [Partition.moveTo, if_pos (by simpa using same)]
  cases hx : p.has x with
  | false =>
    have kept : (p.moveTo x y).2 = p := by
      rw [Partition.moveTo, apart, Partition.remove, index?_of_unknown hx]
      rfl
    rw [kept]
    refine iff_of_true (Agrees.refl p) fun torn => ?_
    rw [Update.Tears, hx] at torn
    cases torn.1
  | true =>
    have unknown : p.has y = false := by
      by_contra known
      exact failed (moveTo_of_has hx (by simpa using known))
    obtain ⟨q, hq⟩ := remove_of_has hx
    have missing : q.index? y = none := by
      refine index?_of_unknown ?_
      by_contra known
      have listed := members_remove hq (has_iff.mp (by simpa using known))
      rw [has_iff.mpr listed] at unknown
      cases unknown
    have left : (p.moveTo x y).2 = q := by
      rw [Partition.moveTo, apart, hq]
      dsimp only
      rw [missing]
      rfl
    refine iff_of_false (fun agrees => ?_) fun kept => kept ⟨hx, unknown⟩
    have still := has_iff.mp (left ▸ (agrees.1 x).trans hx)
    exact ((remove_lists hq (h.count_le x)).mp still).2 rfl

end Partition

/-- An update that fails leaves what was known, except for a merge of an unknown label with a known one and for a move of
a known label to an unknown one. -/
theorem Numbered.Reached.failed_kept_iff {α : Type} [DecidableEq α] {fixed : α → Bool} {p : Numbered α}
    (h : Reached fixed p) (u : Partition.Update α) (failed : (u.run p.plain).1 ≠ .ok ()) :
    (u.run p.plain).2.Agrees p.plain ↔ ¬ u.Tears p.plain := by
  have sound := h.wellFormed.sound
  have unchanged := Partition.Agrees.refl p.plain
  cases u with
  | merge x y => exact sound.merge_kept_iff failed
  | moveTo x y => exact sound.moveTo_kept_iff failed
  | join q => exact iff_of_true unchanged id
  | remove x =>
    refine iff_of_true ?_ id
    rw [Partition.Update.run] at failed ⊢
    cases hr : p.plain.remove x with
    | error e => exact unchanged
    | ok q => exact absurd (by rw [hr]) failed
  | isolate x =>
    refine iff_of_true ?_ id
    rw [Partition.Update.run] at failed ⊢
    cases hi : p.plain.isolate x with
    | error e => exact unchanged
    | ok q => exact absurd (by rw [hi]) failed

/-- Merging the unknown label 4 into a class loses that class. -/
theorem Numbered.merged_failed_kept : Reached (· == 1) merged ∧
    ((Partition.Update.merge 4 1).run merged.plain).1 ≠ .ok () ∧
    (((Partition.Update.merge 4 1).run merged.plain).2.Agrees merged.plain ↔
      ¬ (Partition.Update.merge 4 1).Tears merged.plain) :=
  ⟨reached_merged, by decide, reached_merged.failed_kept_iff (.merge 4 1) (by decide)⟩

/-- Failing updates that change what is known: a class is lost by a merge, a label by a move. -/
theorem Numbered.failing_not_kept : Reached (· == 1) merged ∧
    (Partition.Update.merge 4 1).run merged.plain = (.error .notFound, ⟨[[3]]⟩) ∧
    ¬ ((Partition.Update.merge 4 1).run merged.plain).2.Agrees merged.plain ∧
    (Partition.Update.moveTo 2 4).run merged.plain = (.error .notFound, ⟨[[1], [3]]⟩) ∧
    ¬ ((Partition.Update.moveTo 2 4).run merged.plain).2.Agrees merged.plain := by
  refine ⟨reached_merged, by decide, fun agrees => ?_, by decide, fun agrees => ?_⟩
  · exact absurd (agrees.1 1) (by decide)
  · exact absurd (agrees.1 2) (by decide)

end Shroud
