/-!
# Partitions of labels

Labels that are known to hold the same address stand in one class. A state is a list of classes; a label
belongs to the first class that lists it. Every operation of the analysis is a small change to that list.

**Failing updates.** `merge` and `moveTo` can be asked about a label that stands in no class. They report
this and keep the changes made before they noticed, so the state is returned either way.

## Results

* `same_refl`, `same_comm`: `same` is reflexive and symmetric on every state.
* `same_trans`: and transitive.
-/

namespace Shroud

/-- Classes of labels known to be equal. -/
structure Partition (α : Type) where
  classes : List (List α)
  deriving Repr, DecidableEq, Inhabited

/-- Why an update could not be completed. -/
inductive PartitionError where
  | notFound
  | notPresent
  | differentLabels
  deriving DecidableEq, Repr

namespace Partition

variable {α : Type} [DecidableEq α]

def empty : Partition α := ⟨[]⟩

/-- Open a new class for `x`. -/
def insert (p : Partition α) (x : α) : Partition α := ⟨p.classes ++ [[x]]⟩

/-- Position of the first class that lists `x`. -/
def index? (p : Partition α) (x : α) : Option Nat := p.classes.findIdx? (·.contains x)

/-- Does some class list `x`? -/
def has (p : Partition α) (x : α) : Bool := (p.index? x).isSome

/-- Are `x` and `y` known to be equal? -/
def same (p : Partition α) (x y : α) : Bool :=
  x == y || (match p.index? x, p.index? y with
    | some i, some j => i == j
    | _, _ => false)

/-- Everything listed, class by class. -/
def members (p : Partition α) : List α := p.classes.flatten

/-- Add the labels of `ys` that `xs` does not list yet. -/
def union (xs ys : List α) : List α := xs ++ ys.filter fun y => !xs.contains y

/-- Put the class of `y` into the class of `x`. -/
def merge (p : Partition α) (x y : α) : Except PartitionError Unit × Partition α :=
  match p.index? x, p.index? y with
  | some i, some j =>
    if i = j then (.ok (), p)
    else
      let joined := union (p.classes.getD i []) (p.classes.getD j [])
      (.ok (), ⟨(p.classes.set i joined).eraseIdx j⟩)
  | none, some j => (.error .notFound, ⟨p.classes.eraseIdx j⟩)
  | some _, none => (.error .notFound, p)
  | none, none => (.ok (), p)

/-- Take `x` out of its class; a class left empty disappears. -/
def remove (p : Partition α) (x : α) : Except PartitionError (Partition α) :=
  match p.index? x with
  | none => .error .notPresent
  | some i =>
    let rest := (p.classes.getD i []).filter (· ≠ x)
    .ok (if rest.isEmpty then ⟨p.classes.eraseIdx i⟩ else ⟨p.classes.set i rest⟩)

/-- Move `x` into the class of `y`. -/
def moveTo (p : Partition α) (x y : α) : Except PartitionError Unit × Partition α :=
  if p.same x y then (.ok (), p)
  else match p.remove x with
    | .error e => (.error e, p)
    | .ok q =>
      match q.index? y with
      | none => (.error .notFound, q)
      | some j => (.ok (), ⟨q.classes.set j (union (q.classes.getD j []) [x])⟩)

/-- Move `x` into a class of its own. -/
def isolate (p : Partition α) (x : α) : Except PartitionError (Partition α) :=
  match p.remove x with
  | .error e => .error e
  | .ok q => .ok (q.insert x)

/-- The classes left of one class when only `fixed` labels keep what is known about them. -/
def splitClass (fixed : α → Bool) (c : List α) : List (List α) :=
  let kept := c.filter fixed
  (c.filter fun x => !fixed x).map (fun x => [x]) ++ (if kept.isEmpty then [] else [kept])

/-- Forget everything about labels that can change. -/
def separate (p : Partition α) (fixed : α → Bool) : Partition α :=
  ⟨(p.classes.map (splitClass fixed)).flatten⟩

/-- The class that `x` is in. -/
def classOf (p : Partition α) (x : α) : List α :=
  match p.index? x with
  | some i => p.classes.getD i []
  | none => []

/-- The two lists have the same elements. -/
def sameElements (xs ys : List α) : Bool :=
  xs.all ys.contains && ys.all xs.contains

/-- Drop lists whose elements were all seen before as one list. -/
def dedupClasses : List (List α) → List (List α)
  | [] => []
  | c :: cs => c :: (dedupClasses cs).filter fun d => !sameElements c d

/-- Keep what is known in both states. -/
def join (p q : Partition α) : Except PartitionError (Partition α) :=
  if sameElements p.members q.members then
    let parts := p.members.map fun x => (p.classOf x).filter (q.classOf x).contains
    .ok ⟨dedupClasses parts⟩
  else .error .differentLabels

/-- Keep only the labels that satisfy `keep`. -/
def project (p : Partition α) (keep : α → Bool) : Partition α :=
  ⟨(p.classes.map (·.filter keep)).filter (fun c => !c.isEmpty)⟩

/-! ## The relation of a state -/

theorem same_refl (p : Partition α) (x : α) : p.same x x = true := by
  simp [same]

theorem same_comm (p : Partition α) (x y : α) : p.same x y = p.same y x := by
  unfold same
  rw [Bool.beq_comm]
  cases p.index? x <;> cases p.index? y <;> simp [Bool.beq_comm]

theorem same_trans (p : Partition α) {x y z : α} (hxy : p.same x y = true)
    (hyz : p.same y z = true) : p.same x z = true := by
  unfold same at *
  cases hx : p.index? x <;> cases hy : p.index? y <;> cases hz : p.index? z <;> grind

end Partition

end Shroud
