import Shroud.Circuit.Var
import Shroud.Symbol.Table

/-!
# Versions of variables

Inside a circuit every variable is assigned once. A variable of the program that changes its value is
represented by a sequence of circuit variables, its versions; `Versions` tells which of them is current.

**Scopes.** Leaving a scope takes back what was recorded inside it, except about variables that are visible
outside.

**Branches.** After a branch the versions of both sides are merged. A variable that only one side has read
keeps its version; one that a side has written gets a version that depends on the condition. `merge` lists
these decisions, in the order in which they are carried out.
-/

namespace Shroud

/-- A declared variable of the program. -/
structure Variable where
  kind : DeclKind
  id : Nat
  name : String
  deriving DecidableEq, Repr, Inhabited

namespace Variable

def ref (x : Variable) : Ref := .decl x.kind x.id

/-- The variable a reference leads to. -/
def ofRef? (r : Ref) (name : String) : Option Variable :=
  match r with
  | .decl k i => some ⟨k, i, name⟩
  | _ => none

/-- The variable an expression names. -/
def ofExpr? : Expr → Option Variable
  | .ident _ n (some r) => ofRef? r n.name
  | _ => none

/-- The whole variable that a location is. -/
def ofLoc? (l : Loc) : Option Variable :=
  match l.key with
  | none => ofRef? l.target l.name
  | some _ => none

def ofLocal (v : LocalVar) : Variable := ⟨.localVar, v.id, v.name⟩

/-- The value that the variable has in public code, at its source type. -/
def value (symbols : Symbols) (x : Variable) : Expr :=
  let type := (symbols.type? x.ref).map AnnTy.sourceType
  .ident { Info.synthetic with type := type } (.plain x.name) (some x.ref)

end Variable

/-- The current version of every variable that has one, in the order in which they were recorded first. -/
structure Versions where
  entries : List (Variable × CircuitVar)

/-- What happens to a variable when two branches meet: a version is kept, or a new version chooses between
the versions of the sides, where a side without a version keeps the value from before. -/
inductive Decision where
  | keep (v : CircuitVar)
  | choose (taken other : Option CircuitVar)

namespace Versions

def empty : Versions := ⟨[]⟩

instance : Inhabited Versions := ⟨empty⟩

/-- The current version. -/
def current? (vs : Versions) (x : Variable) : Option CircuitVar := vs.entries.lookup x

/-- Record a new version. -/
def set (vs : Versions) (x : Variable) (v : CircuitVar) : Versions :=
  if (vs.current? x).isSome then ⟨vs.entries.map fun (y, w) => if y = x then (x, v) else (y, w)⟩
  else ⟨vs.entries ++ [(x, v)]⟩

/-- The variable has no version any more. -/
def forget (vs : Versions) (x : Variable) : Versions := ⟨vs.entries.filter fun (y, _) => y ≠ x⟩

/-- The versions after leaving a scope that was entered with the versions `outer`. -/
def leave (inner outer : Versions) (visible : Variable → Bool) : Versions :=
  (inner.entries.filter fun (x, _) => visible x).foldl (fun vs (x, v) => vs.set x v) outer

/-- What a single side recorded. -/
def oneSided (v : CircuitVar) (choice : Decision) : Decision := if v.isInput then .keep v else choice

/-- The decisions where the sides of a branch meet. -/
def merge (taken other : Versions) (visible : Variable → Bool) : List (Variable × Decision) :=
  let first := taken.entries.filterMap fun (x, v) =>
    if !visible x then none
    else match other.current? x with
      | some w => some (x, if w.name == v.name then .keep v else .choose (some v) (some w))
      | none => some (x, oneSided v (.choose (some v) none))
  let rest := other.entries.filterMap fun (x, v) =>
    if !visible x || (taken.current? x).isSome then none
    else some (x, oneSided v (.choose none (some v)))
  first ++ rest

end Versions

/-- The expression that chooses between the versions of two branches. -/
def Variable.choice (symbols : Symbols) (x : Variable) (cond : Expr) (taken other : Option CircuitVar) : Expr :=
  let side (v : Option CircuitVar) : Expr := match v with
    | some v => v.read
    | none => x.value symbols
  let e := Expr.applyOp .ite [cond, side taken, side other]
  e.mapInfo fun i => { i with type := (side taken).type? }

end Shroud
