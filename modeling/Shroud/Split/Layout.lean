import Shroud.Circuit.Basic
import Shroud.Syntax.Traverse

/-!
# Layout of circuit values

All circuits of a transaction share one array of public inputs and one of outputs. A function has a section
in each of them: its own values come first, then the sections of the functions it calls, in the order of the
calls. The caller tells each callee where its section starts.
-/

namespace Shroud

/-- Elements of the second list follow those of the first, none of them twice. -/
def includeAll {α : Type} [BEq α] (xs ys : List α) : List α := ys.foldl includeOnce xs

/-- What is found on the way through all called circuits. -/
structure Reach where
  keys : List (Label × Backend)
  callees : List Nat

/-- The circuit of a function. -/
def Circuit.find? (circuits : List Circuit) (function : Nat) : Option Circuit :=
  circuits.find? (·.function == function)

/-- Follow the calls of a circuit; the second result is the size of all called circuits. A circuit whose
calls were followed before is not followed again. -/
def Circuit.follow (circuits : List Circuit) (name : Nat → String) :
    Nat → Circuit → Reach → Except Error (Reach × CircuitSizes)
  | 0, _, _ => .error .undefinedState
  | fuel + 1, c, r =>
    let r := { r with keys := includeAll r.keys c.keys }
    match c.called with
    | some sizes => .ok ({ r with callees := includeAll r.callees (c.callees.getD []) }, sizes)
    | none =>
      c.calls.foldlM (fun (r, sizes) call =>
        match Circuit.find? circuits call.callee with
        | none => .error (.defect (.calleeWithoutCircuit (name call.callee)))
        | some k => do
          let r := { r with callees := includeOnce r.callees call.callee }
          let (r, below) ← Circuit.follow circuits name fuel k r
          return (r, sizes + (below + k.ownSizes))) (r, .zero)

/-- Put a circuit in the place of the one of its function. -/
def Circuit.update (circuits : List Circuit) (c : Circuit) : List Circuit :=
  circuits.map fun k => if k.function == c.function then c else k

/-- Find out what the circuits of these functions call. -/
def Circuit.complete (name : Nat → String) (functions : List Nat) (circuits : List Circuit) :
    Except Error (List Circuit) :=
  functions.foldlM (fun circuits f =>
    match Circuit.find? circuits f with
    | none => .error .undefinedState
    | some c => do
      let (r, sizes) ← c.follow circuits name (circuits.length + 1) ⟨[], []⟩
      return Circuit.update circuits
        { c with keys := r.keys, callees := some r.callees, called := some sizes }) circuits

/-- The name of the variable with the start of a section. -/
def startIndex (array : String) : String := array ++ "_start_idx"

/-- A place in a section. -/
def sectionPlace (array : String) (offset : Int) : Expr :=
  .applyOp .add [.name (startIndex array), .literal offset]

/-- The arguments that tell a callee where its sections start. -/
def sectionArgs (input output : Int) : List Expr :=
  [.name Generated.inputs, sectionPlace Generated.inputs input,
   .name Generated.outputs, sectionPlace Generated.outputs output]

/-- Lay out the sections of all calls of a circuit: the calls with the offsets of their secret inputs, and
the arguments that each of them gets. -/
def Circuit.layOut (circuits : List Circuit) (c : Circuit) : Circuit × List (Nat × List Expr) × CircuitSizes :=
  let (calls, args, used) := c.calls.foldl (fun (calls, args, used) call =>
    let start := c.ownSizes + used
    let section_ := ((Circuit.find? circuits call.callee).map Circuit.sizes).getD .zero
    (calls ++ [{ call with offset := start.secret }],
      args ++ [(call.node, sectionArgs start.input start.output)], used + section_)) ([], [], .zero)
  ({ c with calls := calls }, args, used)

/-- Hand additional arguments to the calls with these numbers. -/
def Expr.addArgs (sites : List (Nat × List Expr)) (e : Expr) : Expr :=
  Id.run (e.bottomUp fun x => pure (match x with
    | .call i f as o k =>
      match sites.lookup i.id with
      | some more => .call i f (as ++ more) o k
      | none => .call i f as o k
    | x => x))

end Shroud
