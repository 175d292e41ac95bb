import Shroud.Analysis.Effects

/-!
# Who calls whom

For every function the functions it calls, directly or through others, whether it can reach itself, and
whether its body is static: it has no loop and calls only functions that are static themselves.

**Order.** Direct calls come in the order of the text. The indirect ones follow, those of the last found
function first.
-/

namespace Shroud

/-- Append a number unless it is listed. -/
def addOnce (xs : List Nat) (x : Nat) : List Nat := if xs.contains x then xs else xs ++ [x]

/-- The nodes without those of parameters; `skip` of them still belong to one. -/
def Node.outsideParams (skip : Nat) : List Node → List Node
  | [] => []
  | n :: ns =>
    match skip, n with
    | k + 1, _ => Node.outsideParams k ns
    | 0, .param p => Node.outsideParams (p.nodes.length - 1) ns
    | 0, n => n :: Node.outsideParams 0 ns

/-- The functions that the nodes call. Only named functions can be called. -/
def Symbols.directCalls (symbols : Symbols) : List Node → Except Error (List Nat)
  | [] => .ok []
  | n :: ns => do
    let here ← (match n with
      | .expr (.call i f as o k) =>
        if f matches .operator .. then .ok none
        else if (Expr.call i f as o k).isCastCall then .ok none
        else match symbols.callee? f with
          | some g => if g.isConstructor then .error .assertion else .ok (some g.id)
          | none => .error .assertion
      | _ => .ok none)
    let rest ← symbols.directCalls ns
    match here with
    | none => return rest
    | some g => return g :: rest

/-- The nodes hold a loop. -/
def Node.haveLoop (ns : List Node) : Bool := ns.any fun
  | .stmt (.whileLoop ..) | .stmt (.doWhile ..) | .stmt (.forLoop ..) => true
  | _ => false

/-- Everything reachable from the pending functions; the last one found is followed first. -/
def closeCalls (calls : Nat → List Nat) : Nat → List Nat → List Nat → List Nat
  | 0, known, _ => known
  | fuel + 1, known, pending =>
    match pending.getLast? with
    | none => known
    | some f =>
      let new := (calls f).foldl (fun acc g => if known.contains g then acc else addOnce acc g) []
      closeCalls calls fuel (known ++ new) (pending.dropLast ++ new)

namespace SourceUnit

/-- Change the facts of every function, constructors first, seeing the changes made before. -/
def mapFacts (u : SourceUnit) (f : Symbols → FunctionDef → FunctionFacts) : SourceUnit :=
  (u.mapFunctions u.symbols fun _ g symbols =>
    let g := { g with facts := f symbols g }
    (g, symbols.setFunction g)).1

/-- Record the direct calls of every function and whether it holds a loop. -/
def markDirectCalls (u : SourceUnit) : Except Error SourceUnit := do
  let symbols := u.symbols
  let visit (f : FunctionDef) : Except Error FunctionDef := do
    let nodes := f.body.nodes
    let calls ← symbols.directCalls (Node.outsideParams 0 nodes)
    return { f with facts := { f.facts with
      calls := calls.foldl addOnce f.facts.calls
      staticBody := f.facts.staticBody && !Node.haveLoop nodes } }
  let contracts ← u.contracts.mapM fun c => do
    let constructors ← c.constructors.mapM visit
    let functions ← c.functions.mapM visit
    return { c with constructors, functions }
  return { u with contracts }

/-- Find out who calls whom. -/
def markCalls (u : SourceUnit) : Except Error SourceUnit := do
  let u ← u.markDirectCalls
  let size := u.allFunctions.length + Builtin.methods.length
  let u := u.mapFacts fun symbols f =>
    let calls := closeCalls (fun g => ((symbols.function? g).map (·.facts.calls)).getD [])
      (2 * size + 1) f.facts.calls f.facts.calls
    let recursive := f.facts.recursive || calls.contains f.id
    { f.facts with
      calls := calls
      recursive := recursive
      staticBody := f.facts.staticBody && !calls.contains f.id }
  return u.mapFacts fun symbols f =>
    { f.facts with
      staticBody := f.facts.staticBody && f.facts.calls.all fun g =>
        ((symbols.function? g).map (·.facts.staticBody)).getD true }

end SourceUnit

end Shroud
