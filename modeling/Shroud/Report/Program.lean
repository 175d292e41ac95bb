import Shroud.Pass
import Shroud.Privacy.UsedHoms
import Shroud.Report.Functions
import Shroud.Report.Links

/-!
# Reports about programs

How far a program gets through the passes, what the functions look like afterwards, and how its parts are
found by name.
-/

namespace Shroud

/-- What a program needs once it has passed. -/
structure NeedsReport where
  homs : List Hom
  functionHoms : List (String × List Hom × List Backend)
  verifiers : List String

/-- How far a program got. The functions are listed once their accesses are known; `typed` tells whether
their types are. -/
structure PassReport where
  done : List Pass
  failure : Option (Pass × Error)
  needs : Option NeedsReport
  log : Log
  functions : Option Report
  typed : Bool
  code : Option String

/-- Run all passes and report. -/
def SourceUnit.passReport (u : SourceUnit) (next : Nat) (o : Options) : Except Error PassReport := do
  let (p, done, failed) := (Progress.start u next).runAll o Pass.all
  let unit := if p.failure.isNone then p.unit.markHoms o else p.unit
  let needs := match p.failure with
    | some _ => none
    | none => some {
        homs := unit.usedHoms
        functionHoms := unit.allFunctions.map fun f => (f.title, f.facts.homs, f.facts.backends)
        verifiers := unit.verifiers : NeedsReport }
  let typed := done.contains .types
  if typed && !unit.isPrintable then .error .functionType
  let functions ← if done.contains .accesses then some <$> unit.functionReport typed else .ok none
  return {
    done := done
    failure := match failed, p.failure with
      | some x, some e => some (x, e)
      | _, _ => none
    needs := needs
    log := (Transcript.empty.warnAll { o with quiet := .bool true } p.warnings).log
    functions := functions
    typed := typed
    code := if typed then some (unit.code .default) else none }

namespace PassReport

def report (r : PassReport) : Report :=
  let failed := match r.failure with
    | none => []
    | some (p, _) => [("failed", Report.text p.name)]
  let needs := match r.needs with
    | none => []
    | some n => [("homs", Hom.reports n.homs),
        ("fct_homs", .list (n.functionHoms.map fun (f, hs, bs) =>
          .list [.text f, Hom.reports hs, .texts (bs.map Backend.name)])),
        ("verifiers", .texts n.verifiers)]
  .object ([("done", .texts (r.done.map Pass.name)), ("log", r.log.report)] ++ failed ++ needs ++
    (r.functions.map fun f => ("functions", f)).toList ++
    (r.code.map fun c => ("code", Report.text c)).toList)

end PassReport

/-! ## Lookup -/

/-- The part of a node that a name leads to. A contract without constructor has an empty one. -/
def Node.part (n : Node) (name : String) : Except Error Node :=
  match n with
  | .unit u =>
    match u.names.lookup name with
    | none => .error (.missing name)
    | some r =>
      match u.contracts.find? (·.ref == r) with
      | some c => .ok (.contract c)
      | none => .error .assertion
  | .contract c =>
    if name = "constructor" then
      match c.constructors with
      | [] => .ok (.function ⟨0, none, [], [], [], .ofStmts [], .unknown, .initial⟩)
      | [f] => .ok (.function f)
      | _ => .error (.badValue .severalConstructors)
    else
      let parts := (c.stateVars.map fun v => (v.name, Node.stateVar v)) ++
        (c.functions.map fun f => (f.title, Node.function f)) ++
        (c.structs.map fun s => (s.name, Node.struct s)) ++ (c.enums.map fun e => (e.name, Node.enum e))
      match parts.reverse.lookup name with
      | some m => .ok m
      | none => .error (.missing name)
  | _ => .error .undefinedState

/-- The full name of a part with names below it. -/
def Node.qualified? (contract : Option String) : Node → Option (List String)
  | .contract c => some [c.name]
  | .function f => if f.isConstructor then none else some (contract.toList ++ [f.title])
  | .struct s => some (contract.toList ++ [s.name])
  | .enum e => some (contract.toList ++ [e.name])
  | _ => none

/-- Follow a path of names from the program. -/
def SourceUnit.lookup (u : SourceUnit) (path : List String) : Except Error (Node × Option (List String)) := do
  let node ← path.foldlM Node.part (.unit u)
  return (node, node.qualified? path.head?)

/-- The part of a program that a path leads to. -/
def SourceUnit.lookupReport (u : SourceUnit) (path : List String) : Except Error Report := do
  let (node, q) ← u.lookup path
  if !node.isPrintable then .error .functionType
  return .object ([("kind", .text node.kind), ("code", .text node.code)] ++
    (q.map fun q => ("qualified", Report.texts q)).toList)

end Shroud
