import Shroud.Circuit.Record
import Shroud.Report.Circuits
import Shroud.Report.Exprs
import Shroud.Split.Session

/-!
# Reports on work done step by step
-/

namespace Shroud

/-- The current versions by name. -/
def Versions.report (vs : Versions) : Report := .list (vs.entries.map fun (x, v) => .texts [x.name, v.name])

/-- What a join has made. -/
def joinReport (made : List (CircuitVar × Expr)) : Except Error Report := do
  return .list (← made.mapM fun (v, e) => do
    return .list [.text v.name, .text e.code, ← AnnTy.report? e.type?])

/-- A circuit variable as it is used inside the circuit and in public code. -/
def CircuitVar.usage (v : CircuitVar) : Except Error Report := do
  let row ← v.report
  return .object [("idf", row), ("clone", row), ("loc", .attempt (v.location >>= Expr.report)),
    ("expr", ← v.read.report)]

/-- The state of the work on a function. -/
def Session.report (s : Session) : Except Error (List (String × Report)) := do
  return [("sizes", s.circuit.ownSizes.report), ("struct", .bool s.circuit.needsData),
    ("phi", ← s.circuit.bodyReport s.functionName),
    ("pre", .list (s.drafts.map fun d => .list (d.before.map fun x => .text? (x.code? .default)))),
    ("keys", s.circuit.keyReport), ("remapped", s.circuit.versions.report)]

end Shroud
