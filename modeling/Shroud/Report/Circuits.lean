import Shroud.Circuit.Basic
import Shroud.Report.Basic

/-!
# Reports about circuits

The statements of a circuit, its variables and its sizes in written form.
-/

namespace Shroud

namespace CircuitVar

/-- Name, type, size and role. -/
def report (v : CircuitVar) : Except Error Report := do
  return .list [.text v.name, ← v.type.report, .int v.size, .text v.role.name]

end CircuitVar

/-- The operations on ciphertexts inside an expression: operator, key and randomness. -/
def Expr.cipherOperations (e : Expr) : List Report := e.nodes.filterMap fun
  | .expr (.call _ (.operator _ op _ _ r) _ _ (some key)) =>
    some (.list [.text op.name, .text key.name, .text? (r.map Expr.code)])
  | _ => none

namespace CircuitStmt

mutual

/-- One statement; functions are shown by their names. -/
def report (function : Nat → String) : CircuitStmt → Except Error Report
  | .comment t => .ok (.texts ["comment", t])
  | .block n ss => do return .list [.text "block", .text n, .list (← reports function ss)]
  | .call f => .ok (.texts ["call", function f])
  | .declare v e => do
    let operations := e.cipherOperations
    return .list ([.text "decl", .text v.name, ← v.type.report, .text e.kind, .text e.code,
      ← AnnTy.report? e.type?] ++ (if operations.isEmpty then [] else [.list operations]))
  | .openGuard v b => .ok (.list [.text "guard", .text v.name, .bool b])
  | .closeGuard => .ok (.list [.text "guard", .null, .null])
  | .encrypt p r k c d => .ok (.list [.text "enc", .text p.name, .text r.name, .text k.name, .text c.name, .bool d])
  | .encryptShared p k c d => .ok (.list [.text "symenc", .text p.name, .text k.name, .text c.name, .bool d])
  | .equal t v => .ok (.texts ["eq", t.name, v.name])

def reports (function : Nat → String) : List CircuitStmt → Except Error (List Report)
  | [] => .ok []
  | s :: ss => do return (← s.report function) :: (← reports function ss)

end

end CircuitStmt

namespace CircuitSizes

def report (s : CircuitSizes) : Report := .list [.int s.secret, .int s.input, .int s.output]

end CircuitSizes

namespace Circuit

/-- Keys that are looked up once for a transaction. -/
def keyReport (c : Circuit) : Report :=
  .list (c.keys.map fun (l, b) => .texts [l.name, b.name])

def bodyReport (function : Nat → String) (c : Circuit) : Except Error Report := do
  return .list (← CircuitStmt.reports function c.body)

/-- A whole circuit. -/
def report (function : Nat → String) (c : Circuit) : Except Error Report := do
  let vars (s : NameSupply) : Except Error Report := do return .list (← s.vars.mapM CircuitVar.report)
  let name := function c.function
  return .object [
    ("fct", .text name), ("verifier", .text? c.verifier),
    ("struct", if c.needsData then .text (Generated.data ++ "_" ++ name) else .null),
    ("return_var", .bool c.hasResult), ("phi", ← c.bodyReport function),
    ("sec", ← vars c.secrets), ("in", ← vars c.inputs), ("out", ← vars c.outputs),
    ("sizes", c.ownSizes.report), ("trans", c.sizes.report),
    ("arrays", .list (c.publicArrays.map fun (n, s) => .list [.text n, .int s])),
    ("keys", c.keyReport),
    ("calls", .list (c.calls.map fun k => .list [.text (function k.callee), .int k.offset])),
    ("trans_calls", .texts ((c.callees.getD []).map function))]

end Circuit

end Shroud
