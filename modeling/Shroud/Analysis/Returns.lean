import Shroud.Symbol.Link

/-!
# Where functions return

A function returns at the end of its body and nowhere else; constructors do not return.
-/

namespace Shroud

/-- The return statements among the nodes. -/
def Node.returns (ns : List Node) : List Stmt := ns.filterMap fun
  | .stmt (.ret i e) => some (.ret i e)
  | _ => none

/-- The misplaced return statements of a body. The last statement of a function's body may be one. -/
def FunctionDef.misplacedReturns (f : FunctionDef) : List Stmt :=
  match f.body.stmts.getLast? with
  | some (.ret _ _) =>
    if f.isConstructor then Node.returns f.body.nodes
    else Node.returns (Stmt.nodesAll f.body.stmts.dropLast)
  | _ => Node.returns f.body.nodes

/-- Complain about the first misplaced return statement. -/
def SourceUnit.checkReturns (u : SourceUnit) : Except Error Unit := do
  for c in u.contracts do
    for f in c.allFunctions do
      match f.misplacedReturns with
      | [] => pure ()
      | s :: _ =>
        let site : Site := ⟨some u.text, some c.name, some f.title, some s⟩
        throw (site.atStmt s .returnPosition)

end Shroud
