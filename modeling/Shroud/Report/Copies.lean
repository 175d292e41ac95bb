import Shroud.Report.Functions
import Shroud.Syntax.Copy

/-!
# Reports about copies

The body of every function is copied and the copy is described like the body itself. A copy is never the
body it was made from, and it stands in the same function.
-/

namespace Shroud

/-- A copy of the body of a function. -/
def FunctionDef.copyReport (c : LinkContext) (keys : List (Nat × String)) (f : Fidelity) (g : FunctionDef) :
    LinkM Report := do
  let copy ← g.body.duplicate (c.ofBody g) f
  let rows ← copy.rows (← get).symbols keys
  let reports ← liftM (rows.mapM (StmtRow.report true))
  return .list [.text g.title, .bool false, .bool true, .list reports]

/-- Copies of all bodies. -/
def SourceUnit.copyReport (u : SourceUnit) (next : Nat) (f : Fidelity) : Except Error Report := do
  let bodies := u.contracts.flatMap fun c => c.allFunctions.map fun g => (c.context u, g)
  let copies := bodies.mapM fun (c, g) => g.copyReport c u.indexKeys f
  let (reports, _) ← copies.run ⟨u.symbols, next⟩
  return .list reports

end Shroud
