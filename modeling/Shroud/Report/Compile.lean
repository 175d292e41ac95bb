import Shroud.Compile
import Shroud.Report.Circuits

/-!
# Reports about compilations

The public code of a program, what the prover has to do while it runs, and the circuits.
-/

namespace Shroud

/-- What a statement asks of the prover beyond carrying it out. -/
def Stmt.directive? : Stmt → Option Report
  | .compute _ v => some (.texts ["compute", v.name])
  | .enterKey _ b => some (.texts ["secret_key", b.name])
  | .assign _ l r o true => some (.texts ["input", (Stmt.assign default l r o true).text])
  | .seq _ ss true => some (.list [.text "excluded", .nat ss.length])
  | _ => none

namespace Compilation

def directives (r : Compilation) : Report := .list (r.code.allFunctions.map fun f =>
  .list [.text f.title, .list ((Node.stmts f.body.nodes).filterMap Stmt.directive?)])

/-- The public code with all circuits. -/
def report (r : Compilation) : Except Error Report := do
  if !r.code.isPrintable then .error .functionType
  return .object [("code", .text (r.code.code .default)), ("directives", r.directives),
    ("circuits", .list (← r.circuits.mapM (Circuit.report r.code.functionName)))]

end Compilation

/-- The report on a compilation, up to the failure if there is one. A program can be compiled a second time
from its public code. -/
def SourceUnit.compileReport (u : SourceUnit) (next : Nat) (o : Options) (twice : Bool) :
    Report × Option Error :=
  let finished (t : Transcript) (es : List (String × Report)) : Report :=
    .object (es ++ [("log", t.log.report)] ++ (if t.output.isEmpty then [] else [("stdout", .text t.output)]))
  match u.compile next o .empty with
  | (t, .error e) => (finished t [], some e)
  | (t, .ok r) =>
    match r.report with
    | .error e => (finished t [], some e)
    | .ok first =>
      if !r.source.isPrintable then (finished t first.entries, some .functionType)
      else
      let es := first.entries ++ [("source", .text (r.source.code .default))]
      if !twice then (finished t es, none)
      else match r.code.compile r.next o t with
        | (t, .error e) => (finished t es, some e)
        | (t, .ok r) =>
          match r.report with
          | .error e => (finished t es, some e)
          | .ok again => (finished t (es ++ [("twice", again)]), none)

end Shroud
