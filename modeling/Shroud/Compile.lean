import Shroud.Pass
import Shroud.Split.Contract

/-!
# Compiling programs

A program goes through all passes and is then split. What is compiled stays available as it was after the
passes.

**Log.** Messages and measurements are made in the context of the compilation. Every circuit is measured in
a context with the name of its function.
-/

namespace Shroud

/-- The result of a compilation: the program after the passes, its public code, the circuits and the next
free number. -/
structure Compilation where
  source : SourceUnit
  code : SourceUnit
  circuits : List Circuit
  next : Nat

/-- The name of a function, given by its number. -/
def SourceUnit.functionName (u : SourceUnit) (id : Nat) : String :=
  ((u.allFunctions.find? (·.id == id)).map FunctionDef.title).getD ""

/-- Record the sizes of a circuit. -/
def Circuit.measure (name : String) (l : Log) (c : Circuit) : Log :=
  let l := (l.push name).data "nCircuitStatements" (.int c.body.length)
  let l := (l.data "inSize" (.int c.sizes.input)).data "outSize" (.int c.sizes.output)
  (l.data "privInSize" (.int c.sizes.secret)).pop

namespace Compilation

/-- Record what was compiled. -/
def measure (r : Compilation) (l : Log) : Log :=
  let l := r.circuits.foldl (fun l c => c.measure (r.code.functionName c.function) l) l
  l.message .info ("Transformed " ++ toString r.code.contracts.length ++ " contract(s), " ++
    toString r.circuits.length ++ " circuit(s)")

end Compilation

/-- Compile a fresh program. -/
def SourceUnit.compile (u : SourceUnit) (next : Nat) (o : Options) (t : Transcript) :
    Transcript × Except Error Compilation :=
  match u.process next o .all (t.mapLog (·.push "compile")) with
  | (t, .error e) => (t, .error e)
  | (t, .ok p) =>
    let (t, r) := t.step o "transform" "Transforming zkay -> public contract" fun t =>
      (t, (p.unit.markHoms o).split o p.next)
    match r with
    | .error e => (t, .error e)
    | .ok (code, circuits, next) =>
      let r : Compilation := ⟨p.unit, code, circuits, next⟩
      (t.mapLog fun l => (r.measure l).pop, .ok r)

end Shroud
