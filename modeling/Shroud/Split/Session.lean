import Shroud.Split.Contract

/-!
# Splitting step by step

A session works on the circuit of a single function, one activity at a time. Every statement of the body is
a draft that keeps what the activities have put in front of it and how they have changed it.

**Failure.** An activity that fails leaves behind what it has done so far.
-/

namespace Shroud

/-- The work on one function. -/
structure Session where
  context : SplitContext
  function : FunctionDef
  functions : List FunctionDef
  splitter : Splitter
  drafts : List Draft
  circuit : Circuit
  symbols : Symbols
  next : Nat

/-- The statements of a block as drafts. -/
def Stmt.drafts (c : LinkContext) : List Stmt → List Draft
  | [] => []
  | s :: ss =>
    let here := match s with
      | .declare _ v _ => c.declaring v
      | _ => c
    ⟨some s, [], here⟩ :: Stmt.drafts { c with scope := c.scope.declare s.declared } ss

/-- Start to work on a function of a processed contract. Nothing is prepared to become part of a circuit. The
known owners are those of the first contract. -/
def Contract.session (o : Options) (unit : SourceUnit) (c : Contract) (name : String) (next : Nat) :
    Option Session := do
  let f ← c.allFunctions.find? (·.title == name)
  let place := c.context unit
  let (body, next) := f.body.renumber.run next
  let c' := place.ofBody f
  let inner := { c' with scope := c'.scope.enterBlock body.info.pos (Stmt.declaredAll body.stmts) }
  return {
    context :=
      { options := o, owners := ((unit.contracts.head?).map Contract.knownOwners).getD [.me]
        callees := c.allFunctions.map fun g => ⟨g.id, g.params, none, [], place.ofBody g⟩ }
    function := f, functions := unit.allFunctions, splitter := .bounded c.splitDepth
    drafts := Stmt.drafts inner body.stmts, circuit := .empty f.id, symbols := unit.symbols, next }

namespace Session

/-- Carry out an activity, for one of the statements if it is given. -/
def perform {α : Type} (s : Session) (place : Option Nat) (activity : SplitM α) : Except Error α × Session :=
  let draft := place.bind fun n => s.drafts[n]?
  let (r, w) := (activity.run s.context).run ⟨s.circuit, draft.toList, s.symbols, s.next⟩
  let drafts := match place, w.drafts.getLast? with
    | some n, some d => s.drafts.set n d
    | _, _ => s.drafts
  (r, { s with circuit := w.circuit, drafts, symbols := w.symbols, next := w.next })

/-- An expression of a statement as it stands. -/
def expr (s : Session) (place : Nat) (path : List Nat) : Except Error Expr :=
  match ((s.drafts[place]?).bind Draft.stmt).bind fun x => x.exprBelow? path with
  | some e => .ok e
  | none => .error .undefinedState

/-- Carry out an activity with an expression of a statement. -/
def performWith {α : Type} (s : Session) (place : Nat) (path : List Nat) (activity : Expr → SplitM α) :
    Except Error α × Session :=
  match s.expr place path with
  | .ok e => s.perform (some place) (activity e)
  | .error e => (.error e, s)

/-- Make the circuit of a function part of this one. -/
def call (s : Session) (name : String) : Except Error Unit × Session :=
  match s.functions.find? (·.title == name) with
  | some g => s.perform none (Splitter.recordCall 0 g)
  | none => (.error (.missing name), s)

/-- The circuit variables that stand for a variable are not current any more. -/
def forget (s : Session) (name : String) : Session :=
  { s with circuit := { s.circuit with
    versions := ⟨s.circuit.versions.entries.filter fun (x, _) => x.name ≠ name⟩ } }

/-- The name of the contract that verifies proofs about the function. -/
def verifier (s : Session) : Except Error String :=
  match s.circuit.verifier with
  | some v => .ok v
  | none => .error (.defect (.noVerifier s.function.title))

/-- A proof is needed if anything enters or leaves the circuit, which must agree with what the passes found. -/
def needsProof (s : Session) : Except Error Bool :=
  let needed := s.circuit.sizes.isPositive
  if needed = s.function.facts.needsProof then .ok needed
  else .error (.defect (.sizesDisagree s.function.title))

/-- The name of a function, given by its number. -/
def functionName (s : Session) (id : Nat) : String :=
  ((s.functions.find? (·.id == id)).map FunctionDef.title).getD ""

end Session

end Shroud
