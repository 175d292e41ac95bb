import Shroud.Privacy.Verification
import Shroud.Split.CircuitExpr

/-!
# Expressions of public code

Public code keeps everything that needs no secrets. Private operations, changes of owners and private casts
are computed by the circuit, and their outputs take their place.

**Short circuits.** An operand that need not be evaluated is guarded in the circuit, and the public code it
needs beforehand only runs if the operand is evaluated.

**Calls** of functions that are also called from outside lead to the internal part of the function. If the
function has a circuit, that circuit becomes part of the caller's.
-/

namespace Shroud

open SplitM

/-- The operands of an operator that are evaluated only if the first one has a certain value. -/
def Op.guardedOperands : Op → List (Nat × Bool)
  | .ite => [(1, true), (2, false)]
  | .and => [(1, true)]
  | .or => [(1, false)]
  | _ => []

/-- The value of a guard in public code. A guard that was already known in the circuit has no place there;
the condition itself then is a variable. -/
def guardValue (guard : CircuitVar) (cond : Expr) : Except Error Expr :=
  match guard.role, cond with
  | .publicArgument, _ => guard.location
  | _, .ident i n target => .ok (.ident { Info.synthetic with type := i.type } n target)
  | _, _ => guard.location

/-- The condition under which an operand is evaluated. -/
def guardCondition (guard : CircuitVar) (cond : Expr) (holds : Bool) : Except Error Expr := do
  match ← guardValue guard cond with
  | .boolLit _ b => return .boolLiteral (b == holds)
  | e => return if holds then e else .applyOp .not [e]

namespace Splitter

/-- Compute an expression in the circuit for the owner that its type names. -/
def evaluateOwned (t : Splitter) (e : Expr) (hom : Hom) : SplitM Expr :=
  match e.checkedType.privacy.label? with
  | some owner => t.evaluate e owner hom
  | none => throw .undefinedState

/-- An operand that is evaluated only if a guard has a certain value. -/
def guardedOperand (t : Splitter) (guard : CircuitVar) (cond : Expr) (holds : Bool) (e : Expr) :
    SplitM Expr := do
  let start := ((← draft?).map (·.before.length)).getD 0
  let value ← optional (guarded guard holds (t.publicly e))
  let added := ((← draft?).map (·.before.drop start)).getD []
  if !added.isEmpty then
    let test ← ofExcept (guardCondition guard cond holds)
    modifyDraft fun d =>
      { d with before := d.before.take start ++ [.ifThen default test (.ofStmts added) none] }
  return value

/-- An operator whose later operands are private and not always evaluated. -/
def shortCircuit (t : Splitter) (i : Info) (f : Expr) (op : Op) (args : List Expr) (offset : Int)
    (key : Option CircuitVar) : SplitM Expr := do
  match args with
  | [] => throw .undefinedState
  | cond :: rest =>
    let guard ← t.input cond
    let first ← ofExcept (guardValue guard cond)
    let rebuilt (args : List Expr) : Expr := .call i f args offset key
    let args ← op.guardedOperands.foldlM (fun args (n, holds) => do
      let _ ← put (rebuilt args)
      match args[n]? with
      | none => throw .undefinedState
      | some e => return args.set n (← t.guardedOperand guard cond holds e)) (first :: rest)
    put (rebuilt args)

/-- Calls of a split function lead to its internal part. -/
def internalTarget (f : Expr) (g : FunctionDef) : Except Error Expr :=
  if g.facts.needsProofExternally then
    match f with
    | .ident i _ target => .ok (.ident i (.plain (Generated.internal g.title true)) target)
    | _ => .error (.defect .splitCallTarget)
  else .ok f

/-- The circuit of a called function becomes part of this one. -/
def recordCall (node : Nat) (g : FunctionDef) : SplitM Unit := do
  if !g.facts.needsProof then throw (.defect (.noCircuit g.title))
  modifyCircuit fun c => { c with calls := c.calls ++ [⟨node, g.id, 0⟩] }
  emit (.call g.id)

/-- A call of a function of the contract. -/
def publicCall (t : Splitter) (i : Info) (f : Expr) (args : List Expr) (offset : Int)
    (key : Option CircuitVar) : SplitM Expr := do
  let e := Expr.call i f args offset key
  if !f.isLocation then throw (.defect (.callTarget f.code))
  let f ← t.publicly f
  let _ ← put (.call i f args offset key)
  let args ← args.mapM t.publicly
  let symbols ← symbols
  match symbols.callee? f with
  | none => throw .undefinedState
  | some g =>
    let f ← ofExcept (internalTarget f g)
    let written := ((e.calledAccess symbols).writes.filterMap Variable.ofLoc?).filter fun x => x.kind = .stateVar
    if g.facts.needsProof then recordCall i.id g
    if !g.facts.needsProof && g.hasSideEffects then overwrite written
    else written.forM fun x => note (.pass x g.id)
    put (.call i f args offset key)

/-- Turn an expression into public code. -/
def publicStep (t : Splitter) (e : Expr) : SplitM Expr := do
  match e with
  | .me i => do
    let sender ← relink (.dot (.name "msg") "sender")
    return (sender.withPos i.pos).withType .publicAddress
  | .index i base key _ =>
    let base ← t.publicly base
    let key ← t.publicly key
    let place ← ofExcept (base.indexedBy key)
    return (← relink place).mapInfo fun j => { j with pos := i.pos }
  | .member i base n target => put (.member i (← t.publicly base) n target)
  | .tuple i es => put (.tuple i (← es.mapM t.publicly))
  | .reclassify _ _ arg p _ =>
    match p.label? with
    | some owner => t.evaluate arg owner e.checkedType.hom
    | none => throw .undefinedState
  | .cast i type arg b =>
    if i.privately then t.evaluateOwned e e.checkedType.hom
    else put (.cast i type (← t.publicly arg) b)
  | .call i f args o k =>
    match f with
    | .operator _ op isPrivate h _ =>
      if isPrivate then t.evaluateOwned e h
      else
        let symbols ← symbols
        if !op.guardedOperands.isEmpty &&
            (args.drop 1).any (fun a => Node.havePrivateCode symbols a.nodes) then
          t.shortCircuit i f op args o k
        else put (.call i f (← args.mapM t.publicly) o k)
    | f =>
      if e.isCastCall then
        if ((args.head?).map (·.info.privately)).getD false then t.evaluateOwned e e.checkedType.hom
        else
          let f ← t.publicly f
          put (.call i f (← args.mapM t.publicly) o k)
      else t.publicCall i f args o k
  | .new .. | .all _ => throw (.defect (.unexpectedExpression e.kind))
  | e => return e

end Splitter

/-! ## Tying the knot -/

/-- The activities with a bound on how deep they may refer to each other. -/
def Splitter.bounded : Nat → Splitter
  | 0 => ⟨fun _ => throw .undefinedState, fun _ => throw .undefinedState, fun _ _ _ => throw .undefinedState⟩
  | n + 1 =>
    ⟨fun e => (bounded n).publicStep e, fun e => (bounded n).privateStep e,
      fun results c b => b.carryOut (bounded n) results c none false⟩

end Shroud
