import Shroud.Split.Declaration
import Shroud.Split.PublicExpr
import Shroud.Split.Unchanged

/-!
# Statements of public code

Statements stay as they are apart from their expressions and declarations. What a statement needs beforehand
is put in front of it, and a statement that was changed is shown together with its source.

**If statements.** An if statement with a private condition is carried out by the circuit as a whole. With a
public condition the branches are guarded in the circuit if they contain private code; what the circuit
learns about variables inside a branch is forgotten after it.

**Assignments.** A variable that is assigned an output of the circuit is still known to the circuit. All
other written variables are forgotten.

**Returns.** A function with a circuit returns only after its values were handed over, so its return
statement becomes an assignment.
-/

namespace Shroud

open SplitM

/-- What is split: a body together with the activities to split it, whether the function needs a proof, its
name, and the variables that receive its results. -/
structure BodySplit where
  splitter : Splitter
  needsProof : Bool
  name : String
  results : List LocalVar

namespace BodySplit

/-- The circuit value that an assignment hands to a variable, if it is an output of the circuit. -/
def assignedValue? (o : Options) (lhs rhs : Expr) : Option (Variable × CircuitVar) :=
  match lhs, rhs with
  | .ident .., .member _ _ (.circuit out) _ =>
    if o.cacheOutputs.holds && out.role = .publicArgument then
      match Variable.ofExpr? lhs, out.held? with
      | some x, some v => some (x, v)
      | _, _ => none
    else none
  | _, _ => none

/-- An assignment; what was written is forgotten, unless the circuit knows the value. -/
def assign (b : BodySplit) (i : StmtInfo) (l r : Expr) (op : String) (isInput : Bool) : SplitM Stmt := do
  let l' ← b.splitter.publicly l
  restate (.assign i l' r op isInput)
  let r' ← b.splitter.publicly r
  match assignedValue? (← options) l' r' with
  | some (x, v) =>
    setVersion x v
    note (.hand x v)
    overwrite ((i.writes.filter fun w => w.target ≠ x.ref).filterMap Variable.ofLoc?)
  | none => overwrite (i.writes.filterMap Variable.ofLoc?)
  return .assign i l' r' op isInput

/-- A return statement. -/
def giveBack (b : BodySplit) (i : StmtInfo) (value : Option Expr) : SplitM (Option Stmt) := do
  if !b.needsProof then return some (.ret i (← value.mapM b.splitter.publicly))
  match value with
  | none => return none
  | some e =>
    if (← circuit).hasResult then throw (.defect (.severalReturns b.name))
    modifyCircuit fun c => { c with hasResult := true }
    let value ← b.splitter.publicly e
    let vars := b.results.map fun v =>
      Expr.ident { Info.synthetic with type := some v.type } (.plain v.name) (some v.ref)
    return some (.set (.tuple .synthetic vars) value)

/-- Private code has no place in these parts of a loop. -/
def checkLoop (c : LinkContext) (loop : Stmt) (parts : List (List Node)) : SplitM Unit := do
  let symbols ← symbols
  if parts.any (Node.havePrivateCode symbols) then throw (c.site.atStmt loop .privateLoop)

/-- A branch under a guard; afterwards the circuit knows what it knew before. -/
def branch (guard : CircuitVar) (holds : Bool) (known : Versions) (activity : SplitM Block) :
    SplitM (Block × List Step) :=
  captured <| guarded guard holds do
    note .resume
    let body ← activity
    resume known
    return body

/-- A part of a loop. -/
def lap {α : Type} (activity : SplitM α) : SplitM α := grouped .item do
  note .resume
  activity

/-- A loop with its parts. -/
def repeated {α : Type} (activity : SplitM α) : SplitM α := do
  let a ← grouped .loop activity
  note .resume
  return a

/-- The nodes of an optional block. -/
def nodesOf (b : Option Block) : List Node := (b.map Block.nodes).getD []

/-- A new statement with what precedes it, shown together with its source if it was changed. -/
def shown (source : String) (new : Option Stmt) (before : List Stmt) : List Stmt :=
  match new with
  | none => []
  | some s => if before.isEmpty && s.readsAs source then [s] else Stmt.framed source (before ++ [s])

/-- A list does not end in a blank line. -/
def trimmed (stmts : List Stmt) : List Stmt :=
  match stmts.getLast? with
  | some .blank => stmts.dropLast
  | _ => stmts

end BodySplit

open BodySplit

mutual

/-- Split a statement; the result is its public code, if any is left, and what precedes that. -/
def Stmt.split (b : BodySplit) (c : LinkContext) : Stmt → SplitM (Option Stmt × List Stmt)
  | .assign i l r o x => do
    let (s, before) ← working c (some (.assign i l r o x)) (b.assign i l r o x)
    return (some s, before)
  | .ret i e => working c (some (.ret i e)) (b.giveBack i e)
  | .eval i e => do
    let (e, before) ← working c (some (.eval i e)) (b.splitter.publicly e)
    return (some (.eval i e), before)
  | .require i e => do
    let (e, before) ← working c (some (.require i e)) (b.splitter.publicly e)
    return (some (.require i e), before)
  | .declare i v e => do
    let v' := v.encrypted (← options)
    linking (LinkM.record v'.id v'.type)
    let (e, before) ← working (c.declaring v) (some (.declare i v' e)) (e.mapM b.splitter.publicly)
    return (some (.declare i v' e), before)
  | .ifThen i e t none => do
    let whole := Stmt.ifThen i e t none
    if !e.checkedType.isPublic then
      let (s, before) ← b.splitter.carryOutWhole c whole
      return (some s, before)
    else
      let (s, before) ← working c (some whole) do
        if !Node.havePrivateCode (← symbols) t.nodes then
          let e ← b.splitter.publicly e
          return Stmt.ifThen i e (← optional (t.split b c)) none
        else
          let known ← versions
          let guard ← b.splitter.input e
          let e ← ofExcept (guardValue guard e)
          let (t, yes) ← branch guard true known (t.split b c)
          record (.branches (some guard) yes [])
          forgetAll (i.writes.filterMap Variable.ofLoc?)
          note .resume
          return Stmt.ifThen i e t none
      return (some s, before)
  | .ifThen i e t (some f) => do
    let whole := Stmt.ifThen i e t (some f)
    if !e.checkedType.isPublic then
      let (s, before) ← b.splitter.carryOutWhole c whole
      return (some s, before)
    else
      let (s, before) ← working c (some whole) do
        if !Node.havePrivateCode (← symbols) (t.nodes ++ f.nodes) then
          let e ← b.splitter.publicly e
          let (t, yes) ← captured (t.split b c)
          let (f, no) ← captured do
            note .resume
            f.split b c
          record (.branches none yes no)
          note .resume
          return Stmt.ifThen i e t (some f)
        else
          let known ← versions
          let guard ← b.splitter.input e
          let e ← ofExcept (guardValue guard e)
          let (t, yes) ← branch guard true known (t.split b c)
          let (f, no) ← branch guard false known (f.split b c)
          record (.branches (some guard) yes no)
          forgetAll (i.writes.filterMap Variable.ofLoc?)
          note .resume
          return Stmt.ifThen i e t (some f)
      return (some s, before)
  | .whileLoop i e body => do
    let whole := Stmt.whileLoop i e body
    checkLoop c whole [e.nodes, body.nodes]
    let (s, before) ← working c (some whole) (repeated do
      let e ← lap (b.splitter.publicly e)
      return Stmt.whileLoop i e (← lap (body.split b c)))
    return (some s, before)
  | .doWhile i body e => do
    let whole := Stmt.doWhile i body e
    checkLoop c whole [e.nodes, body.nodes]
    let (s, before) ← working c (some whole) (repeated do
      let body ← lap (body.split b c)
      restate (.doWhile i body e)
      return Stmt.doWhile i body (← lap (b.splitter.publicly e)))
    return (some s, before)
  | .forLoop i init e update body => do
    checkLoop c (.forLoop i init e update body)
      [e.nodes, (update.map Stmt.nodes).getD [], body.nodes]
    let inner := { c with
      scope := c.scope.enterBlock i.pos (Stmt.declared? init ++ Stmt.declared? update) }
    let (first, beforeFirst) ← Stmt.splitOptional b inner init
    let inner := { inner with scope := inner.scope.declare (Stmt.declared? init) }
    let (s, before) ← working inner (some (.forLoop i first e update body)) (repeated do
      let e ← lap (b.splitter.publicly e)
      let (last, _) ← lap (Stmt.splitOptional b inner update)
      return Stmt.forLoop i first e last (← lap (body.split b inner)))
    return (some s, beforeFirst ++ before)
  | .block body => do return (some (.block (← body.split b c)), [])
  | .seq i ss x => do return (some (.seq i (trimmed (← Stmt.splitAll b c ss)) x), [])
  | .comment _ | .blank => throw .undefinedState
  | s => return (some s, [])

/-- Split a statement that may be missing. -/
def Stmt.splitOptional (b : BodySplit) (c : LinkContext) : Option Stmt → SplitM (Option Stmt × List Stmt)
  | none => return (none, [])
  | some s => s.split b c

def Block.split (b : BodySplit) (c : LinkContext) : Block → SplitM Block
  | ⟨i, ss, single⟩ => do
    let inner := { c with scope := c.scope.enterBlock i.pos (Stmt.declaredAll ss) }
    return ⟨i, trimmed (← Stmt.splitAll b inner ss), single⟩

def Stmt.splitAll (b : BodySplit) (c : LinkContext) : List Stmt → SplitM (List Stmt)
  | [] => return []
  | s :: ss => do
    let (new, before) ← s.split b c
    let rest ← Stmt.splitAll b { c with scope := c.scope.declare s.declared } ss
    return shown s.text new before ++ rest

end

end Shroud
