import Shroud.Analysis.Alias
import Shroud.Circuit.Basic
import Shroud.Options
import Shroud.Syntax.Copy
import Shroud.Typing.Ownership

/-!
# Splitting functions: the workspace

A function is split into public code and a circuit. Both grow while its statements are worked through, so
the splitter keeps a workspace: the circuit so far and the statements that are being worked on.

**Drafts.** A statement that is being worked on stands on a stack, as it reads at the moment, together with
the statements that have to be carried out before it. A step that replaces a part of the statement replaces
it in the draft as well, because messages and later steps see the statement as it stands.

**Failure.** A failure leaves the workspace as it is.
-/

namespace Shroud

/-- A function whose body can become part of a circuit: its number, its parameters, the body as it was
before splitting, the variables that receive its results, and its surroundings. A function that is not
prepared for that has no such body. -/
structure Callee where
  id : Nat
  params : List Param
  body : Option Block
  results : List LocalVar
  context : LinkContext

/-- What stays the same while a function is split. `owners` are the labels whose keys are requested once for
a whole transaction. -/
structure SplitContext where
  options : Options
  owners : List Label
  callees : List Callee

/-- A statement that is being worked on. Initial values of state variables belong to no statement. -/
structure Draft where
  stmt : Option Stmt
  before : List Stmt
  context : LinkContext

/-- The circuit so far, the statements that are being worked on (innermost first), and what linking needs. -/
structure Workspace where
  circuit : Circuit
  drafts : List Draft
  symbols : Symbols
  next : Nat

abbrev SplitM := ReaderT SplitContext (ExceptT Error (StateM Workspace))

namespace SplitM

def options : SplitM Options := do return (← read).options

def symbols : SplitM Symbols := do return (← get).symbols

/-- The backend for a homomorphism. -/
def backend (h : Hom) : SplitM Backend := do return (← options).backend h

/-! ## The circuit -/

def circuit : SplitM Circuit := do return (← get).circuit

def modifyCircuit (f : Circuit → Circuit) : SplitM Unit :=
  modify fun s => { s with circuit := f s.circuit }

/-- Add a statement to the circuit. -/
def emit (s : CircuitStmt) : SplitM Unit := modifyCircuit fun c => { c with body := c.body ++ [s] }

def comment (text : String) : SplitM Unit := emit (.comment text)

/-- Put what an activity adds to the circuit into a block. -/
def indented {α : Type} (name : String) (activity : SplitM α) : SplitM α := do
  let start := (← circuit).body.length
  let a ← activity
  modifyCircuit fun c => { c with body := c.body.take start ++ [.block name (c.body.drop start)] }
  return a

/-- Put what an activity adds to the circuit under a guard. -/
def guarded {α : Type} (cond : CircuitVar) (holds : Bool) (activity : SplitM α) : SplitM α := do
  emit (.openGuard cond holds)
  let a ← activity
  emit .closeGuard
  return a

def freshSecret (t : Ty) (suffix : String) : SplitM CircuitVar := do
  let (v, secrets) := (← circuit).secrets.fresh t none suffix
  modifyCircuit fun c => { c with secrets }
  return v

def addSecret (name : String) (t : Ty) : SplitM CircuitVar := do
  let (v, secrets) := (← circuit).secrets.add name t none
  modifyCircuit fun c => { c with secrets }
  return v

def freshTemporary (t : Ty) (source : Expr) (suffix : String) : SplitM CircuitVar := do
  let (v, temporaries) := (← circuit).temporaries.fresh t (some source) suffix
  modifyCircuit fun c => { c with temporaries }
  return v

def freshInput (t : Ty) (source : Option Expr) (suffix : String) : SplitM CircuitVar := do
  let (v, inputs) := (← circuit).inputs.fresh t source suffix
  modifyCircuit fun c => { c with inputs }
  return v

def addInput (name : String) (t : Ty) : SplitM CircuitVar := do
  let (v, inputs) := (← circuit).inputs.add name t none
  modifyCircuit fun c => { c with inputs }
  return v

def freshOutput (t : Ty) (source : Expr) (suffix : String) : SplitM CircuitVar := do
  let (v, outputs) := (← circuit).outputs.fresh t (some source) suffix
  modifyCircuit fun c => { c with outputs }
  return v

/-! ## Versions -/

def versions : SplitM Versions := do return (← circuit).versions

def setVersions (vs : Versions) : SplitM Unit := modifyCircuit fun c => { c with versions := vs }

/-- Record a new version of a variable. -/
def setVersion (x : Variable) (v : CircuitVar) : SplitM Unit := do setVersions ((← versions).set x v)

/-- Variables that were written in public code have no version in the circuit any more. -/
def forgetAll (xs : List Variable) : SplitM Unit := do
  setVersions (xs.foldl Versions.forget (← versions))

/-! ## The history -/

/-- Add a step to the history. -/
def record (s : Step) : SplitM Unit := modifyCircuit fun c => { c with history := c.history ++ [s] }

/-- Record an event. -/
def note (e : Event) : SplitM Unit := do
  let c ← circuit
  record (.moment ⟨e, c.guards, c.versions⟩)

/-- Take the steps of an activity out of the history. -/
def captured {α : Type} (activity : SplitM α) : SplitM (α × List Step) := do
  let start := (← circuit).history.length
  let a ← activity
  let steps := (← circuit).history.drop start
  modifyCircuit fun c => { c with history := c.history.take start }
  return (a, steps)

/-- Record the steps of an activity as one. -/
def grouped {α : Type} (step : List Step → Step) (activity : SplitM α) : SplitM α := do
  let (a, steps) ← captured activity
  record (step steps)
  return a

/-- An activity that public code may pass over. -/
def optional {α : Type} (activity : SplitM α) : SplitM α := do
  let a ← grouped (.branches none · []) activity
  note .resume
  return a

/-- Take up versions that were recorded before. -/
def resume (vs : Versions) : SplitM Unit := do
  setVersions vs
  note .resume

/-- Public code writes variables that the circuit forgets. -/
def overwrite (xs : List Variable) : SplitM Unit := do
  forgetAll xs
  xs.forM fun x => note (.write x)

/-- Take back the versions that an activity records, except about the variables that are visible. -/
def inScope {α : Type} (isCall : Bool) (visible : Variable → Bool) (activity : SplitM α) : SplitM α := do
  let outer ← versions
  let (a, steps) ← captured activity
  let inner ← versions
  record (.scope isCall ((inner.entries.map (·.1)).filter visible) steps)
  resume (inner.leave outer visible)
  return a

/-! ## Drafts -/

/-- The statement that is being worked on. -/
def draft? : SplitM (Option Draft) := do return (← get).drafts.head?

def modifyDraft (f : Draft → Draft) : SplitM Unit := modify fun s =>
  { s with drafts := match s.drafts with
      | [] => []
      | d :: ds => f d :: ds }

/-- Have a statement carried out before the current one. -/
def precede (s : Stmt) : SplitM Unit := do
  match ← draft? with
  | none => throw .undefinedState
  | some _ => modifyDraft fun d => { d with before := d.before ++ [s] }

/-- The current statement reads differently now. -/
def restate (s : Stmt) : SplitM Unit := modifyDraft fun d => { d with stmt := some s }

/-- Put a node into the current statement in the place of the one with its number. -/
def put (e : Expr) : SplitM Expr := do
  if e.id != 0 then
    modifyDraft fun d => { d with stmt := d.stmt.map (Stmt.mapExprs e.revise) }
  return e

/-- Where the current statement stands, with the statement as it reads now. -/
def context : SplitM LinkContext := do
  match ← draft? with
  | some d => return { d.context with site := { d.context.site with stmt := d.stmt } }
  | none => throw .undefinedState

/-- What is known about labels before the current statement. -/
def knowledge : SplitM (Option Knowledge) := do
  return ((← draft?).bind Draft.stmt).bind fun s => s.info.before

/-- Work on a statement; the results are followed by the statements that have to precede it. -/
def working {α : Type} (c : LinkContext) (s : Option Stmt) (activity : SplitM α) : SplitM (α × List Stmt) := do
  modify fun w => { w with drafts := ⟨s, [], c⟩ :: w.drafts }
  let a ← activity
  match ← draft? with
  | none => throw .undefinedState
  | some d =>
    modify fun w => { w with drafts := w.drafts.drop 1 }
    return (a, d.before)

/-- Work on a statement and have what precedes it precede the outer one. -/
def within {α : Type} (c : LinkContext) (s : Stmt) (activity : SplitM α) : SplitM α := do
  let (a, before) ← working c (some s) activity
  modifyDraft fun d => { d with before := d.before ++ before }
  return a

/-! ## Linking -/

/-- Link something with the declarations known so far. -/
def linking {α : Type} (x : LinkM α) : SplitM α := do
  let s ← get
  match x.run ⟨s.symbols, s.next⟩ with
  | .ok (a, l) =>
    set { s with symbols := l.symbols, next := l.next }
    return a
  | .error e => throw e

/-- Resolve the names of an expression from where the current statement stands. -/
def relink (e : Expr) : SplitM Expr := do linking (e.link (← context))

def fresh : SplitM Nat := linking LinkM.fresh

end SplitM

end Shroud
