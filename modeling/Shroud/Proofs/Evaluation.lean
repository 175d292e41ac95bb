import Mathlib.Logic.Function.Basic
import Shroud.Analysis.Effects

/-!
# Running programs

What the code of a program does to the state variables when it runs. The values and the operations on them are left
open (`Machine`), so that whatever is shown of runs holds for every choice of them.

**Storage.** State variables are known by their numbers. Every instance of a contract has variables of its own, so a
variable holds a value for every instance.

**Activations.** A call has its own parameters and local variables. Statements change them, expressions do not.

**Limits.** A run may take any number of calls and rounds, but the bound is fixed beforehand: a run that would exceed it
fails, as one does in which an operation fails or a requirement is not met.

**What is left out.** Types are not evaluated, and variables are never references: a value that is assigned is copied.
The money that addresses own is no variable of the program.
-/

namespace Shroud

/-- The parameters and local variables of a call, and the instance it works for. -/
structure Activation (V : Type) where
  self : V
  vars : Nat → Option V

/-- The values of the state variables, for every instance. -/
abbrev Storage (V : Type) := Nat → V → V

/-- An activity that may fail and may change the storage. -/
abbrev Act (V α : Type) := StateT (Storage V) Option α

/-- The values of programs and the operations on them. -/
structure Machine (V : Type) where
  /-- The value of an expression without parts that is not a variable. -/
  constant : Expr → V
  /-- The value of an expression from those of its parts. -/
  combine : Expr → List V → Option V
  /-- The condition is met. -/
  holds : V → Bool
  /-- The value of a variable after the part that the keys lead to was replaced. -/
  put : Expr → List V → V → V → Option V
  /-- The components of a value that is assigned to so many places at once. -/
  split : Nat → V → Option (List V)
  /-- The value of a variable that is declared without one. -/
  initial : AnnTy → V
  /-- The result of a function that does not return a value explicitly. -/
  finish : FunctionDef → Activation V → Option V

/-- What code needs to run: the declarations, what calls do for an instance and arguments, and how many rounds a loop may
take. -/
structure Setting (V : Type) extends Machine V where
  symbols : Symbols
  calls : FunctionDef → V → List V → Act V V
  limit : Nat

variable {V α β : Type}

namespace Act

/-- Take the value of a computation that may fail. -/
def lift (x : Option α) : Act V α := fun σ => x.map fun a => (a, σ)

/-- The value of a state variable of an instance. -/
def fetch (x : Nat) (self : V) : Act V V := fun σ => some (σ x self, σ)

/-- Change a state variable of an instance. -/
def assign [DecidableEq V] (x : Nat) (self v : V) : Act V Unit :=
  fun σ => some ((), Function.update σ x (Function.update (σ x) self v))

/-- One activity after the other. -/
def inTurn : List (Act V α) → Act V (List α)
  | [] => return []
  | x :: xs => do
    let a ← x
    return a :: (← inTurn xs)

end Act

/-! ## Expressions -/

/-- The name of a contract, which stands for the current instance. -/
def Expr.isContractName (e : Expr) : Bool := e.target? matches some (.decl .contract _)

namespace Setting

variable (s : Setting V)

/-- Apply an operator; some operators choose which operands to evaluate. -/
def operate (e : Expr) : Op → List (Act V V) → Act V V
  | .and, [a, b] => do
    let v ← a
    if s.holds v then b else return v
  | .or, [a, b] => do
    let v ← a
    if s.holds v then return v else b
  | .ite, [c, a, b] => do
    let v ← c
    if s.holds v then a else b
  | _, operands => do Act.lift (s.combine e (← Act.inTurn operands))

/-- Call what a name leads to for an instance. -/
def perform (e f : Expr) (self : V) (args : List V) : Act V V :=
  if e.isCastCall then Act.lift (s.combine e args)
  else match s.symbols.callee? f with
    | some g => s.calls g self args
    | none => Act.lift (s.combine e (self :: args))

/-- The value of a name. -/
def name (φ : Activation V) (e : Expr) : Act V V :=
  match e.target? with
  | some (.decl .stateVar x) => Act.fetch x φ.self
  | some (.decl .localVar x) | some (.decl .parameter x) => Act.lift (φ.vars x)
  | _ => return s.constant e

end Setting

mutual

/-- The value of an expression. -/
def Expr.eval (s : Setting V) (φ : Activation V) : Expr → Act V V
  | .call i f as o k =>
    match f with
    | .operator _ op _ _ _ => s.operate (.call i f as o k) op (Expr.evals s φ as)
    | _ => do
      let self ← f.receiver s φ
      s.perform (.call i f as o k) f self (← Act.inTurn (Expr.evals s φ as))
  | .new i as => do Act.lift (s.combine (.new i as) (← Act.inTurn (Expr.evals s φ as)))
  | .cast i t e b => do Act.lift (s.combine (.cast i t e b) [← e.eval s φ])
  | .arrayLit i vs k => do Act.lift (s.combine (.arrayLit i vs k) (← Act.inTurn (Expr.evals s φ vs)))
  | .tuple i es => do Act.lift (s.combine (.tuple i es) (← Act.inTurn (Expr.evals s φ es)))
  | .ident i n t => s.name φ (.ident i n t)
  | .member i b n t =>
    match t with
    | some (.decl .stateVar x) => (if b.isContractName then pure φ.self else b.eval s φ) >>= Act.fetch x
    | _ => do Act.lift (s.combine (.member i b n t) [← b.eval s φ])
  | .index i b k t => do
    let v ← b.eval s φ
    Act.lift (s.combine (.index i b k t) [v, ← k.eval s φ])
  | .reclassify i m e p h => do
    let v ← e.eval s φ
    Act.lift (s.combine (.reclassify i m e p h) [v, ← p.eval s φ])
  | e => return s.constant e

/-- The instance that a call is made for. -/
def Expr.receiver (s : Setting V) (φ : Activation V) : Expr → Act V V
  | .member _ b _ _ => if b.isContractName then return φ.self else b.eval s φ
  | _ => return φ.self

def Expr.evals (s : Setting V) (φ : Activation V) : List Expr → List (Act V V)
  | [] => []
  | e :: es => e.eval s φ :: Expr.evals s φ es

end

mutual

/-- The keys on the way to each of the places that are assigned to. -/
def Expr.locate (s : Setting V) (φ : Activation V) : Expr → Act V (List (List V))
  | .member _ b _ _ => b.locate s φ
  | .index _ b k _ => do
    let places ← b.locate s φ
    let v ← k.eval s φ
    return places.map (· ++ [v])
  | .tuple _ es => do return (← Act.inTurn (Expr.locates s φ es)).flatten
  | _ => return [[]]

def Expr.locates (s : Setting V) (φ : Activation V) : List Expr → List (Act V (List (List V)))
  | [] => []
  | e :: es => e.locate s φ :: Expr.locates s φ es

end

/-- What happens when an operand is evaluated; `written` tells whether it is assigned to. -/
def Expr.run (s : Setting V) (φ : Activation V) (written : Bool) (e : Expr) : Act V (List (List V)) :=
  if written then e.locate s φ else do return [[← e.eval s φ]]

/-- The places that an assignment to the expression writes. -/
def Expr.assignees : Expr → List Expr
  | .tuple _ es => assigneesAll es
  | e => [e]
where
  assigneesAll : List Expr → List Expr
    | [] => []
    | e :: es => e.assignees ++ assigneesAll es

/-- The variable that a place is part of. -/
def Expr.root? : Expr → Option Ref
  | .member _ b _ _ | .index _ b _ _ => b.root?
  | e => e.target?

/-! ## Statements -/

/-- How control leaves a piece of code. -/
inductive Ending (V : Type) where
  | normal
  | broken
  | continued
  | returned (value : Option V)

/-- What a statement does. -/
abbrev Routine (V : Type) := Activation V → Act V (Ending V × Activation V)

namespace Routine

/-- Go on with the loop after a round, unless the round has left it. -/
def resume (next : Routine V) : Ending V × Activation V → Act V (Ending V × Activation V)
  | (.broken, φ) => return (.normal, φ)
  | (.returned v, φ) => return (.returned v, φ)
  | (_, φ) => next φ

/-- Rounds as long as the condition is met. -/
def rounds (test : Activation V → Act V Bool) (round : Routine V) : Nat → Routine V
  | 0, _ => failure
  | n + 1, φ => do
    if ← test φ then resume (rounds test round n) (← round φ)
    else return (.normal, φ)

/-- Code that is skipped if control has left the code before it. -/
def andThen (first next : Routine V) : Routine V := fun φ => do
  match ← first φ with
  | (.normal, ψ) => next ψ
  | r => return r

/-- The last part of a round, which also follows a jump to the next round. -/
def andFinally (round last : Routine V) : Routine V := fun φ => do
  match ← round φ with
  | (.normal, ψ) | (.continued, ψ) => last ψ
  | r => return r

end Routine

section Statements

variable [DecidableEq V] (s : Setting V)

/-- Assign a value to a place. -/
def Setting.store (place : Expr) (keys : List V) (v : V) (φ : Activation V) : Act V (Activation V) :=
  match place.root? with
  | some (.decl .stateVar x) => do
    let w ← Act.lift (s.put place keys (← Act.fetch x φ.self) v)
    Act.assign x φ.self w
    return φ
  | some (.decl .localVar x) | some (.decl .parameter x) => do
    let w ← Act.lift ((φ.vars x).bind fun old => s.put place keys old v)
    return { φ with vars := Function.update φ.vars x (some w) }
  | _ => failure

/-- Assign values to places, the first place first. -/
def Setting.storeAll : List (Expr × List V × V) → Activation V → Act V (Activation V)
  | [], φ => return φ
  | (place, keys, v) :: rest, φ => do storeAll rest (← s.store place keys v φ)

/-- The values that are assigned to the places of an expression. -/
def Setting.components (e : Expr) (v : V) : Option (List V) :=
  match e with
  | .tuple .. => s.split e.assignees.length v
  | _ => some [v]

/-- The condition is met. -/
def Expr.test (c : Expr) (φ : Activation V) : Act V Bool := do return s.holds (← c.eval s φ)

mutual

/-- Execute a statement. -/
def Stmt.exec : Stmt → Routine V
  | .ifThen _ c t e => fun φ => do
    if ← c.test s φ then t.exec φ
    else match e with
      | none => return (.normal, φ)
      | some e => e.exec φ
  | .whileLoop _ c b => Routine.rounds (c.test s) b.exec s.limit
  | .doWhile _ b c => fun φ => do Routine.resume (Routine.rounds (c.test s) b.exec s.limit) (← b.exec φ)
  | .forLoop _ a c u b =>
    let first : Routine V := match a with
      | none => fun φ => return (.normal, φ)
      | some a => a.exec
    let last : Routine V := match u with
      | none => fun φ => return (.normal, φ)
      | some u => u.exec
    first.andThen (Routine.rounds (c.test s) (Routine.andFinally b.exec last) s.limit)
  | .breakLoop _ => fun φ => return (.broken, φ)
  | .continueLoop _ => fun φ => return (.continued, φ)
  | .ret _ none => fun φ => return (.returned none, φ)
  | .ret _ (some e) => fun φ => do return (.returned (← e.eval s φ), φ)
  | .eval _ e => fun φ => do
    let _ ← e.eval s φ
    return (.normal, φ)
  | .require _ c => fun φ => do
    if ← c.test s φ then return (.normal, φ) else failure
  | .assign _ l r _ _ => fun φ => do
    let v ← r.eval s φ
    let places ← l.locate s φ
    let vs ← Act.lift (s.components l v)
    return (.normal, ← s.storeAll (l.assignees.zip (places.zip vs)) φ)
  | .declare _ v e => fun φ => do
    let w ← (match e with
      | none => pure (s.initial v.type)
      | some e => e.eval s φ : Act V V)
    return (.normal, { φ with vars := Function.update φ.vars v.id (some w) })
  | .block b => b.exec
  | .seq _ ss _ => Stmt.execAll ss
  | _ => fun φ => return (.normal, φ)

def Block.exec : Block → Routine V
  | ⟨_, ss, _⟩ => Stmt.execAll ss

def Stmt.execAll : List Stmt → Routine V
  | [] => fun φ => return (.normal, φ)
  | t :: ts => Routine.andThen t.exec (Stmt.execAll ts)

end

/-! ## Calls -/

/-- The variables of a call at its beginning: the parameters and what is returned. -/
def FunctionDef.enter (f : FunctionDef) (self : V) (args : List V) : Activation V :=
  ⟨self, fun x => (((f.params.map (·.id)).zip args) ++ f.returns.map fun r => (r.id, s.initial r.type)).lookup x⟩

/-- Execute the body of a function. -/
def FunctionDef.run (f : FunctionDef) (self : V) (args : List V) : Act V V := do
  match ← f.body.exec s (f.enter s self args) with
  | (.returned (some v), _) => return v
  | (_, φ) => Act.lift (s.finish f φ)

/-- Everything runs within the same limit: so many calls inside each other, and so many rounds of every loop. -/
def Machine.within (m : Machine V) (symbols : Symbols) : Nat → Setting V
  | 0 => ⟨m, symbols, fun _ _ _ => failure, 0⟩
  | n + 1 => ⟨m, symbols, FunctionDef.run (m.within symbols n), n + 1⟩

end Statements

end Shroud
