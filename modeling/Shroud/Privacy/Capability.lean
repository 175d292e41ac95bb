import Shroud.Analysis.CallGraph
import Shroud.Syntax.Traverse
import Shroud.Typing.Monad

/-!
# What a circuit can compute

A circuit has no loops and no side effects, and it knows only the operations on plain data. A function can
be evaluated in a circuit if its own code can and all functions that it calls can.
-/

namespace Shroud

/-- The compared or selected values of an operator have a type that circuits know. -/
def Op.operandsFitCircuit (op : Op) (args : List Expr) : Bool :=
  if op.isEquality || op == .ite then
    match args with
    | _ :: a :: _ => a.checkedType.type.canBePrivate
    | _ => true
  else true

mutual

/-- The expression can be evaluated in a circuit. Operators that are evaluated in a circuit anyway need no
check, and the callee of a call is looked at on its own. -/
def Expr.fitsCircuit : Expr → Bool
  | .call _ (.operator _ op isPrivate _ _) as _ _ =>
    (isPrivate || (op.canBePrivate && op.operandsFitCircuit as)) && Expr.fitCircuit as
  | .call _ _ as _ _ => Expr.fitCircuit as
  | .new _ as => Expr.fitCircuit as
  | .cast _ _ e _ => e.fitsCircuit
  | .arrayLit _ vs _ => Expr.fitCircuit vs
  | .tuple _ es => Expr.fitCircuit es
  | .ident i n t => (Expr.ident i n t).checkedType.type.canBePrivate
  | .member i e n t => (Expr.member i e n t).checkedType.type.canBePrivate && e.fitsCircuit
  | .index i e k t =>
    (Expr.index i e k t).checkedType.type.canBePrivate && e.fitsCircuit && k.fitsCircuit
  | .reclassify _ _ e _ _ => e.fitsCircuit
  | _ => true

def Expr.fitCircuit : List Expr → Bool
  | [] => true
  | e :: es => e.fitsCircuit && Expr.fitCircuit es

end

/-- The optional expression can be evaluated in a circuit. -/
def Expr.fitsCircuit? (e : Option Expr) : Bool := (e.map Expr.fitsCircuit).getD true

mutual

/-- The statement can be carried out in a circuit. -/
def Stmt.fitsCircuit : Stmt → Bool
  | .ifThen _ c t none => c.fitsCircuit && t.fitsCircuit
  | .ifThen _ c t (some e) => c.fitsCircuit && t.fitsCircuit && e.fitsCircuit
  | .ret _ e => Expr.fitsCircuit? e
  | .assign _ l r _ _ => l.fitsCircuit && r.fitsCircuit
  | .declare _ _ e => Expr.fitsCircuit? e
  | .block b => b.fitsCircuit
  | .seq _ ss _ => Stmt.fitCircuit ss
  | .comment _ | .blank => true
  | _ => false

def Block.fitsCircuit : Block → Bool
  | ⟨_, ss, _⟩ => Stmt.fitCircuit ss

def Stmt.fitCircuit : List Stmt → Bool
  | [] => true
  | s :: ss => s.fitsCircuit && Stmt.fitCircuit ss

end

/-- Find out which functions can be evaluated in a circuit. The recorded calls of a function include the
indirect ones, so looking at each of them once is enough. -/
def SourceUnit.markCapable (u : SourceUnit) : SourceUnit :=
  let own := u.mapFacts fun _ f =>
    { f.facts with canBePrivate := f.facts.canBePrivate && f.body.fitsCircuit }
  let symbols := own.symbols
  own.mapFacts fun _ f =>
    { f.facts with
      canBePrivate := f.facts.canBePrivate && f.facts.calls.all fun g =>
        ((symbols.function? g).map (·.facts.canBePrivate)).getD true }

/-- Why a private expression cannot be part of a circuit: it calls a function with loops, or it needs an
operation that circuits do not have. -/
def Expr.inlineFault? (symbols : Symbols) (e : Expr) : Option Fault :=
  match e with
  | .call i f as _ _ =>
    if !i.privately || e.isCastCall then none
    else match f with
      | .operator _ op _ _ _ =>
        if (op.canBePrivate || e.checkedType.type.isLiteral) && op.operandsFitCircuit as then none
        else some .privateUnsupportedCall
      | f =>
        match symbols.callee? f with
        | some g =>
          if !g.facts.staticBody then some .privateLoopCall
          else if g.facts.canBePrivate then none else some .privateUnsupportedCall
        | none => none
  | _ => none

/-- All calls of the expression can be part of a circuit. -/
def Expr.isInlineable (symbols : Symbols) (e : Expr) : Bool :=
  (Node.exprs e.nodes).all fun x => (x.inlineFault? symbols).isNone

/-- Complain about the first private call that cannot be part of a circuit. -/
def SourceUnit.checkInlineable (u : SourceUnit) : Except Error Unit := do
  let symbols := u.symbols
  for c in u.contracts do
    for f in c.allFunctions do
      for (s, e) in f.body.subexprsInPlace do
        match e.inlineFault? symbols with
        | none => pure ()
        | some fault => throw (Site.atExpr ⟨some u.text, some c.name, some f.title, some s⟩ e fault)

end Shroud
