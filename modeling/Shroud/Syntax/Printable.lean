import Shroud.Syntax.Node
import Shroud.Syntax.Printer

/-!
# Programs with a written form

Function types cannot be written down, and so neither can anything that shows one: a type that mentions it,
an expression that names such a type, a statement around that expression. What is not shown does not
matter: the type of an implicit cast, the data behind a ciphertext, the expanded side of a compound
assignment.
-/

namespace Shroud

mutual

/-- The type has a written form. -/
def Ty.isPrintable : Ty → Bool
  | .function _ _ _ => false
  | .mapping _ k _ v => k.isPrintable && v.isPrintable
  | .array v none => v.isPrintable
  | .array v (some n) => v.isPrintable && n.isPrintable
  | .tuple ts => AnnTy.arePrintable ts
  | _ => true

def AnnTy.isPrintable : AnnTy → Bool
  | ⟨t, p, _, annotated, _⟩ => t.isPrintable && (!annotated || p.isPrintable)

def AnnTy.arePrintable : List AnnTy → Bool
  | [] => true
  | t :: ts => t.isPrintable && AnnTy.arePrintable ts

/-- The type that an expression is written with has a written form. -/
def Info.typeIsPrintable : Info → Bool
  | ⟨_, _, some t, _, _⟩ => t.isPrintable
  | ⟨_, _, none, _, _⟩ => true

/-- The expression has a written form. -/
def Expr.isPrintable : Expr → Bool
  | .call _ f as _ _ => f.isPrintable && Expr.arePrintable as
  | .new i as => i.typeIsPrintable && Expr.arePrintable as
  | .cast _ t e implicit => e.isPrintable && (implicit || t.isPrintable)
  | .arrayLit _ es _ => Expr.arePrintable es
  | .tuple _ es => Expr.arePrintable es
  | .member _ e _ _ => e.isPrintable
  | .index _ e k _ => e.isPrintable && k.isPrintable
  | .reclassify _ form e p _ => e.isPrintable && (form == .rehom || p.isPrintable)
  | _ => true

def Expr.arePrintable : List Expr → Bool
  | [] => true
  | e :: es => e.isPrintable && Expr.arePrintable es

end

def LocalVar.isPrintable (v : LocalVar) : Bool := v.type.isPrintable

def Param.isPrintable (p : Param) : Bool := p.type.isPrintable

/-- The shown sides of an assignment have a written form. -/
def assignIsPrintable (lhs rhs : Expr) (op : String) : Bool :=
  let op := if (lhs.type?.map AnnTy.isPrivate).getD false then "" else op
  lhs.isPrintable && (Text.startsWith "pre" op || Text.startsWith "post" op ||
    (if op = "" then rhs else compoundOperand rhs).isPrintable)

mutual

/-- The statement has a written form. -/
def Stmt.isPrintable : Stmt → Bool
  | .ifThen _ c t none => c.isPrintable && t.isPrintable
  | .ifThen _ c t (some e) => c.isPrintable && t.isPrintable && e.isPrintable
  | .whileLoop _ c b => c.isPrintable && b.isPrintable
  | .doWhile _ b c => b.isPrintable && c.isPrintable
  | .forLoop _ init c update b =>
    let first := match init with
      | none => true
      | some s => s.isPrintable
    let last := match update with
      | none => true
      | some s => s.isPrintable
    first && c.isPrintable && last && b.isPrintable
  | .ret _ e => (e.map Expr.isPrintable).getD true
  | .eval _ e | .require _ e => e.isPrintable
  | .assign _ l r o _ => assignIsPrintable l r o
  | .declare _ v e => v.isPrintable && (e.map Expr.isPrintable).getD true
  | .block b => b.isPrintable
  | .seq _ ss _ => Stmt.arePrintable ss
  | _ => true

def Block.isPrintable : Block → Bool
  | ⟨_, ss, _⟩ => Stmt.arePrintable ss

def Stmt.arePrintable : List Stmt → Bool
  | [] => true
  | s :: ss => s.isPrintable && Stmt.arePrintable ss

end

def StateVar.isPrintable (v : StateVar) : Bool :=
  v.type.isPrintable && (v.init.map Expr.isPrintable).getD true

def StateItem.isPrintable : StateItem → Bool
  | .var v => v.isPrintable
  | _ => true

def StructDef.isPrintable (s : StructDef) : Bool := s.members.all LocalVar.isPrintable

def FunctionDef.isPrintable (f : FunctionDef) : Bool :=
  f.params.all Param.isPrintable && f.returns.all Param.isPrintable && f.body.isPrintable

def Contract.isPrintable (c : Contract) : Bool :=
  c.structs.all StructDef.isPrintable && c.state.all StateItem.isPrintable &&
    c.allFunctions.all FunctionDef.isPrintable

def SourceUnit.isPrintable (u : SourceUnit) : Bool := u.contracts.all Contract.isPrintable

namespace Node

def isPrintable : Node → Bool
  | .unit u => u.isPrintable
  | .contract c => c.isPrintable
  | .function f => f.isPrintable
  | .struct s => s.isPrintable
  | .stateVar v => v.isPrintable
  | .localVar v => v.isPrintable
  | .param p => p.isPrintable
  | .stmt s => s.isPrintable
  | .expr e => e.isPrintable
  | .ty t => t.isPrintable
  | .annTy t => t.isPrintable
  | .enum _ | .enumValue _ | .ident _ => true

/-- The written form of a node; circuit directives have none. -/
def code? (s : Style) : Node → Option String
  | .unit u => some (u.code s)
  | .contract c => some (c.code s)
  | .function f => some (f.code s)
  | .struct d => some (d.code s)
  | .enum e => some (e.code s)
  | .enumValue v => some v.name
  | .stateVar v => some (v.code s)
  | .localVar v => some (v.code s)
  | .param p => some (p.code s)
  | .stmt x => x.code? s
  | .expr e => some e.code
  | .ty t => some t.code
  | .annTy t => some t.code
  | .ident n => some n.name

/-- The written form in messages and reports. -/
def code (n : Node) : String := (n.code? .default).getD "None"

/-- The node with the nodes below it. -/
def all : Node → List Node
  | .unit u => u.nodes
  | .contract c => c.nodes
  | .function f => f.nodes
  | .struct s => s.nodes
  | .enum e => e.nodes
  | .enumValue v => [.enumValue v, .name v.name]
  | .stateVar v => (StateItem.var v).nodes
  | .localVar v => v.nodes
  | .param p => p.nodes
  | .stmt s => s.nodes
  | .expr e => e.nodes
  | .ty t => t.nodes
  | .annTy t => t.nodes
  | .ident n => [.ident n]

end Node

end Shroud
