import Shroud.Type.Basic

/-!
# Nodes of a program

A program seen as a tree of nodes of all sorts, listed in the order in which they are written. Reports name
nodes by their kind and number them by their place in this list.

The types found for expressions are not part of the tree; declared types, owners and names are. The parts of
a tuple type do not count as nodes, since such a type is never written.
-/

namespace Shroud

/-- One node with everything below it. -/
inductive Node where
  | unit (u : SourceUnit)
  | contract (c : Contract)
  | function (f : FunctionDef)
  | struct (s : StructDef)
  | enum (e : EnumDef)
  | enumValue (v : EnumValue)
  | stateVar (v : StateVar)
  | localVar (v : LocalVar)
  | param (p : Param)
  | stmt (s : Stmt)
  | expr (e : Expr)
  | ty (t : Ty)
  | annTy (t : AnnTy)
  | ident (n : Ident)

def NamedSort.kind : NamedSort → String
  | .user => "UserDefinedTypeName"
  | .enum => "EnumTypeName"
  | .enumValue => "EnumValueTypeName"
  | .struct => "StructTypeName"
  | .contract => "ContractTypeName"

def Ty.kind : Ty → String
  | .elementary _ => "ElementaryTypeName"
  | .bool => "BoolTypeName"
  | .boolLit _ => "BooleanLiteralType"
  | .number => "NumberTypeName"
  | .numLit _ => "NumberLiteralType"
  | .integer s _ => if s then "IntTypeName" else "UintTypeName"
  | .named s _ _ => s.kind
  | .address p => if p then "AddressPayableTypeName" else "AddressTypeName"
  | .mapping .. => "Mapping"
  | .array .. => "Array"
  | .cipher .. => "CipherText"
  | .publicKey _ => "Key"
  | .randomness _ => "Randomness"
  | .tuple _ => "TupleType"
  | .function .. => "FunctionTypeName"

def Expr.kind : Expr → String
  | .operator .. => "BuiltinFunction"
  | .call .. => "FunctionCallExpr"
  | .new .. => "NewExpr"
  | .cast .. => "PrimitiveCastExpr"
  | .boolLit .. => "BooleanLiteralExpr"
  | .numLit .. => "NumberLiteralExpr"
  | .arrayLit _ _ isKey => if isKey then "KeyLiteralExpr" else "ArrayLiteralExpr"
  | .tuple .. => "TupleExpr"
  | .ident .. => "IdentifierExpr"
  | .member .. => "MemberAccessExpr"
  | .index .. => "IndexExpr"
  | .me _ => "MeExpr"
  | .all _ => "AllExpr"
  | .reclassify _ form _ _ _ =>
    match form with
    | .reveal => "ReclassifyExpr"
    | .rehom => "RehomExpr"
    | .encrypt => "EncryptionExpression"

def Stmt.kind : Stmt → String
  | .ifThen .. => "IfStatement"
  | .whileLoop .. => "WhileStatement"
  | .doWhile .. => "DoWhileStatement"
  | .forLoop .. => "ForStatement"
  | .breakLoop _ => "BreakStatement"
  | .continueLoop _ => "ContinueStatement"
  | .ret .. => "ReturnStatement"
  | .eval .. => "ExpressionStatement"
  | .require .. => "RequireStatement"
  | .assign _ _ _ _ isInput => if isInput then "CircuitInputStatement" else "AssignmentStatement"
  | .declare .. => "VariableDeclarationStatement"
  | .block _ => "Block"
  | .seq .. => "StatementList"
  | .compute .. => "CircuitComputationStatement"
  | .enterKey .. => "EnterPrivateKeyStatement"
  | .comment _ => "Comment"
  | .blank => "BlankLine"

def DeclKind.kind : DeclKind → String
  | .stateVar => "StateVariableDeclaration"
  | .parameter => "Parameter"
  | .localVar => "VariableDeclaration"
  | .function => "ConstructorOrFunctionDefinition"
  | .struct => "StructDefinition"
  | .enum => "EnumDefinition"
  | .enumValue => "EnumValue"
  | .contract => "ContractDefinition"

/-- The kind of what a reference leads to. -/
def Ref.kind : Ref → String
  | .decl k _ => k.kind
  | .element .. => DeclKind.localVar.kind
  | .keyLabel .. => "Mapping"

namespace Node

def kind : Node → String
  | .unit _ => "SourceUnit"
  | .contract _ => DeclKind.contract.kind
  | .function _ => DeclKind.function.kind
  | .struct _ => DeclKind.struct.kind
  | .enum _ => DeclKind.enum.kind
  | .enumValue _ => DeclKind.enumValue.kind
  | .stateVar _ => DeclKind.stateVar.kind
  | .localVar _ => DeclKind.localVar.kind
  | .param _ => DeclKind.parameter.kind
  | .stmt s => s.kind
  | .expr e => e.kind
  | .ty t => t.kind
  | .annTy _ => "AnnotatedTypeName"
  | .ident n => if n.circuit?.isSome then "HybridArgumentIdf" else "Identifier"

/-- The number of the declaration or mapping that the node is. -/
def declId? : Node → Option Nat
  | .contract c => some c.id
  | .function f => some f.id
  | .struct s => some s.id
  | .enum e => some e.id
  | .enumValue v => some v.id
  | .stateVar v => some v.id
  | .localVar v => some v.id
  | .param p => some p.id
  | .ty (.mapping i _ _ _) => some i
  | _ => none

def name (s : String) : Node := .ident (.plain s)

end Node

/-- A backend's array has word elements and a literal length. -/
def cryptoArrayNodes (length : Option Nat) : List Node :=
  [.annTy .publicUint, .ty AnnTy.uint, .expr .allLabel] ++
    (length.map fun n => Node.expr (.literal n)).toList

mutual

def Ty.nodes : Ty → List Node
  | .mapping i k l v =>
    .ty (.mapping i k l v) :: k.nodes ++ (l.map Node.name).toList ++ v.nodes
  | .array v none => .ty (.array v none) :: v.nodes
  | .array v (some n) => .ty (.array v (some n)) :: v.nodes ++ n.nodes
  | .function ps ms rs => .ty (.function ps ms rs) :: Param.nodesAll ps ++ Param.nodesAll rs
  | .cipher p b => .ty (.cipher p b) :: cryptoArrayNodes (Ty.cryptoLen (.cipher p b))
  | .publicKey b => .ty (.publicKey b) :: cryptoArrayNodes (Ty.cryptoLen (.publicKey b))
  | .randomness b => .ty (.randomness b) :: cryptoArrayNodes (Ty.cryptoLen (.randomness b))
  | t => [.ty t]

def AnnTy.nodes : AnnTy → List Node
  | ⟨t, p, h, a, d⟩ => .annTy ⟨t, p, h, a, d⟩ :: t.nodes ++ p.nodes

def Param.nodes : Param → List Node
  | ⟨i, k, t, n, s, o⟩ => .param ⟨i, k, t, n, s, o⟩ :: t.nodes ++ (n.map Node.name).toList

def Param.nodesAll : List Param → List Node
  | [] => []
  | p :: ps => p.nodes ++ Param.nodesAll ps

def Info.typeNodes : Info → List Node
  | ⟨_, _, some t, _, _⟩ => t.nodes
  | ⟨_, _, none, _, _⟩ => []

def Expr.nodes : Expr → List Node
  | .call i f as o k => .expr (.call i f as o k) :: f.nodes ++ Expr.nodesAll as
  | .new i as => .expr (.new i as) :: i.typeNodes ++ Expr.nodesAll as
  | .cast i t e b => .expr (.cast i t e b) :: t.nodes ++ e.nodes
  | .arrayLit i vs k => .expr (.arrayLit i vs k) :: Expr.nodesAll vs
  | .tuple i es => .expr (.tuple i es) :: Expr.nodesAll es
  | .ident i n t => [.expr (.ident i n t), .ident n]
  | .member i e n t => .expr (.member i e n t) :: e.nodes ++ [.ident n]
  | .index i e k t => .expr (.index i e k t) :: e.nodes ++ k.nodes
  | .reclassify i m e p h => .expr (.reclassify i m e p h) :: e.nodes ++ p.nodes
  | e => [.expr e]

def Expr.nodesAll : List Expr → List Node
  | [] => []
  | e :: es => e.nodes ++ Expr.nodesAll es

end

def LocalVar.nodes (v : LocalVar) : List Node := .localVar v :: v.type.nodes ++ [.name v.name]

/-- Nodes of an optional expression. -/
def Expr.nodes? (e : Option Expr) : List Node := (e.map Expr.nodes).getD []

mutual

def Stmt.nodes : Stmt → List Node
  | .ifThen i c t none => .stmt (.ifThen i c t none) :: c.nodes ++ t.nodes
  | .ifThen i c t (some e) => .stmt (.ifThen i c t (some e)) :: c.nodes ++ t.nodes ++ e.nodes
  | .whileLoop i c b => .stmt (.whileLoop i c b) :: c.nodes ++ b.nodes
  | .doWhile i b c => .stmt (.doWhile i b c) :: b.nodes ++ c.nodes
  | .forLoop i a c u b =>
    let first := match a with
      | none => []
      | some s => s.nodes
    let last := match u with
      | none => []
      | some s => s.nodes
    .stmt (.forLoop i a c u b) :: first ++ c.nodes ++ last ++ b.nodes
  | .ret i e => .stmt (.ret i e) :: Expr.nodes? e
  | .eval i e => .stmt (.eval i e) :: e.nodes
  | .require i c => .stmt (.require i c) :: c.nodes
  | .assign i l r o b => .stmt (.assign i l r o b) :: l.nodes ++ r.nodes
  | .declare i v e => .stmt (.declare i v e) :: v.nodes ++ Expr.nodes? e
  | .block b => b.nodes
  | .seq i ss x => .stmt (.seq i ss x) :: Stmt.nodesAll ss
  | s => [.stmt s]

def Block.nodes : Block → List Node
  | ⟨i, ss, b⟩ => .stmt (.block ⟨i, ss, b⟩) :: Stmt.nodesAll ss

def Stmt.nodesAll : List Stmt → List Node
  | [] => []
  | s :: ss => s.nodes ++ Stmt.nodesAll ss

end

def FunctionDef.nodes (f : FunctionDef) : List Node :=
  .function f :: (f.name.map Node.name).toList ++ Param.nodesAll f.params ++
    Param.nodesAll f.returns ++ f.body.nodes

def StateItem.nodes : StateItem → List Node
  | .var v => .stateVar v :: v.type.nodes ++ [.name v.name] ++ Expr.nodes? v.init
  | .comment t => [.stmt (.comment t)]
  | .blank => [.stmt .blank]

def EnumDef.nodes (e : EnumDef) : List Node :=
  .enum e :: .name e.name :: e.values.flatMap fun v => [.enumValue v, .name v.name]

def StructDef.nodes (s : StructDef) : List Node :=
  .struct s :: .name s.name :: s.members.flatMap LocalVar.nodes

def Contract.nodes (c : Contract) : List Node :=
  .contract c :: .name c.name :: c.enums.flatMap EnumDef.nodes ++ c.structs.flatMap StructDef.nodes ++
    c.state.flatMap StateItem.nodes ++ c.constructors.flatMap FunctionDef.nodes ++
    c.functions.flatMap FunctionDef.nodes

def SourceUnit.nodes (u : SourceUnit) : List Node := .unit u :: u.contracts.flatMap Contract.nodes

/-! ## Paths -/

/-- The nodes directly below an expression. -/
def Expr.parts : Expr → List Node
  | .call _ f as _ _ => .expr f :: as.map Node.expr
  | .new i as => (i.type.map Node.annTy).toList ++ as.map Node.expr
  | .cast _ t e _ => [.ty t, .expr e]
  | .arrayLit _ es _ | .tuple _ es => es.map Node.expr
  | .ident _ n _ => [.ident n]
  | .member _ e n _ => [.expr e, .ident n]
  | .index _ e k _ => [.expr e, .expr k]
  | .reclassify _ _ e p _ => [.expr e, .expr p]
  | _ => []

/-- The nodes directly below a statement. -/
def Stmt.parts : Stmt → List Node
  | .ifThen _ c t e => .expr c :: .stmt (.block t) :: (e.map fun b => Node.stmt (.block b)).toList
  | .whileLoop _ c b => [.expr c, .stmt (.block b)]
  | .doWhile _ b c => [.stmt (.block b), .expr c]
  | .forLoop _ a c u b =>
    (a.map Node.stmt).toList ++ [.expr c] ++ (u.map Node.stmt).toList ++ [.stmt (.block b)]
  | .ret _ e => (e.map Node.expr).toList
  | .eval _ e | .require _ e => [.expr e]
  | .assign _ l r _ _ => [.expr l, .expr r]
  | .declare _ v e => .localVar v :: (e.map Node.expr).toList
  | .block b => b.stmts.map Node.stmt
  | .seq _ ss _ => ss.map Node.stmt
  | _ => []

/-- The nodes directly below a type. -/
def Ty.parts : Ty → List Node
  | .mapping _ k l v => .ty k :: (l.map Node.name).toList ++ [.annTy v]
  | .array v n => .annTy v :: (n.map Node.expr).toList
  | .function ps _ rs => (ps ++ rs).map Node.param
  | t =>
    if t.isCryptoArray then .annTy .publicUint :: (t.cryptoLen.map fun n => Node.expr (.literal n)).toList
    else []

/-- The nodes directly below a node of a statement. -/
def Node.parts : Node → List Node
  | .stmt s => s.parts
  | .expr e => e.parts
  | .ty t => t.parts
  | .annTy t => [.ty t.type, .expr t.privacy]
  | .localVar v => [.annTy v.type, .name v.name]
  | .param p => .annTy p.type :: (p.name.map Node.name).toList
  | _ => []

/-- The node that a path of positions leads to. -/
def Node.below? (n : Node) : List Nat → Option Node
  | [] => some n
  | i :: path => n.parts[i]?.bind fun m => m.below? path

/-- The expression below a statement that a path of positions leads to. -/
def Stmt.exprBelow? (s : Stmt) (path : List Nat) : Option Expr :=
  match (Node.stmt s).below? path with
  | some (.expr e) => some e
  | _ => none

/-! ## Expressions below a node -/

/-- All expressions among the nodes. -/
def Node.exprs (ns : List Node) : List Expr := ns.filterMap fun
  | .expr e => some e
  | _ => none

/-- All statements among the nodes, comments left out. -/
def Node.stmts (ns : List Node) : List Stmt := ns.filterMap fun
  | .stmt (.comment _) | .stmt .blank => none
  | .stmt s => some s
  | _ => none

mutual

/-- An expression with the expressions below it, reached through expressions only. -/
def Expr.subexprs : Expr → List Expr
  | .call i f as o k => .call i f as o k :: f.subexprs ++ Expr.subexprsAll as
  | .new i as => .new i as :: Expr.subexprsAll as
  | .cast i t e b => .cast i t e b :: e.subexprs
  | .arrayLit i vs k => .arrayLit i vs k :: Expr.subexprsAll vs
  | .tuple i es => .tuple i es :: Expr.subexprsAll es
  | .member i e n t => .member i e n t :: e.subexprs
  | .index i e k t => .index i e k t :: e.subexprs ++ k.subexprs
  | .reclassify i m e p h => .reclassify i m e p h :: e.subexprs ++ p.subexprs
  | e => [e]

def Expr.subexprsAll : List Expr → List Expr
  | [] => []
  | e :: es => e.subexprs ++ Expr.subexprsAll es

end

/-- The locations that an assignment to the expression writes through: the expression itself, the parts of
a tuple, and what is indexed or accessed on the way. -/
def Expr.writtenThrough : Expr → List Nat
  | .ident i _ _ => [i.id]
  | .member i e _ _ => i.id :: e.writtenThrough
  | .index i e _ _ => i.id :: e.writtenThrough
  | .tuple i es => i.id :: writtenThroughAll es
  | _ => []
where
  writtenThroughAll : List Expr → List Nat
    | [] => []
    | e :: es => e.writtenThrough ++ writtenThroughAll es

end Shroud
