import Shroud.Syntax.Basic

/-!
# Building and reading expressions

Constructors for nodes that have no position yet, and the accessors shared by all later modules.

**Labels.** `Expr.label?` reads an expression as the owner of a value. Only the two owner keywords and
names of declarations are owners; the key label of a mapping is an owner once it has been resolved.
-/

namespace Shroud

/-- A node made by the compiler: no number, no position, no type. -/
def Info.synthetic : Info := ⟨0, .unknown, none, false, false⟩

instance : Inhabited Info := ⟨.synthetic⟩

/-- A node of the program with its number. -/
def Info.numbered (id : Nat) : Info := { Info.synthetic with id := id }

namespace Expr

instance : Inhabited Expr := ⟨.all .synthetic⟩

def info : Expr → Info
  | .operator i _ _ _ _ | .call i _ _ _ _ | .new i _ | .cast i _ _ _ | .boolLit i _
  | .numLit i _ _ | .arrayLit i _ _ | .tuple i _ | .ident i _ _ | .member i _ _ _
  | .index i _ _ _ | .me i | .all i | .reclassify i _ _ _ _ => i

def mapInfo (f : Info → Info) : Expr → Expr
  | .operator i o p h r => .operator (f i) o p h r
  | .call i g as o k => .call (f i) g as o k
  | .new i as => .new (f i) as
  | .cast i t e b => .cast (f i) t e b
  | .boolLit i v => .boolLit (f i) v
  | .numLit i v h => .numLit (f i) v h
  | .arrayLit i vs k => .arrayLit (f i) vs k
  | .tuple i es => .tuple (f i) es
  | .ident i n t => .ident (f i) n t
  | .member i e n t => .member (f i) e n t
  | .index i e k t => .index (f i) e k t
  | .me i => .me (f i)
  | .all i => .all (f i)
  | .reclassify i m e p h => .reclassify (f i) m e p h

/-- The number of the node. -/
def id (e : Expr) : Nat := e.info.id

def pos (e : Expr) : Pos := e.info.pos

/-- The type found for the expression. -/
def type? (e : Expr) : Option AnnTy := e.info.type

def withType (e : Expr) (t : AnnTy) : Expr := e.mapInfo fun i => { i with type := some t }

def withPos (e : Expr) (p : Pos) : Expr := e.mapInfo fun i => { i with pos := p }

/-- A name, a member or an element: something that can be assigned to. -/
def isLocation : Expr → Bool
  | .ident .. | .member .. | .index .. => true
  | _ => false

def isMe : Expr → Bool
  | .me _ => true
  | _ => false

def isAll : Expr → Bool
  | .all _ => true
  | _ => false

/-- The name that the expression consists of. -/
def name? : Expr → Option String
  | .ident _ (.plain n) _ => some n
  | .ident _ (.circuit v) _ => some v.name
  | _ => none

/-- What a location leads to. -/
def target? : Expr → Option Ref
  | .ident _ _ t | .member _ _ _ t | .index _ _ _ t => t
  | _ => none

/-- A call that converts its argument to a type. -/
def isCastCall : Expr → Bool
  | .call _ f _ _ _ => f.isLocation && (f.target?.map Ref.isCastTarget).getD false
  | _ => false

end Expr

namespace Ident

def name : Ident → String
  | .plain n => n
  | .circuit v => v.name

/-- The circuit variable, if it is one. -/
def circuit? : Ident → Option CircuitVar
  | .plain _ => none
  | .circuit v => some v

end Ident

/-- The expression read as the owner of a value. -/
def Expr.label? : Expr → Option Label
  | .ident _ _ (some (.keyLabel _ owner)) => owner.map (·.1)
  | .ident _ n (some (.decl k d)) => some (.var k d n.name)
  | .me _ => some .me
  | .all _ => some .all
  | _ => none

namespace AnnTy

/-- A type without owner, which everybody can see. -/
def plain (t : Ty) : AnnTy := ⟨t, .all .synthetic, .nonHomomorphic, false, none⟩

/-- A type with an owner that is written down. -/
def owned (t : Ty) (privacy : Expr) (hom : Hom) : AnnTy := ⟨t, privacy, hom, true, none⟩

instance : Inhabited AnnTy := ⟨.plain .bool⟩

def isPublic (t : AnnTy) : Bool := t.privacy.isAll

def isPrivate (t : AnnTy) : Bool := !t.isPublic

/-- The type in the source program. -/
def sourceType (t : AnnTy) : AnnTy := t.declared.getD t

/-- The same type under another homomorphism, written out in full. -/
def withHom (t : AnnTy) (h : Hom) : AnnTy := .owned t.type t.privacy h

def uint : Ty := .integer false .full

/-- A public unsigned integer. -/
def publicUint : AnnTy := .plain uint

/-- A public truth value. -/
def publicBool : AnnTy := .plain .bool

/-- A public address. -/
def publicAddress : AnnTy := .plain (.address false)

end AnnTy

namespace Expr

/-- The keyword for the sender. -/
def meLabel : Expr := .me .synthetic

/-- The keyword for everybody. -/
def allLabel : Expr := .all .synthetic

/-- A literal has its type from the start. -/
def literal (v : Int) : Expr :=
  .numLit { Info.synthetic with type := some (.plain (.numLit v)) } v false

def boolLiteral (v : Bool) : Expr :=
  .boolLit { Info.synthetic with type := some (.plain (.boolLit v)) } v

/-- A name that is not resolved yet. -/
def name (s : String) : Expr := .ident .synthetic (.plain s) none

/-- Apply an operator. -/
def applyOp (op : Op) (args : List Expr) : Expr :=
  .call .synthetic (.operator .synthetic op false .nonHomomorphic none) args 0 none

/-- A member that is not resolved yet. -/
def dot (e : Expr) (member : String) : Expr := .member .synthetic e (.plain member) none

/-- The owner of a label as an expression. -/
def ofLabel : Label → Expr
  | .me => meLabel
  | .all => allLabel
  | .var k d n =>
    .ident { Info.synthetic with type := some .publicAddress } (.plain n) (some (.decl k d))

/-- The expression is an operator call; its operator and arguments. -/
def operatorCall? : Expr → Option (Op × List Expr)
  | .call _ (.operator _ op _ _ _) args _ _ => some (op, args)
  | _ => none

end Expr

/-- A block without marks. -/
def Block.ofStmts (stmts : List Stmt) : Block := ⟨default, stmts, false⟩

instance : Inhabited Block := ⟨.ofStmts []⟩

namespace Stmt

/-- What the statement carries; comments carry nothing. -/
def info? : Stmt → Option StmtInfo
  | .ifThen i _ _ _ | .whileLoop i _ _ | .doWhile i _ _ | .forLoop i _ _ _ _ | .breakLoop i
  | .continueLoop i | .ret i _ | .eval i _ | .require i _ | .assign i _ _ _ _ | .declare i _ _
  | .seq i _ _ | .compute i _ | .enterKey i _ => some i
  | .block b => some b.info
  | .comment _ | .blank => none

def info (s : Stmt) : StmtInfo := s.info?.getD default

def mapInfo (f : StmtInfo → StmtInfo) : Stmt → Stmt
  | .ifThen i c t e => .ifThen (f i) c t e
  | .whileLoop i c b => .whileLoop (f i) c b
  | .doWhile i b c => .doWhile (f i) b c
  | .forLoop i a c u b => .forLoop (f i) a c u b
  | .breakLoop i => .breakLoop (f i)
  | .continueLoop i => .continueLoop (f i)
  | .ret i e => .ret (f i) e
  | .eval i e => .eval (f i) e
  | .require i e => .require (f i) e
  | .assign i l r o b => .assign (f i) l r o b
  | .declare i v e => .declare (f i) v e
  | .block b => .block { b with info := f b.info }
  | .seq i ss x => .seq (f i) ss x
  | .compute i v => .compute (f i) v
  | .enterKey i b => .enterKey (f i) b
  | .comment t => .comment t
  | .blank => .blank

def pos (s : Stmt) : Pos := s.info.pos

/-- Assign without a compound operator. -/
def set (lhs rhs : Expr) : Stmt := .assign default lhs rhs "" false

end Stmt

namespace FunctionDef

/-- The name, with the one all constructors share. -/
def title (f : FunctionDef) : String := f.name.getD "constructor"

def isConstructor (f : FunctionDef) : Bool := f.name.isNone

/-- Functions that do not promise to leave the state alone. -/
def hasSideEffects (f : FunctionDef) : Bool :=
  !(f.modifiers.contains "pure" || f.modifiers.contains "view")

/-- Functions that can be called from outside the contract. -/
def canBeExternal (f : FunctionDef) : Bool :=
  !(f.modifiers.contains "private" || f.modifiers.contains "internal")

def isPayable (f : FunctionDef) : Bool := f.modifiers.contains "payable"

end FunctionDef

namespace Contract

/-- Constructors first, then functions: the order in which bodies are visited. -/
def allFunctions (c : Contract) : List FunctionDef := c.constructors ++ c.functions

/-- The state variables without the comments between them. -/
def stateVars (c : Contract) : List StateVar := c.state.filterMap fun
  | .var v => some v
  | _ => none

end Contract

namespace SourceUnit

def allFunctions (u : SourceUnit) : List FunctionDef := u.contracts.flatMap (·.allFunctions)

end SourceUnit

end Shroud
