import Shroud.Backend
import Shroud.Operator
import Shroud.Partition
import Shroud.Text.Integer

/-!
# Programs

Types, expressions, statements and declarations of contracts with private state.

**Types and expressions refer to each other.** A type carries the expression that names its owner and
possibly an array length; an expression carries the type found for it. They form one family, together with
the circuit variables that generated code mentions.

**Identity.** Two declarations may look alike and still be different, so every declaration, mapping and
expression has a number of its own. A reference holds the kind and the number of the declaration it leads
to; what is known about the declaration stands in a symbol table.

**Marks.** The analyses write what they find into the tree: types and evaluation marks on expressions,
states of knowledge and accessed locations on statements, facts about calls on functions.
-/

namespace Shroud

/-- Position in the source text; `-1` is unknown. -/
structure Pos where
  line : Int
  column : Int
  deriving DecidableEq, Repr

/-- No position. -/
def Pos.unknown : Pos := ⟨-1, -1⟩

instance : Inhabited Pos := ⟨.unknown⟩

/-- What a declaration declares. -/
inductive DeclKind where
  | stateVar | parameter | localVar | function | struct | enum | enumValue | contract
  deriving DecidableEq, Repr, Inhabited

/-- The owner of a value: the sender, everybody, or the address in a declared variable. -/
inductive Label where
  | me
  | all
  | var (kind : DeclKind) (decl : Nat) (name : String)
  deriving DecidableEq, Repr, Inhabited

namespace Label

def name : Label → String
  | .me => "me"
  | .all => "all"
  | .var _ _ n => n

end Label

/-- What a name leads to. An `element` is what indexing `depth` times into the declaration `base` reaches;
it has a number of its own because two accesses need not reach the same place. A `keyLabel` stands for the
key of a mapping and is resolved once the mapping is indexed; it then remembers the key it came from. -/
inductive Ref where
  | decl (kind : DeclKind) (id : Nat)
  | element (base : Nat) (depth : Nat) (id : Nat)
  | keyLabel (mapping : Nat) (owner : Option (Label × Nat))
  deriving DecidableEq, Repr, Inhabited

namespace Ref

/-- The reference leads to a variable. -/
def isVariable : Ref → Bool
  | .decl .stateVar _ | .decl .parameter _ | .decl .localVar _ => true
  | .element _ _ _ => true
  | _ => false

/-- The reference leads to a type name that can be applied like a function. -/
def isCastTarget : Ref → Bool
  | .decl .contract _ | .decl .enum _ => true
  | _ => false

/-- The number of the declaration. -/
def id : Ref → Nat
  | .decl _ i => i
  | .element _ _ i => i
  | .keyLabel m _ => m

end Ref

/-- The width of an integer type: its digits as they are written, and the number of bits they stand for.
Widths are told apart by their digits. -/
structure Width where
  digits : String
  bits : Int
  deriving DecidableEq, Repr, Inhabited

namespace Width

/-- No digits stand for the full width. -/
def full : Width := ⟨"", 256⟩

/-- A number of bits written in the usual way. -/
def ofBits (n : Nat) : Width := ⟨toString n, n⟩

/-- Read the digits of a width; zero stands for the full width too. -/
def read? (digits : String) : Option Width :=
  if digits = "" then some full
  else (Text.integer? digits).map fun n => ⟨digits, if n = 0 then 256 else n⟩

end Width

/-- The sorts of types that are written as a dotted name. -/
inductive NamedSort where
  | user | enum | enumValue | struct | contract
  deriving DecidableEq, Repr, Inhabited

/-- A resolved type name: where it leads and the full name of that declaration. -/
structure NamedTarget where
  ref : Ref
  qualified : List String
  deriving DecidableEq, Repr, Inhabited

/-- The part a circuit variable plays. -/
inductive CircuitRole where
  | secretInput | publicArgument | contractValue | temporary
  deriving DecidableEq, Repr, Inhabited

def CircuitRole.name : CircuitRole → String
  | .secretInput => "PRIV_CIRCUIT_VAL"
  | .publicArgument => "PUB_CIRCUIT_ARG"
  | .contractValue => "PUB_CONTRACT_VAL"
  | .temporary => "TMP_CIRCUIT_VAL"

def CircuitRole.ofName? (s : String) : Option CircuitRole :=
  [CircuitRole.secretInput, .publicArgument, .contractValue, .temporary].find? (·.name == s)

/-- How a value is handed to another owner: by revealing it, by re-encrypting it under another
homomorphism, or by encrypting it explicitly. -/
inductive ReclassifyForm where
  | reveal | rehom | encrypt
  deriving DecidableEq, Repr, Inhabited

mutual

/-- Data types. -/
inductive Ty where
  | elementary (name : String)
  | bool
  | boolLit (value : Bool)
  | number
  | numLit (value : Int)
  | integer (signed : Bool) (width : Width)
  | named (sort : NamedSort) (names : List String) (target : Option NamedTarget)
  | address (payable : Bool)
  | mapping (id : Nat) (key : Ty) (label : Option String) (value : AnnTy)
  | array (value : AnnTy) (length : Option Expr)
  | cipher (plain : AnnTy) (backend : Backend)
  | publicKey (backend : Backend)
  | randomness (backend : Backend)
  | tuple (types : List AnnTy)
  | function (params : List Param) (modifiers : List String) (returns : List Param)

/-- A data type with its owner. `annotated` tells whether the owner was written down; `declared` keeps the
source type of a type that was replaced by an encrypted one. -/
structure AnnTy where
  type : Ty
  privacy : Expr
  hom : Hom
  annotated : Bool
  declared : Option AnnTy

/-- A parameter. `source` keeps the type it had before encryption. -/
structure Param where
  id : Nat
  keywords : List String
  type : AnnTy
  name : Option String
  storage : Option String
  source : Option AnnTy

/-- What every expression carries: its number, its position, the type found for it, whether it is
evaluated in the circuit, and whether it contains a call that is proved along with the caller. -/
structure Info where
  id : Nat
  pos : Pos
  type : Option AnnTy
  privately : Bool
  inlined : Bool

/-- A circuit variable with the expression it holds and the variable of public code that stores it. -/
structure CircuitVar where
  name : String
  type : Ty
  role : CircuitRole
  source : Option Expr
  container : Option String

/-- A name in an expression, either from the program or that of a circuit variable. -/
inductive Ident where
  | plain (name : String)
  | circuit (var : CircuitVar)

/-- Expressions. -/
inductive Expr where
  | operator (info : Info) (op : Op) (isPrivate : Bool) (hom : Hom) (rerandomize : Option Expr)
  | call (info : Info) (func : Expr) (args : List Expr) (secretOffset : Int)
      (publicKey : Option CircuitVar)
  | new (info : Info) (args : List Expr)
  | cast (info : Info) (type : Ty) (arg : Expr) (implicit : Bool)
  | boolLit (info : Info) (value : Bool)
  | numLit (info : Info) (value : Int) (hex : Bool)
  | arrayLit (info : Info) (values : List Expr) (isKey : Bool)
  | tuple (info : Info) (elements : List Expr)
  | ident (info : Info) (name : Ident) (target : Option Ref)
  | member (info : Info) (base : Expr) (name : Ident) (target : Option Ref)
  | index (info : Info) (base : Expr) (key : Expr) (target : Option Ref)
  | me (info : Info)
  | all (info : Info)
  | reclassify (info : Info) (form : ReclassifyForm) (arg : Expr) (privacy : Expr)
      (hom : Option Hom)

end

/-- The part of a variable that an access reaches. Member accesses are told apart by their expression, as
are keys other than the two owner keywords. -/
inductive LocKey where
  | member (access : Nat) (name : String)
  | keyword (label : Label)
  | index (key : Nat) (label : Option Label)
  deriving DecidableEq, Repr, Inhabited

/-- A storage location: a variable, or a part of it. -/
structure Loc where
  target : Ref
  name : String
  key : Option LocKey
  deriving DecidableEq, Repr, Inhabited

/-- What every statement carries: its position, the labels known to be equal before and after it, and the
locations it writes (in order of first write) and reads. -/
structure StmtInfo where
  pos : Pos
  before : Option (Partition Label)
  after : Option (Partition Label)
  writes : List Loc
  reads : List Loc

instance : Inhabited StmtInfo := ⟨⟨.unknown, none, none, [], []⟩⟩

/-- A variable declared by a statement or as a member of a struct. -/
structure LocalVar where
  id : Nat
  keywords : List String
  type : AnnTy
  name : String
  storage : Option String

mutual

/-- Statements. Comments and blank lines stand among statements without being ones. -/
inductive Stmt where
  | ifThen (info : StmtInfo) (cond : Expr) (thenBranch : Block) (elseBranch : Option Block)
  | whileLoop (info : StmtInfo) (cond : Expr) (body : Block)
  | doWhile (info : StmtInfo) (body : Block) (cond : Expr)
  | forLoop (info : StmtInfo) (init : Option Stmt) (cond : Expr) (update : Option Stmt) (body : Block)
  | breakLoop (info : StmtInfo)
  | continueLoop (info : StmtInfo)
  | ret (info : StmtInfo) (value : Option Expr)
  | eval (info : StmtInfo) (expr : Expr)
  | require (info : StmtInfo) (cond : Expr)
  | assign (info : StmtInfo) (lhs : Expr) (rhs : Expr) (op : String) (isInput : Bool)
  | declare (info : StmtInfo) (var : LocalVar) (init : Option Expr)
  | block (body : Block)
  | seq (info : StmtInfo) (stmts : List Stmt) (excluded : Bool)
  | compute (info : StmtInfo) (var : CircuitVar)
  | enterKey (info : StmtInfo) (backend : Backend)
  | comment (text : String)
  | blank

/-- A block. `single` marks a body that was written without braces. -/
structure Block where
  info : StmtInfo
  stmts : List Stmt
  single : Bool

end

/-- What the analyses find out about a function. -/
structure FunctionFacts where
  calls : List Nat
  recursive : Bool
  staticBody : Bool
  canBePrivate : Bool
  needsProof : Bool
  needsProofExternally : Bool
  writes : List Loc
  reads : List Loc
  homs : List Hom
  backends : List Backend

/-- Nothing is known yet: no calls, a static body that may be private. -/
def FunctionFacts.initial : FunctionFacts :=
  ⟨[], false, true, true, false, false, [], [], [], []⟩

instance : Inhabited FunctionFacts := ⟨.initial⟩

/-- A function, or a constructor if it has no name. -/
structure FunctionDef where
  id : Nat
  name : Option String
  params : List Param
  modifiers : List String
  returns : List Param
  body : Block
  pos : Pos
  facts : FunctionFacts

/-- A state variable. -/
structure StateVar where
  id : Nat
  keywords : List String
  type : AnnTy
  name : String
  init : Option Expr

/-- State variables with the comments between them. -/
inductive StateItem where
  | var (v : StateVar)
  | comment (text : String)
  | blank

structure EnumValue where
  id : Nat
  name : String
  type : Option AnnTy

structure EnumDef where
  id : Nat
  name : String
  values : List EnumValue
  type : Option AnnTy

structure StructDef where
  id : Nat
  name : String
  members : List LocalVar

structure Contract where
  id : Nat
  name : String
  state : List StateItem
  constructors : List FunctionDef
  functions : List FunctionDef
  enums : List EnumDef
  structs : List StructDef

/-- A program. `text` holds the lines it was read from, for use in messages. -/
structure SourceUnit where
  pragma : String
  contracts : List Contract
  text : List String

end Shroud
