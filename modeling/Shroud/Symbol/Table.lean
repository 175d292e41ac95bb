import Shroud.Diagnostic.Error

/-!
# Symbol tables

What is known about the declarations that references lead to, by number.

**Variables** have a type and keywords, **functions** their whole definition, **spaces** (contracts,
structs and enums) the names of their members. Enums and their values get a type during type checking.

**Elements.** What indexing reaches has no declaration of its own; its type is read off the declaration of
the container, so it follows every change of that declaration.
-/

namespace Shroud

/-- What a declaration declares. -/
inductive Decl where
  | variable (kind : DeclKind) (name : String) (keywords : List String) (type : AnnTy)
  | function (def_ : FunctionDef) (contract : String)
  | space (kind : DeclKind) (name : String) (qualified : List String) (members : List (String × Ref))
      (type : Option AnnTy)
  | enumValue (name : String) (qualified : List String) (type : Option AnnTy)

/-- The names that a list of declarations introduces; of two equal names the later one counts, at the
place of the earlier. -/
def insertName (names : List (String × Ref)) (n : String) (r : Ref) : List (String × Ref) :=
  if names.any (·.1 == n) then names.map fun (m, s) => if m == n then (n, r) else (m, s)
  else names ++ [(n, r)]

def collectNames (names : List (String × Ref)) : List (String × Ref) :=
  names.foldl (fun acc (n, r) => insertName acc n r) []

/-- The variables declared by statements. -/
def Block.locals (b : Block) : List LocalVar := b.nodes.filterMap fun
  | .localVar v => some v
  | _ => none

namespace FunctionDef

/-- The type of the function itself. -/
def type (f : FunctionDef) : AnnTy := .plain (.function f.params f.modifiers f.returns)

/-- The function declares the variable as parameter, returned value or local variable. -/
def declares (f : FunctionDef) (id : Nat) : Bool :=
  (f.params ++ f.returns).any (·.id == id) || f.body.locals.any (·.id == id)

/-- The names of its parameters. -/
def names (f : FunctionDef) : List (String × Ref) :=
  collectNames (f.params.filterMap fun p => p.name.map fun n => (n, Ref.decl .parameter p.id))

end FunctionDef

namespace Decl

def name : Decl → String
  | .variable _ n _ _ => n
  | .function f _ => f.title
  | .space _ n _ _ _ => n
  | .enumValue n _ _ => n

def type? : Decl → Option AnnTy
  | .variable _ _ _ t => some t
  | .function f _ => some f.type
  | .space _ _ _ _ t => t
  | .enumValue _ _ t => t

/-- The names below the declaration. -/
def members : Decl → List (String × Ref)
  | .function f _ => f.names
  | .space _ _ _ ms _ => ms
  | _ => []

/-- The full name of the declaration. -/
def qualified : Decl → List String
  | .variable _ n _ _ => [n]
  | .function f c => [c, f.title]
  | .space _ _ q _ _ => q
  | .enumValue _ q _ => q

def keywords : Decl → List String
  | .variable _ _ ks _ => ks
  | _ => []

/-- The value never changes after construction. -/
def isFixed (d : Decl) : Bool := d.keywords.contains "final" || d.keywords.contains "constant"

def function? : Decl → Option FunctionDef
  | .function f _ => some f
  | _ => none

def withType (t : AnnTy) : Decl → Decl
  | .variable k n ks _ => .variable k n ks t
  | .space k n q ms _ => .space k n q ms (some t)
  | .enumValue n q _ => .enumValue n q (some t)
  | d => d

end Decl

/-- Declarations by number. -/
structure Symbols where
  entries : List (Nat × Decl)

namespace Symbols

def find? (s : Symbols) (id : Nat) : Option Decl := s.entries.lookup id

def insert (s : Symbols) (id : Nat) (d : Decl) : Symbols := ⟨(id, d) :: s.entries⟩

/-- Change one entry in place. -/
def modify (s : Symbols) (id : Nat) (f : Decl → Decl) : Symbols :=
  ⟨s.entries.map fun (i, d) => if i == id then (i, f d) else (i, d)⟩

def setType (s : Symbols) (id : Nat) (t : AnnTy) : Symbols := s.modify id (·.withType t)

/-- The declaration a reference leads to. -/
def decl? (s : Symbols) : Ref → Option Decl
  | .decl _ i => s.find? i
  | _ => none

def function? (s : Symbols) (id : Nat) : Option FunctionDef := (s.find? id).bind Decl.function?

/-- What indexing `depth` times into a type reaches. -/
def elementType? : Nat → AnnTy → Option AnnTy
  | 0, t => some t
  | n + 1, t => t.type.valueType?.bind (elementType? n)

/-- The declared type behind a reference. -/
def type? (s : Symbols) : Ref → Option AnnTy
  | .decl _ i => (s.find? i).bind Decl.type?
  | .element b d _ => ((s.find? b).bind Decl.type?).bind (elementType? d)
  | .keyLabel _ _ => none

/-- The reference leads to a member of a struct. -/
def isStructMember (s : Symbols) (r : Ref) : Bool := s.entries.any fun
  | (_, .space .struct _ _ members _) => members.any (·.2 == r)
  | _ => false

/-- The names below what a name leads to. The key label of a mapping and a variable in a struct stand below
themselves. -/
def membersOf (s : Symbols) (name : String) (r : Ref) : List (String × Ref) :=
  match r, s.decl? r with
  | .keyLabel _ _, _ => [(name, r)]
  | r, some (.variable ..) => if s.isStructMember r then [(name, r)] else []
  | _, some d => d.members
  | _, none => []

/-- The full name of what declares a variable: a function, a contract or a struct. -/
def home (s : Symbols) (id : Nat) : List String :=
  (s.entries.findSome? fun
    | (_, .function f c) => if f.declares id then some [c, f.title] else none
    | (_, .space _ _ q members _) => if members.any (·.2.id == id) then some q else none
    | _ => none).getD []

/-- The full name of what a type name leads to; a mapping has none. -/
def qualified (s : Symbols) (r : Ref) : List String :=
  match s.decl? r with
  | some (.variable _ n _ _) => s.home r.id ++ [n]
  | some d => d.qualified
  | none => []

/-- The function that a call leads to. -/
def callee? (s : Symbols) (f : Expr) : Option FunctionDef :=
  (f.target?.bind s.decl?).bind Decl.function?

/-- A label that keeps its value: the keywords and state variables fixed at construction. -/
def isFixedLabel (s : Symbols) : Label → Bool
  | .me | .all => true
  | .var .stateVar i _ => ((s.find? i).map Decl.isFixed).getD false
  | .var _ _ _ => false

end Symbols

/-! ## Declarations of a program -/

def EnumDef.ref (e : EnumDef) : Ref := .decl .enum e.id
def StructDef.ref (s : StructDef) : Ref := .decl .struct s.id
def Contract.ref (c : Contract) : Ref := .decl .contract c.id
def FunctionDef.ref (f : FunctionDef) : Ref := .decl .function f.id
def StateVar.ref (v : StateVar) : Ref := .decl .stateVar v.id
def LocalVar.ref (v : LocalVar) : Ref := .decl .localVar v.id

def EnumDef.names (e : EnumDef) : List (String × Ref) :=
  collectNames (e.values.map fun v => (v.name, Ref.decl .enumValue v.id))

def StructDef.names (s : StructDef) : List (String × Ref) :=
  collectNames (s.members.map fun m => (m.name, m.ref))

namespace Contract

/-- The names of each sort of member. -/
def nameGroups (c : Contract) : List (List (String × Ref)) :=
  [collectNames (c.stateVars.map fun v => (v.name, v.ref)),
   collectNames (c.functions.map fun f => (f.title, f.ref)),
   collectNames (c.structs.map fun s => (s.name, s.ref)),
   collectNames (c.enums.map fun e => (e.name, e.ref))]

def names (c : Contract) : List (String × Ref) := collectNames c.nameGroups.flatten

end Contract

namespace Decl

def ofLocal (v : LocalVar) : Nat × Decl := (v.id, .variable .localVar v.name v.keywords v.type)

def ofParam (p : Param) : Nat × Decl :=
  (p.id, .variable .parameter (p.name.getD "") p.keywords p.type)

def ofState (v : StateVar) : Nat × Decl := (v.id, .variable .stateVar v.name v.keywords v.type)

end Decl

def FunctionDef.decls (contract : String) (f : FunctionDef) : List (Nat × Decl) :=
  (f.id, .function f contract) :: (f.params ++ f.returns).map Decl.ofParam ++
    f.body.locals.map Decl.ofLocal

def EnumDef.decls (contract : String) (e : EnumDef) : List (Nat × Decl) :=
  (e.id, .space .enum e.name [contract, e.name] e.names e.type) ::
    e.values.map fun v => (v.id, .enumValue v.name [contract, e.name, v.name] v.type)

def StructDef.decls (path : List String) (s : StructDef) : List (Nat × Decl) :=
  (s.id, .space .struct s.name (path ++ [s.name]) s.names none) :: s.members.map Decl.ofLocal

def Contract.decls (c : Contract) : List (Nat × Decl) :=
  (c.id, .space .contract c.name [c.name] c.names none) ::
    c.enums.flatMap (EnumDef.decls c.name) ++ c.structs.flatMap (StructDef.decls [c.name]) ++
    c.stateVars.map Decl.ofState ++ c.allFunctions.flatMap (FunctionDef.decls c.name)

end Shroud
