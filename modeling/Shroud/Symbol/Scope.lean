import Shroud.Symbol.Builtin

/-!
# Scopes

A name leads to the innermost declaration around it. Blocks and loops declare the variables of their
statements; a variable is visible from the statement after its declaration on, so a use before it leads to
an outer declaration of the same name.

**Failure.** When the only declarations of a name stand later in a block, the block is blamed; otherwise the
expression is.
-/

namespace Shroud

/-- The names declared directly in one scope; `block` is the position of a block or loop. -/
structure Frame where
  names : List (String × Ref)
  block : Option Pos

/-- The scopes around a node, innermost first. `later` lists variables whose declaration is still to come
in the enclosing blocks, `own` those that the current statement declares. -/
structure Scope where
  frames : List Frame
  later : List Nat
  own : List Nat

namespace Scope

def empty : Scope := ⟨[], [], []⟩

/-- Enter a scope that declares these names. -/
def enter (s : Scope) (names : List (String × Ref)) : Scope :=
  { s with frames := ⟨names, none⟩ :: s.frames }

/-- Enter a block; none of its variables is declared yet. -/
def enterBlock (s : Scope) (pos : Pos) (locals : List LocalVar) : Scope :=
  { s with
    frames := ⟨locals.map fun v => (v.name, v.ref), some pos⟩ :: s.frames
    later := locals.map (·.id) ++ s.later }

/-- Go on after a statement that declares these variables. -/
def declare (s : Scope) (locals : List LocalVar) : Scope :=
  { s with later := s.later.filter fun i => !(locals.any (·.id == i)) }

/-- Within the statement that declares the variable. -/
def declaring (s : Scope) (v : LocalVar) : Scope := { s with own := [v.id] }

/-- Search the frames for a value. The result of a failed search is the last block that declares the name
too late. -/
def searchValue (later own : List Nat) (name : String) :
    List Frame → Option Pos → Except (Option Pos) Ref
  | [], blamed => .error blamed
  | f :: fs, blamed =>
    match f.names.lookup name with
    | none => searchValue later own name fs blamed
    | some r =>
      if own.contains r.id then searchValue later own name fs blamed
      else if f.block.isSome && later.contains r.id then searchValue later own name fs f.block
      else .ok r

/-- The declaration of a value. -/
def value (s : Scope) (name : String) : Except (Option Pos) Ref :=
  searchValue s.later s.own name s.frames none

/-- The declaration of a type, which may also stand later. -/
def type? (s : Scope) (name : String) : Option Ref :=
  s.frames.findSome? fun f =>
    (f.names.lookup name).bind fun r => if s.own.contains r.id then none else some r

/-- Every declaration in an enclosing scope, hidden or not. -/
def visible (s : Scope) : List Nat := s.frames.flatMap fun f => f.names.map (·.2.id)

end Scope

mutual

/-- The variables that a statement declares for the block around it. -/
def Stmt.declared : Stmt → List LocalVar
  | .declare _ v _ => [v]
  | .seq _ ss _ => Stmt.declaredAll ss
  | _ => []

def Stmt.declaredAll : List Stmt → List LocalVar
  | [] => []
  | s :: ss => s.declared ++ Stmt.declaredAll ss

end

/-- The variables of an optional statement. -/
def Stmt.declared? (s : Option Stmt) : List LocalVar := (s.map Stmt.declared).getD []

def Block.declared (b : Block) : List LocalVar := Stmt.declaredAll b.stmts

/-! ## Conflicting names -/

/-- The first name that stands for two declarations. -/
def conflict? : List (String × Ref) → Option String
  | [] => none
  | names => go [] names
where
  go (seen : List (String × Ref)) : List (String × Ref) → Option String
    | [] => none
    | (n, r) :: rest =>
      match seen.lookup n with
      | none => go ((n, r) :: seen) rest
      | some s => if r == s then go seen rest else some n

/-- Fail if two different declarations have one name. -/
def checkConflict (names : List (String × Ref)) : Except Error Unit :=
  match conflict? names with
  | some n => .error (.badValue (.conflict n))
  | none => .ok ()

def checkLocals (vs : List LocalVar) : Except Error Unit :=
  checkConflict (vs.map fun v => (v.name, v.ref))

mutual

/-- No block declares a name twice; inner blocks are looked at first. -/
def Stmt.checkNames : Stmt → Except Error Unit
  | .ifThen _ _ t none => t.checkNames
  | .ifThen _ _ t (some e) => do t.checkNames; e.checkNames
  | .whileLoop _ _ b => b.checkNames
  | .doWhile _ b _ => b.checkNames
  | .forLoop _ init _ update b => do
    match init with
    | none => pure ()
    | some s => s.checkNames
    match update with
    | none => pure ()
    | some s => s.checkNames
    b.checkNames
    checkLocals (Stmt.declared? init ++ Stmt.declared? update)
  | .block b => b.checkNames
  | .seq _ ss _ => do
    Stmt.checkNamesAll ss
    checkLocals (Stmt.declaredAll ss)
  | _ => .ok ()

def Block.checkNames : Block → Except Error Unit
  | ⟨_, ss, _⟩ => do
    Stmt.checkNamesAll ss
    checkLocals (Stmt.declaredAll ss)

def Stmt.checkNamesAll : List Stmt → Except Error Unit
  | [] => .ok ()
  | s :: ss => do
    s.checkNames
    Stmt.checkNamesAll ss

end

/-- The first function that repeats an earlier name. -/
def firstOverload? : List String → List FunctionDef → Option FunctionDef
  | _, [] => none
  | seen, f :: fs => if seen.contains f.title then some f else firstOverload? (f.title :: seen) fs

def Contract.checkNames (text : List String) (c : Contract) : Except Error Unit := do
  for f in c.allFunctions do
    f.body.checkNames
  match firstOverload? [] c.functions with
  | some f => .error (Site.atFunction ⟨some text, some c.name, none, none⟩ f .overloading)
  | none => checkConflict c.nameGroups.flatten

/-- No scope of the program declares a name twice. -/
def SourceUnit.checkNames (u : SourceUnit) : Except Error Unit := do
  for c in u.contracts do
    c.checkNames u.text

end Shroud
