import Shroud.Compile

/-!
# Programs by hand

Shorthands for small programs. Every expression is written with its number; an operator application takes two, one
for itself and the next one for its operator.
-/

namespace Shroud

namespace Expr

def nameAt (id : Nat) (x : String) : Expr := .ident (.numbered id) (.plain x) none

def literalAt (id : Nat) (n : Int) : Expr :=
  .numLit { Info.numbered id with type := some (.plain (.numLit n)) } n false

def applyAt (id : Nat) (op : Op) (args : List Expr) : Expr :=
  .call (.numbered id) (.operator (.numbered (id + 1)) op false .nonHomomorphic none) args 0 none

def callAt (id : Nat) (f : Expr) (args : List Expr) : Expr := .call (.numbered id) f args 0 none

end Expr

/-- A type whose values belong to the sender. -/
def Ty.mine (t : Ty) : AnnTy := .owned t .meLabel .nonHomomorphic

def Param.sketch (id : Nat) (t : AnnTy) (x : String) : Param := ⟨id, [], t, some x, none, none⟩

def Stmt.declareAt (id : Nat) (t : AnnTy) (x : String) (e : Expr) : Stmt :=
  .declare default ⟨id, [], t, x, none⟩ (some e)

/-- A function without results. -/
def FunctionDef.sketch (id : Nat) (name : String) (modifier : String) (params : List Param) (body : List Stmt) :
    FunctionDef :=
  ⟨id, some name, params, [modifier], [], .ofStmts body, .unknown, .initial⟩

/-- A function without parameters whose result is a number. -/
def FunctionDef.yielding (id : Nat) (name : String) (body : List Stmt) : FunctionDef :=
  { FunctionDef.sketch id name "internal" [] body with returns := [⟨id + 1, [], .publicUint, none, none, none⟩] }

/-- A program of a single contract. -/
def SourceUnit.sketch (id : Nat) (name : String) (state : List StateVar) (functions : List FunctionDef) :
    SourceUnit :=
  ⟨"pragma zkay ^0.3.0;", [⟨id, name, state.map .var, [], functions, [], []⟩], []⟩

/-- A computed result that passes a test. -/
theorem exists_ok_of_any {ε α : Type} {x : Except ε α} {p : α → Bool} (h : x.toOption.any p = true) :
    ∃ a, x = .ok a ∧ p a = true := by
  cases x with
  | error e => cases h
  | ok a => exact ⟨a, rfl, h⟩

end Shroud
