import Shroud.Diagnostic.Error

/-!
# Circuit variables

A circuit variable is read inside the circuit by its name. Public arguments are also visible in public code,
as members of the variable that holds them there; temporaries are not, unless they hold a constant.
-/

namespace Shroud.CircuitVar

/-- A circuit variable. Literals are held by the narrowest type that fits them. -/
def make (name : String) (type : Ty) (role : CircuitRole) (source : Option Expr)
    (container : Option String) : CircuitVar :=
  ⟨name, type.abstract, role, source, container⟩

/-- Words that the variable occupies. -/
def size (v : CircuitVar) : Int := v.type.sizeInWords

/-- The variable as an expression of the circuit. -/
def read (v : CircuitVar) : Expr :=
  .ident { Info.synthetic with type := some (.plain v.type) } (.circuit v) none

/-- The literal that a temporary is known to hold. -/
def constant? (v : CircuitVar) : Option Expr :=
  if v.role = .temporary then
    match (v.source.bind Expr.type?).map AnnTy.type with
    | some (.boolLit b) => some (.boolLiteral b)
    | some (.numLit n) => some (.literal n)
    | _ => none
  else none

/-- The value of the variable in public code. -/
def location (v : CircuitVar) : Except Error Expr :=
  match v.constant? with
  | some e => .ok e
  | none =>
    match v.role, v.container with
    | .publicArgument, some c =>
      .ok (.member { Info.synthetic with type := some (.plain v.type) } (.name c) (.circuit v) none)
    | _, _ => .error (.defect (.noPublicLocation v.name))

/-- The variable was read from public code, so its value is not the result of a computation. -/
def isInput (v : CircuitVar) : Bool := v.role = .publicArgument || v.role = .secretInput

end Shroud.CircuitVar
