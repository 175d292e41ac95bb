import Shroud.Split.Inline

/-!
# Expressions inside a circuit

An expression that is evaluated privately becomes an expression over circuit variables. Locations of public
code enter the circuit as inputs, operators stay, and calls are replaced by the bodies of their functions.

**Homomorphic operations** work on ciphertexts. Their private operands enter the circuit without being
decrypted, and their result is a ciphertext for the same owner. A product with a private factor of the
sender uses the plain factor; new randomness then hides it.
-/

namespace Shroud

open SplitM

namespace Splitter

/-- A name inside a circuit stands for the current version of its variable. -/
def privateIdent (t : Splitter) (e : Expr) (name : Ident) : SplitM Expr := do
  match name with
  | .circuit v =>
    if v.role = .contractValue then throw (.defect (.contractValueInCircuit v.name))
    return e
  | .plain _ =>
    if e.target?.isNone then throw .assertion
    match ← known? (cachedAs? e) with
    | some v => return v.read.mapInfo fun i => { i with type := e.type? }
    | none => return (← t.input e).read

/-- A value that changes its owner. As an operand of a homomorphic operation it is needed as a ciphertext
for the recipient; otherwise the plain value is all that matters. -/
def privateReclassify (t : Splitter) (type : AnnTy) (arg : Expr) : SplitM Expr := do
  if type.isCipher then
    let source := type.sourceType
    match source.privacy.label? with
    | none => throw .undefinedState
    | some owner =>
      match ← t.evaluate arg owner source.hom with
      | .member _ _ (.circuit v) _ => return v.read
      | _ => throw .undefinedState
  else if arg.info.privately then t.privately arg
  else if !arg.checkedType.isPublic then throw (.defect (.reclassifiesForeign arg.code))
  else return (← t.input arg).read

/-- An operand of a homomorphic operation: a private one is to enter as a ciphertext. The second result is
randomness to hide a plain factor with. -/
def homOperand (b : Backend) (type : AnnTy) (isProduct : Bool) (arg : Expr) : SplitM (Expr × Option Expr) := do
  match isProduct, arg with
  | true, .reclassify _ _ inner _ _ => return (inner, some (← freshRandomness type.hom))
  | _, arg =>
    if arg.checkedType.isPrivate then return (← put (arg.withType (.cipherOf arg.checkedType b)), none)
    else return (arg, none)

/-- An operation on ciphertexts. -/
def homOperation (t : Splitter) (i : Info) (func : Info) (op : Op) (isPrivate : Bool) (h : Hom)
    (rerandomize : Option Expr) (args : List Expr) (offset : Int) : SplitM Expr := do
  let b ← backend h
  let type := i.type.getD default
  match type.sourceType.privacy.label? with
  | none => throw .undefinedState
  | some recipient =>
    let key ← publicKey recipient b
    let operands ← args.mapM (homOperand b type (op == .mul))
    let rerandomize := ((operands.filterMap (·.2)).getLast?).or rerandomize
    let f := Expr.operator func op isPrivate h rerandomize
    let args := operands.map (·.1)
    let _ ← put (.call i f args offset (some key))
    let args ← args.mapM t.privately
    let type := if type.isCipher then type else .cipherOf type b
    put (.call { i with type := some type } f args offset (some key))

/-- A call of a function inside a circuit. -/
def privateCall (t : Splitter) (e func : Expr) (args : List Expr) : SplitM Expr := do
  match (← symbols).callee? func with
  | none => throw .undefinedState
  | some g =>
    if g.isConstructor || g.returns.isEmpty || !g.facts.staticBody then
      throw (.defect (.cannotInline g.title))
    match (← read).callees.find? (·.id == g.id) with
    | some f => t.inline f (some ("INLINED " ++ e.code)) args
    | none => throw .assertion

/-- Turn an expression into one over circuit variables. -/
def privateStep (t : Splitter) (e : Expr) : SplitM Expr := do
  match e with
  | .ident _ n _ => t.privateIdent e n
  | .index .. | .member .. | .me _ => return (← t.input e).read
  | .reclassify _ _ arg _ _ => t.privateReclassify e.checkedType arg
  | .call i f args o k =>
    match e.checkedType.type with
    | .boolLit b => return (Expr.boolLiteral b).withPos i.pos
    | .numLit n => return (Expr.literal n).withPos i.pos
    | _ =>
      match f with
      | .operator fi op p h r =>
        if h = .nonHomomorphic then put (.call i f (← args.mapM t.privately) o k)
        else t.homOperation i fi op p h r args o
      | f =>
        if e.isCastCall then
          match f.target? with
          | some (.decl .enum _) => put (.call i f (← args.mapM t.privately) o k)
          | _ => throw (.defect (.unsupportedCast e.code))
        else t.privateCall e f args
  | .tuple i es => put (.tuple i (← es.mapM t.privately))
  | .cast i type arg b => put (.cast i type (← t.privately arg) b)
  | .new i args => put (.new i (← args.mapM t.privately))
  | e => return e

end Splitter

end Shroud
