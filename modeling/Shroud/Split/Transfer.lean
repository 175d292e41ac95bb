import Shroud.Split.Keys
import Shroud.Typing.Coercion

/-!
# Values that enter and leave a circuit

**In.** A value of public code enters the circuit as a public input. A private value enters as a ciphertext;
the prover supplies what it decrypts to, and the circuit checks that.

**Inside.** A value that the circuit computes is held by a temporary.

**Out.** A result leaves the circuit as a public output. A result for everybody is the value itself, a
result for one owner is an encryption of it.

**Recursion.** Public code contains private expressions and the other way round, and calls inside a circuit
bring in the bodies of functions. `Splitter` holds the three activities that refer to each other; the
definitions here and in the next modules say what one of them does in terms of all.
-/

namespace Shroud

/-- The activities that splitting consists of: turning an expression into public code, turning one into a
circuit expression, and carrying out a block in the circuit, given the variables for its results. -/
structure Splitter where
  publicly : Expr → SplitM Expr
  privately : Expr → SplitM Expr
  carryOut : List LocalVar → LinkContext → Block → SplitM Unit

open SplitM

/-- The circuit variable that an expression of the circuit is. -/
def Expr.circuitValue? : Expr → Option CircuitVar
  | .ident _ (.circuit v) _ => if v.role = .contractValue then none else some v
  | _ => none

/-- The circuit variable whose value an output holds, as it is or encrypted. -/
def CircuitVar.held? (out : CircuitVar) : Option CircuitVar :=
  match out.source with
  | some (.reclassify _ .encrypt e _ _) => e.circuitValue?
  | some e => e.circuitValue?
  | none => none

/-- The name of an identifier as part of the names of variables that hold its value. -/
def Expr.nameSuffix : Expr → String
  | .ident _ n _ => "_" ++ n.name
  | _ => ""

/-- A constant as part of the name of the variable that holds it. -/
def Value.suffix : Value → String
  | .int v => decimal v
  | .bool b => if b then "True" else "False"

namespace Splitter

/-- Hold the value of an expression in a variable of the circuit, unless it is one already. -/
def hold (t : Splitter) (e : Expr) (suffix : String) : SplitM CircuitVar := do
  match e, e.circuitValue? with
  | .member _ _ (.circuit _) _, _ => throw (.defect (.alreadyOutput e.code))
  | _, some v => return v
  | _, none =>
    let value ← t.privately e
    let v ← freshTemporary value.checkedType.type value suffix
    emit (.declare v value)
    return v

/-- The variable that a named plain value may be known by. Ciphertexts enter the circuit anew each time. -/
def cachedAs? (e : Expr) : Option Variable := if e.checkedType.isCipher then none else Variable.ofExpr? e

/-- The current version of a variable, if there is one, as the answer to a read. -/
def known? (x : Option Variable) : SplitM (Option CircuitVar) := do
  match x with
  | none => return none
  | some x =>
    match (← versions).current? x with
    | none => return none
    | some v =>
      note (.serve x v)
      return some v

/-- Bring a value that public code has computed into the circuit; the result holds the plain value. -/
def bringIn (e shown : Expr) (text : String) : SplitM CircuitVar := do
  let type := e.checkedType
  let suffix := e.nameSuffix
  if type.isPublic then
    let v ← freshInput type.type none suffix
    comment (v.name ++ " = " ++ text)
    precede (.assign default (← ofExcept v.location) shown "" true)
    note (.enter e v)
    return v
  else
    let b ← backend type.hom
    let plain ← freshSecret type.type suffix
    if shown.checkedType.isCipher then throw .assertion
    let cipher ← freshInput (.cipher shown.checkedType b) (some plain.read) suffix
    precede (.assign default (← ofExcept cipher.location) shown "" true)
    comment (plain.name ++ " = dec(" ++ text ++ ") [" ++ cipher.name ++ "]")
    ensureEncryption plain .me b cipher .decryption
    note (.enter e plain)
    return plain

/-- Make the value of an expression of public code available in the circuit. Constants become part of the
circuit; the values of variables are remembered until public code writes them. -/
def input (t : Splitter) (e : Expr) : SplitM CircuitVar := do
  let text := e.code
  let shown ← t.publicly e
  match shown.checkedType.type.literal? with
  | some c =>
    let v ← t.hold shown c.suffix
    note (.constant e v)
    return v
  | none =>
    match ← known? (cachedAs? e) with
    | some v => return v
    | none =>
      let v ← bringIn e shown text
      match cachedAs? e with
      | some x =>
        if (← options).cacheInputs.holds && e.checkedType.type.isPrimitive then
          setVersion x v
          note (.learn x v)
        return v
      | none => return v

/-- The owner whose key is known in advance, if there is one that is known to be the same. -/
def canonicalOwner (owner : Label) : SplitM Label := do
  match ← knowledge with
  | none => throw .undefinedState
  | some k => return ((← read).owners.find? fun l => k.same l owner).getD owner

/-- Make a public output out of a circuit value; the result is its place in public code. -/
def takeOut (e : Expr) (plain : CircuitVar) (owner : Label) (hom : Hom) : SplitM Expr := do
  let suffix := if e.circuitValue?.isSome then "" else e.nameSuffix
  if owner = .all || plain.type.isCipher then
    let type := if plain.type.isCipher then plain.type else e.checkedType.type
    let v ← freshOutput type plain.read suffix
    emit (.equal plain v)
    note (.leave plain v)
    let place ← ofExcept v.location
    let place ← if type.isCipher then pure place else ofExcept (place.converted type)
    precede (.compute default v)
    return place
  else
    let owner ← canonicalOwner owner
    let b ← backend hom
    if e.checkedType.isCipher then throw .assertion
    let source := Expr.reclassify .synthetic .encrypt plain.read (.ofLabel owner) (some hom)
    let v ← freshOutput (.cipher e.checkedType b) source suffix
    ensureEncryption plain owner b v .result
    note (.leave plain v)
    let place ← ofExcept v.location
    precede (.compute default v)
    return place

/-- Compute an expression for an owner; the result is the place of the output in public code. -/
def output (t : Splitter) (e : Expr) (owner : Label) (hom : Hom) : SplitM Expr := do
  let inside := e.circuitValue?.isSome || e.checkedType.isPrivate || e.info.privately
  let plain ← if inside then t.hold e "" else t.input e
  takeOut e plain owner hom

/-- Compute an expression of public code for an owner. -/
def evaluate (t : Splitter) (e : Expr) (owner : Label) (hom : Hom) : SplitM Expr :=
  indented e.code (t.output e owner hom)

end Splitter

end Shroud
