import Shroud.Split.Layout
import Shroud.Split.PublicStmt

/-!
# Parts of a split function

A proof is made outside of the chain for a whole transaction, so it is checked where a function is called
from outside. A function that can be called so is split in two.

**The internal part** has the body. If it has a circuit, it takes the arrays of circuit values and the
starts of its sections; it loads the outputs before the body and stores the inputs after it.

**The external part** checks the encryption of its arguments, looks up the keys of known owners, calls the
internal part and finally the verifier.
-/

namespace Shroud

open SplitM

/-- An element of an array of words. -/
def wordAt (array : String) (place : Expr) : Expr :=
  .index { Info.synthetic with type := some .publicUint } ((Expr.name array).withType (.plain wordArray)) place none

/-- A word of a section. -/
def sectionWord (array : String) (offset : Int) : Expr := wordAt array (sectionPlace array offset)

/-- An element of a location at a number. -/
def Expr.elementAt (e : Expr) (n : Int) : Except Error Expr := e.indexedBy (.literal n)

/-- Load an output from its section. -/
def CircuitVar.load (v : CircuitVar) (array : String) (offset : Int) : Except Error (List Stmt) := do
  let place ← v.location
  if v.type.isCryptoArray then
    (List.range v.size.toNat).mapM fun (n : Nat) => do
      return .set (← place.elementAt n) (sectionWord array (offset + n))
  else return [.set place (← (sectionWord array offset).converted v.type)]

/-- Store an input in its section. -/
def CircuitVar.store (v : CircuitVar) (array : String) (offset : Int) : Except Error (List Stmt) := do
  let place ← v.location
  if v.type.isCryptoArray then
    (List.range v.size.toNat).mapM fun (n : Nat) => do
      return .set (sectionWord array (offset + n)) (← place.elementAt n)
  else return [.set (sectionWord array offset) (← place.converted AnnTy.uint)]

/-- Copy variables from or to a section, one after the other. -/
def copySection (copy : CircuitVar → String → Int → Except Error (List Stmt)) (array : String) :
    Int → List CircuitVar → Except Error (List Stmt)
  | _, [] => .ok []
  | offset, v :: vs => do
    let here ← copy v array offset
    return here ++ (← copySection copy array (offset + v.size) vs)

/-- The section lies inside the array. -/
def requireSection (array : String) (size : Int) : Stmt :=
  .require default (.applyOp .le [sectionPlace array size, .dot (.name array) "length"])

/-- The name of the type that holds the circuit values of a function. -/
def FunctionDef.dataName (f : FunctionDef) : String := Generated.data ++ "_" ++ f.title

/-- Names in parentheses. -/
def LocalVar.reads (vs : List LocalVar) : Expr := .tuple .synthetic (vs.map fun v => .name v.name)

/-- Declarations of the variables for results. -/
def declareResults (vs : List LocalVar) : List Stmt :=
  Stmt.headed "Declare return variables" (vs.map fun v => .declare default v none)

abbrev NumberM := StateT Nat (Except Error)

def NumberM.fresh : NumberM Nat := fun n => .ok (n, n + 1)

/-- Add a parameter of generated code. -/
def FunctionDef.addParam (f : FunctionDef) (type : AnnTy) (name storage : String) : NumberM FunctionDef := do
  return { f with params := f.params ++ [.generated (← NumberM.fresh) type name storage] }

/-- The internal part of a function with a circuit. -/
def FunctionDef.withSections (f : FunctionDef) (c : Circuit) (results : List LocalVar) :
    NumberM FunctionDef := do
  let words := AnnTy.plain wordArray
  let f ← f.addParam words Generated.inputs "memory"
  let f ← f.addParam .publicUint (startIndex Generated.inputs) "memory"
  let f ← f.addParam words Generated.outputs "memory"
  let f ← f.addParam .publicUint (startIndex Generated.outputs) "memory"
  let checks := [requireSection Generated.outputs c.sizes.output, requireSection Generated.inputs c.sizes.input]
  let data ← (if c.needsData then do
      let type := AnnTy.plain (.named .struct [f.dataName] none)
      return [Stmt.declare default (.stored (← NumberM.fresh) type Generated.data) none, .blank]
    else return [])
  let results' := if f.returns.isEmpty then [] else declareResults results
  let loads ← copySection CircuitVar.load Generated.outputs 0 c.outputs.vars
  let loads := if loads.isEmpty then []
    else [Stmt.seq default (Stmt.framed "Deserialize output values" loads) true]
  let stores ← copySection CircuitVar.store Generated.inputs 0 c.inputs.vars
  let stores := if stores.isEmpty then []
    else .comment "" :: Stmt.framed "Serialize input values" stores
  let last := if c.hasResult then [Stmt.ret default (some (LocalVar.reads results))] else []
  return { f with body := { f.body with
    stmts := checks ++ data ++ results' ++ loads ++ f.body.stmts ++ stores ++ last } }

/-- The type that holds the circuit values of a function. -/
def FunctionDef.dataStruct (f : FunctionDef) (c : Circuit) : NumberM StructDef := do
  let members ← (c.outputs.vars ++ c.inputs.vars).mapM fun v => do
    return (⟨← NumberM.fresh, [], .plain v.type, v.name, some ""⟩ : LocalVar)
  return ⟨← NumberM.fresh, f.dataName, members⟩

/-! ## The external part -/

/-- Prove that a ciphertext argument is the encryption of a value that the sender knows; the result is the
circuit input with the ciphertext. -/
def checkArgument (p : Param) (name : String) : SplitM CircuitVar := do
  match p.type.type with
  | .cipher _ b =>
    let plain ← addSecret name p.type.sourceType.type
    let cipher ← freshInput p.type.type none ("_" ++ name)
    ensureEncryption plain .me b cipher .argument
    return cipher
  | _ => throw .assertion

/-- Copy ciphertext arguments to the start of the array of inputs; the result also holds the number of words. -/
def backUpArguments : Int → List Param → SplitM (List Stmt × Int)
  | offset, [] => return ([], offset)
  | offset, p :: ps =>
    match p.source, p.name with
    | some source, some name =>
      if source.isPrivate then do
        let cipher ← checkArgument p name
        let arg := (Expr.name name).withType p.type
        let here ← (List.range cipher.size.toNat).mapM fun (n : Nat) => do
          return Stmt.set (wordAt Generated.inputs (.literal (offset + n))) (← ofExcept (arg.elementAt n))
        let (rest, last) ← backUpArguments (offset + cipher.size) ps
        return (here ++ rest, last)
      else backUpArguments offset ps
    | _, _ => backUpArguments offset ps

/-- The variable that a looked-up key passes through. -/
def keyVar (b : Backend) : String := "_tmp_key_" ++ b.identifier

/-- Look up keys and append them to the array of inputs; `declared` are the backends whose variable is
declared already. -/
def requestKeys : Int → List Backend → List (Label × Backend) → SplitM (List Stmt × Int)
  | offset, _, [] => return ([], offset)
  | offset, declared, (owner, b) :: keys => do
    let type := AnnTy.plain (.publicKey b)
    let first ← (if declared.contains b then pure []
      else do return [Stmt.declare default (.stored (← fresh) type (keyVar b)) none])
    let name ← ofExcept (owner.keyName b)
    let (_, lookUp) ← requestKey b owner name
    let lookUp := match lookUp with
      | .assign i _ r o x => Stmt.assign i (.name (keyVar b)) r o x
      | s => s
    let copies ← (List.range b.keyLen).mapM fun (n : Nat) => do
      return Stmt.set (wordAt Generated.inputs (.literal (offset + n)))
        (← ofExcept (((Expr.name (keyVar b)).withType type).elementAt n))
    let (rest, last) ← requestKeys (offset + b.keyLen) (b :: declared) keys
    return (first ++ [lookUp] ++ copies ++ rest, last)

/-- The body of the external part, given the internal one and variables for its results. -/
def wrapperBody (f : FunctionDef) (params : List Param) (results : List LocalVar) : SplitM Block := do
  let outputSize := (← circuit).sizes.output
  let lengthCheck := Stmt.require default (.applyOp .eq
    [.dot ((Expr.name Generated.outputs).withType (.plain wordArray)) "length", .literal outputSize])
  let ((arguments, keys), _) ← working ⟨.empty, .detached⟩ (some lengthCheck) do
    let (arguments, offset) ← backUpArguments 0 params
    let (keys, last) ← requestKeys offset [] (← circuit).keys
    if last ≠ (← circuit).inputs.size then throw .assertion
    return (arguments, keys)
  let secretKeys ← requestSecretKeys
  let words := AnnTy.plain wordArray
  let array := Expr.new { Info.synthetic with type := some words } [.literal (← circuit).sizes.input]
  let offset := (← circuit).secrets.size
  let own ← circuit
  if f.facts.needsProof then
    modifyCircuit fun c => { c with calls := c.calls ++ [⟨0, f.id, offset⟩] }
    emit (.call f.id)
  let sections := if !f.facts.needsProof then []
    else [Expr.name Generated.inputs, .literal own.inputs.size, .name Generated.outputs,
      .literal own.outputs.size]
  let args := params.map (fun p => Expr.name (p.name.getD "")) ++ sections
  let call := Expr.call .synthetic (.ident .synthetic (.plain f.title) (some f.ref)) args offset none
  let callStmts := if f.returns.isEmpty then [Stmt.eval default call]
    else declareResults results ++ [.set (LocalVar.reads results) call]
  match own.verifier with
  | none => throw (.defect (.noVerifier f.title))
  | some verifier =>
    let check := (Expr.name (Generated.instance_ verifier)).callMember Generated.verify
      [.name Generated.proof, .name Generated.inputs, .name Generated.outputs]
    let last := if f.returns.isEmpty then [] else [Stmt.ret default (some (LocalVar.reads results))]
    return .ofStmts (
      [lengthCheck, .declare default (.stored (← fresh) words Generated.inputs) (some array)] ++
      Stmt.framed "Backup private arguments for verification" arguments ++
      Stmt.framed "Request static public keys" keys ++ secretKeys ++ callStmts ++
      [.comment "", .seq default [.comment "Verify zk proof of execution", .eval default check] true] ++ last)

/-- The circuit of the external part takes over from the internal one. -/
def Circuit.wrapper (internal : Circuit) (needsProof : Bool) (function : Nat) : Circuit :=
  { Circuit.empty function with
    verifier := internal.verifier
    keys := internal.keys
    secretKeys := internal.secretKeys
    called := some internal.sizes
    callees := some (if needsProof then includeOnce (internal.callees.getD []) internal.function else []) }

end Shroud
