import Shroud.Split.Monad

/-!
# Keys and encryptions

An encryption inside a circuit needs the public key of the recipient, and either randomness or, for a
symmetric backend, the secret key of the sender.

**Public keys** of owners that are known in advance are looked up once for a whole transaction. The key of
any other owner is looked up before the statement that needs it.

**Symmetric ciphertexts** name the sender they come from in their last word, so the key for a decryption is
read off the ciphertext.
-/

namespace Shroud

open SplitM

/-- The address of the sender in public code. -/
def Expr.sender : Expr := (Expr.dot (.name "msg") "sender").withType .publicAddress

/-- The address of an owner in public code. -/
def Label.address : Label → Except Error Expr
  | .me => .ok .sender
  | .all => .error (.defect (.unexpectedExpression (Expr.kind .allLabel)))
  | l => .ok (.ofLabel l)

/-- An element of an array. -/
def Expr.indexedBy (e key : Expr) : Except Error Expr :=
  match e.checkedType.type.valueType? with
  | some t => .ok (.index { Info.synthetic with type := some t } e key none)
  | none => .error .assertion

/-- Call a method. -/
def Expr.callMember (e : Expr) (name : String) (args : List Expr) : Expr :=
  .call .synthetic (e.dot name) args 0 none

/-- Make the key of an owner a public input; the result also holds the statement that looks it up. -/
def requestKey (b : Backend) (owner : Label) (name : String) : SplitM (CircuitVar × Stmt) := do
  let v ← addInput name (.publicKey b)
  let registry := Expr.name (Generated.instance_ (Generated.keyRegistry b))
  let address ← ofExcept owner.address
  let place ← ofExcept v.location
  return (v, .set place (registry.callMember "getPk" [address]))

/-- The circuit variable with the key of an owner. -/
def publicKey (owner : Label) (b : Backend) : SplitM CircuitVar := do
  if (← read).owners.contains owner then
    modifyCircuit fun c => { c with keys := includeOnce c.keys (owner, b) }
    return .make (← ofExcept (owner.keyName b)) (.publicKey b) .publicArgument none none
  else if (← draft?).isNone then throw (.defect (.dynamicOwner owner.name))
  else
    let name := (← circuit).inputs.name (.publicKey b) ++ "_" ++ owner.name
    let (v, lookUp) ← requestKey b owner name
    precede lookUp
    return v

/-- The key that a ciphertext names as its sender's. -/
def senderKey (cipher : CircuitVar) (b : Backend) : SplitM CircuitVar := do
  let v ← freshInput (.publicKey b) none "_sender"
  let word ← ofExcept ((← ofExcept cipher.location).indexedBy (.literal b.payloadLen))
  let key := Expr.arrayLit { Info.synthetic with type := some (.plain (.publicKey b)) } [word] true
  precede (.set (← ofExcept v.location) key)
  return v

/-- Fresh randomness for a new encryption of a computed ciphertext. -/
def freshRandomness (h : Hom) : SplitM Expr := do
  let v ← freshSecret (.randomness (← backend h)) ""
  return v.read

/-- What the prover has to know about the relation of a plain value and a ciphertext. -/
inductive Relation where
  /-- The ciphertext is an argument of the function. -/
  | argument
  /-- The ciphertext is computed by the circuit. -/
  | result
  /-- The ciphertext is given, and the plain value is what it decrypts to. -/
  | decryption
  deriving DecidableEq, Repr

/-- State that a ciphertext is an encryption of a plain value for an owner. -/
def ensureEncryption (plain : CircuitVar) (owner : Label) (b : Backend) (cipher : CircuitVar)
    (relation : Relation) : SplitM Unit := do
  let isDecryption := relation = .decryption
  if b.symmetric then
    modifyCircuit fun c => { c with secretKeys := includeOnce c.secretKeys b }
    let mine ← publicKey .me b
    let other ←
      if isDecryption then senderKey cipher b
      else
        let other ← if owner = .me then pure mine else publicKey owner b
        comment (cipher.name ++ " = enc(" ++ plain.name ++ ", ecdh(" ++ other.name ++ ", my_sk))")
        pure other
    emit (.encryptShared plain other cipher isDecryption)
  else
    let base := if relation = .argument then plain.name else cipher.name
    let randomness ← addSecret (base ++ "_R") (.randomness b)
    let key ← publicKey owner b
    if !isDecryption then comment (cipher.name ++ " = enc(" ++ plain.name ++ ", " ++ key.name ++ ")")
    emit (.encrypt plain randomness key cipher isDecryption)

/-- Make the sender's secret keys secret inputs; the result are the directives to supply them. -/
def requestSecretKeys : SplitM (List Stmt) := do
  (← circuit).secretKeys.mapM fun b => do
    let _ ← addSecret b.secretKeyName (.publicKey b)
    return .enterKey default b

end Shroud
