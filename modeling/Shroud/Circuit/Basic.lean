import Shroud.Circuit.History
import Shroud.Circuit.Names
import Shroud.Generated

/-!
# Circuits

A circuit states what a proof about one call of a function has to show. It consists of statements over
circuit variables and of the variables that enter and leave it.

**Variables.** Secret inputs are known to the prover alone. Public inputs and outputs are shared with the
public code of the function, where a variable holds all of them. Temporaries exist only inside the circuit.

**Guards.** Between a guard and its end, conditions need only hold if the guard has the given value. Guards
nest like brackets.

**Calls.** The circuit of a called function is part of the caller's, with inputs and outputs of its own, so
the sizes of a circuit are complete only once all called circuits are.
-/

namespace Shroud

/-- Statements of a circuit. A declaration is the only one that holds an expression. An encryption relates
a plain value and a ciphertext; it is a decryption if the ciphertext is given and the plain value is
supplied by the prover. -/
inductive CircuitStmt where
  | comment (text : String)
  | block (name : String) (stmts : List CircuitStmt)
  | call (function : Nat)
  | declare (var : CircuitVar) (value : Expr)
  | openGuard (cond : CircuitVar) (holds : Bool)
  | closeGuard
  | encrypt (plain randomness key cipher : CircuitVar) (isDecryption : Bool)
  | encryptShared (plain otherKey cipher : CircuitVar) (isDecryption : Bool)
  | equal (target value : CircuitVar)

mutual

/-- The guards in force after a statement, given those before it. -/
def CircuitStmt.guards (gs : List Guard) : CircuitStmt → List Guard
  | .openGuard v holds => gs ++ [⟨v.name, holds⟩]
  | .closeGuard => gs.dropLast
  | .block _ ss => CircuitStmt.guardsAfter gs ss
  | _ => gs

/-- The guards in force after all statements. -/
def CircuitStmt.guardsAfter (gs : List Guard) : List CircuitStmt → List Guard
  | [] => gs
  | s :: ss => CircuitStmt.guardsAfter (s.guards gs) ss

end

/-- A call of a function with a circuit: the number of the call, the callee, and where the callee's secret
inputs start. -/
structure CircuitCall where
  node : Nat
  callee : Nat
  offset : Int
  deriving DecidableEq, Repr

/-- Words of secret inputs, public inputs and outputs. -/
structure CircuitSizes where
  secret : Int
  input : Int
  output : Int
  deriving DecidableEq, Repr

namespace CircuitSizes

def zero : CircuitSizes := ⟨0, 0, 0⟩

def add (a b : CircuitSizes) : CircuitSizes :=
  ⟨a.secret + b.secret, a.input + b.input, a.output + b.output⟩

instance : Add CircuitSizes := ⟨add⟩

/-- Something enters or leaves the circuit. -/
def isPositive (s : CircuitSizes) : Bool := s.input > 0 || s.output > 0 || s.secret > 0

end CircuitSizes

/-- The circuit of a function. `hasResult` tells whether the function has returned a value, `secretKeys`
for which backends the sender's secret key is needed, `keys` which public keys of known owners are.
`callees` and `called` describe the circuits that are part of this one; they are found out last. `versions`
is what the circuit knows about variables at the moment, `history` how it came about. -/
structure Circuit where
  function : Nat
  verifier : Option String
  hasResult : Bool
  body : List CircuitStmt
  secrets : NameSupply
  temporaries : NameSupply
  inputs : NameSupply
  outputs : NameSupply
  secretKeys : List Backend
  keys : List (Label × Backend)
  calls : List CircuitCall
  callees : Option (List Nat)
  called : Option CircuitSizes
  versions : Versions
  history : List Step

/-- Add an element unless it is listed already. -/
def includeOnce {α : Type} [BEq α] (xs : List α) (x : α) : List α := if xs.contains x then xs else xs ++ [x]

namespace Circuit

/-- A circuit without statements. -/
def empty (function : Nat) : Circuit :=
  { function, verifier := none, hasResult := false, body := []
    secrets := .empty "secret" .secretInput none
    temporaries := .empty "tmp" .temporary none
    inputs := .empty Generated.inputs .publicArgument (some Generated.data)
    outputs := .empty Generated.outputs .publicArgument (some Generated.data)
    secretKeys := [], keys := [], calls := [], callees := none, called := none, versions := .empty, history := [] }

instance : Inhabited Circuit := ⟨empty 0⟩

/-- The guards in force at the end of the circuit, outermost first. -/
def guards (c : Circuit) : List Guard := CircuitStmt.guardsAfter [] c.body

/-- The sizes of the circuit without the called ones. -/
def ownSizes (c : Circuit) : CircuitSizes := ⟨c.secrets.size, c.inputs.size, c.outputs.size⟩

/-- The sizes of the circuit with all called ones. -/
def sizes (c : Circuit) : CircuitSizes := c.ownSizes + c.called.getD .zero

/-- Public inputs and outputs are held by a variable of public code, if there are any. -/
def needsData (c : Circuit) : Bool := c.outputs.size + c.inputs.size > 0

/-- The arrays that are handed to the verifier, with their lengths. -/
def publicArrays (c : Circuit) : List (String × Int) :=
  [(c.inputs.base, c.sizes.input), (c.outputs.base, c.sizes.output)]

end Circuit

/-! ## Keys -/

/-- The circuit variable with the key of an owner that is known in advance. -/
def Label.keyName (l : Label) (b : Backend) : Except Error String :=
  match l with
  | .all => .error (.defect (.notStaticOwner "all"))
  | l => .ok ("glob_key_" ++ b.identifier ++ "__" ++ l.name)

/-- The circuit variable with the sender's secret key. -/
def Backend.secretKeyName (b : Backend) : String := "glob_sk_" ++ b.identifier ++ "__me"

end Shroud
