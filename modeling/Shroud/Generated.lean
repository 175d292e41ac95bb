import Shroud.Backend

/-!
# Names of generated code

All generated names start with a reserved mark, so they cannot clash with names of a program.
-/

namespace Shroud

/-- How generated code is named. -/
structure Naming where
  mark : String

namespace Naming

/-- The usual mark. -/
def standard : Naming := ⟨"zk__"⟩

def reserved (n : Naming) (name : String) : String := n.mark ++ name

/-- The circuit inputs. -/
def inputs (n : Naming) : String := n.reserved "in"

/-- The circuit outputs. -/
def outputs (n : Naming) : String := n.reserved "out"

/-- The parameter with the proof. -/
def proof (n : Naming) : String := n.reserved "proof"

/-- The variable with the returned value. -/
def returned (n : Naming) : String := n.reserved "ret"

/-- The variable with all circuit values of a function, and the start of its type's name. -/
def data (n : Naming) : String := n.reserved "data"

/-- The part of a function that is called from inside the contract. -/
def internal (n : Naming) (func : String) (split : Bool) : String :=
  if split then "_" ++ n.reserved func else func

/-- The contract that checks the proofs of a function. -/
def verifier (n : Naming) (contract func : String) : String :=
  n.reserved ("Verify_" ++ contract ++ "_" ++ func)

/-- The contract that holds the public keys of a backend. -/
def keyRegistry (n : Naming) (b : Backend) : String :=
  n.reserved ("PublicKeyInfrastructure_" ++ b.identifier)

end Naming

/-! ## The usual names -/

namespace Generated

def reserved (name : String) : String := Naming.standard.reserved name

def inputs : String := Naming.standard.inputs

def outputs : String := Naming.standard.outputs

def proof : String := Naming.standard.proof

def returned : String := Naming.standard.returned

def data : String := Naming.standard.data

/-- The function of a verification contract that checks a proof. -/
def verify : String := "verify"

def internal (func : String) (split : Bool) : String := Naming.standard.internal func split

def verifier (contract func : String) : String := Naming.standard.verifier contract func

def keyRegistry (b : Backend) : String := Naming.standard.keyRegistry b

/-- The state variable that holds another contract. -/
def instance_ (contract : String) : String := contract ++ "_inst"

end Generated

end Shroud
