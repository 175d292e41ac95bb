import Shroud.Circuit.Var

/-!
# Names of circuit variables

Every sort of circuit variable has a supply of names. A fresh name consists of the base name of the supply,
a running number and the sort of its content.
-/

namespace Shroud

/-- What a circuit variable of this type holds, as part of its name. -/
def Ty.contentName : Ty → String
  | .publicKey _ => "key"
  | .cipher _ _ => "cipher"
  | .randomness _ => "rnd"
  | _ => "plain"

/-- Names handed out so far: their number, the words that the variables occupy, and the variables. -/
structure NameSupply where
  base : String
  role : CircuitRole
  container : Option String
  count : Nat
  size : Int
  vars : List CircuitVar

namespace NameSupply

def empty (base : String) (role : CircuitRole) (container : Option String) : NameSupply :=
  ⟨base, role, container, 0, 0, []⟩

/-- The next fresh name. -/
def name (s : NameSupply) (t : Ty) : String := s.base ++ toString s.count ++ "_" ++ t.contentName

/-- Pass over a name. -/
def skip (s : NameSupply) : NameSupply := { s with count := s.count + 1 }

/-- Add a variable under a given name. -/
def add (s : NameSupply) (name : String) (t : Ty) (source : Option Expr) : CircuitVar × NameSupply :=
  let v := CircuitVar.make name t s.role source s.container
  (v, { s with count := s.count + 1, size := s.size + t.sizeInWords, vars := s.vars ++ [v] })

/-- Add a variable under a fresh name. -/
def fresh (s : NameSupply) (t : Ty) (source : Option Expr) (suffix : String) : CircuitVar × NameSupply :=
  s.add (s.name t ++ suffix) t source

end NameSupply

end Shroud
