import Shroud.Circuit.Versions

/-!
# How a circuit comes about

A circuit keeps a history of its making: which values entered and left it, what it got to know about
variables, where reads were answered from, and which variables public code and called functions wrote.

**Moments.** Each event is recorded together with the guards in force and the versions known after it. A
change of the known versions that no event explains is followed by the event `resume`.

**Steps.** Events stand in the order of the translation. What belongs together is grouped: the body of a call
or another scope of versions, the members of a list that are worked through one by one, the sides of an if
statement, operands and loops that public code may pass over or repeat.
-/

namespace Shroud

/-- A guard: the circuit variable with the condition, and the value it has to have. -/
structure Guard where
  cond : String
  holds : Bool
  deriving DecidableEq, Repr, Inhabited

/-- What happens to a circuit. -/
inductive Event where
  /-- The value of an expression of public code enters; `v` holds it. -/
  | enter (e : Expr) (v : CircuitVar)
  /-- A constant of public code is held by `v`. -/
  | constant (e : Expr) (v : CircuitVar)
  /-- The value of `v` leaves as an output. -/
  | leave (v output : CircuitVar)
  /-- The value that was read for a variable is remembered. -/
  | learn (x : Variable) (v : CircuitVar)
  /-- The circuit assigns a variable. -/
  | bind (x : Variable) (v : CircuitVar)
  /-- A variable gets a version that chooses between two branches. -/
  | merge (x : Variable) (v : CircuitVar)
  /-- Public code assigns an output with the value of `v` to a variable. -/
  | hand (x : Variable) (v : CircuitVar)
  /-- A read of a variable is answered by its current version. -/
  | serve (x : Variable) (v : CircuitVar)
  /-- Public code writes a variable. -/
  | write (x : Variable)
  /-- A called function writes a variable by itself: it has a circuit of its own, or promises to write nothing. -/
  | pass (x : Variable) (callee : Nat)
  /-- Versions that were recorded elsewhere are current now. -/
  | resume

/-- An event, the guards in force (outermost first) and the versions known after it. -/
structure Moment where
  event : Event
  guards : List Guard
  known : Versions

/-- The history of a circuit. -/
inductive Step where
  | moment (m : Moment)
  /-- A scope of versions; what was recorded about the variables `left` outlasts it. -/
  | scope (isCall : Bool) (left : List Variable) (steps : List Step)
  /-- Arguments or sides of a tuple, each of them an item that is evaluated and then assigned. -/
  | together (items : List Step)
  | item (steps : List Step)
  /-- An if statement that is carried out by the circuit: both branches and the place where they meet. -/
  | fork (taken other meet : List Step)
  /-- Public code goes one way or the other; `guard` is the circuit's guard, if it has one. -/
  | branches (guard : Option CircuitVar) (yes no : List Step)
  /-- Public code repeats the items in some order. -/
  | loop (items : List Step)

end Shroud
