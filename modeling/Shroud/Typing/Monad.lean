import Shroud.Typing.Coercion

/-!
# Checking with a memory

The checker changes the program while it walks through it. When it fails, the part it has changed so far
remains, so a failure does not undo anything: it is remembered, and every later step leaves its node alone.
-/

namespace Shroud

/-- A problem that does not stop the compiler. -/
structure Warning where
  title : String
  text : String
  place : Place

/-- The warning as it is logged. -/
def Warning.message (w : Warning) : String := w.title ++ w.place.situate w.text

/-- What the checker remembers: the declarations with their current types, the first failure, and the
warnings so far. -/
structure CheckState where
  symbols : Symbols
  failure : Option Error
  warnings : List Warning

abbrev CheckM := StateM CheckState

namespace CheckM

/-- Has the checker failed? -/
def stopped : CheckM Bool := do return (← get).failure.isSome

def symbols : CheckM Symbols := do return (← get).symbols

/-- Remember a failure and leave the node as it is. -/
def fail {α : Type} (e : Error) (node : α) : CheckM α := do
  modify fun s => { s with failure := s.failure.or (some e) }
  return node

def warn (w : Warning) : CheckM Unit := modify fun s => { s with warnings := s.warnings ++ [w] }

/-- Go on with a result, or fail and leave the node as it is. -/
def attempt {α β : Type} (x : Except Error α) (node : β) (next : α → CheckM β) : CheckM β :=
  match x with
  | .ok a => next a
  | .error e => fail e node

/-- Fail unless the condition holds. -/
def ensure {β : Type} (ok : Bool) (e : Error) (node : β) (next : CheckM β) : CheckM β :=
  if ok then next else fail e node

/-- Go on with a converted operand, or fail and leave the operand as the conversion left it. -/
def convert {β : Type} (c : Conversion) (put : Expr → β) (next : Expr → CheckM β) : CheckM β :=
  match c.result with
  | .ok e => next e
  | .error e => fail e (put c.operand)

/-- Go on with several converted operands. -/
def convertAll {β : Type} (c : List Expr × Except Error (List Expr)) (put : List Expr → β)
    (next : List Expr → CheckM β) : CheckM β :=
  match c.2 with
  | .ok es => next es
  | .error e => fail e (put c.1)

/-- Do a step on a node unless the checker has failed. -/
def unlessStopped {β : Type} (node : β) (step : CheckM β) : CheckM β := do
  if ← stopped then return node else step

def setType (id : Nat) (t : AnnTy) : CheckM Unit :=
  modify fun s => { s with symbols := s.symbols.setType id t }

def setFunction (f : FunctionDef) : CheckM Unit :=
  modify fun s => { s with symbols := s.symbols.setFunction f }

end CheckM

end Shroud
