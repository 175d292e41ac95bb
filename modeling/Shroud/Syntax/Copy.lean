import Shroud.Symbol.Link
import Shroud.Syntax.Traverse

/-!
# Copies of code

A copy shares no node and no declared variable with the code it is made from. Its names are resolved anew
from the place where the code stands, so a name that is declared inside the code leads to the copied
declaration.

**What is kept.** Positions, evaluation marks and accessed locations are always kept. Types of expressions
and knowledge about labels are kept on request; names and literals have their types in any case.
-/

namespace Shroud

/-- What a copy keeps besides the code itself. -/
structure Fidelity where
  types : Bool
  knowledge : Bool

/-- Everything that can be kept is kept. -/
def Fidelity.full : Fidelity := ⟨true, true⟩

/-- Hand out a number. -/
def freshNumber : StateM Nat Nat := fun n => (n, n + 1)

/-- Give every node of an expression a number of its own. -/
def Expr.renumber (e : Expr) : StateM Nat Expr := e.bottomUp fun x => do
  let n ← freshNumber
  return x.mapInfo fun i => { i with id := n }

def Block.renumber (b : Block) : StateM Nat Block := b.traverse (fun _ e => e.renumber) fun _ t => pure t

/-- The copy of a single node; the nodes below it are copies already. -/
def Expr.copyNode (types : Bool) (e : Expr) : StateM Nat Expr := do
  let n ← freshNumber
  let kept (i : Info) : Info := { i with id := n, type := if types then i.type else none, inlined := false }
  return match e with
    | .operator i o p h _ => .operator { Info.numbered n with pos := i.pos } o p h none
    | .call i f as o _ => .call (kept i) f as o none
    | .ident i name _ => .ident { kept i with type := i.type } name none
    | .member i b name _ => .member (kept i) b name none
    | .index i b k _ => .index (kept i) b k none
    | .boolLit i v => .boolLit { kept i with type := if types then i.type else some (.plain (.boolLit v)) } v
    | .numLit i v h =>
      .numLit { kept i with type := if types then i.type else some (.plain (.numLit v)) } v h
    | .new i as => .new { kept i with type := i.type } as
    | .reclassify i .rehom e p h => .reclassify (kept i) .rehom e (.me (Info.numbered p.id)) h
    | e => e.mapInfo kept

def Expr.copy (types : Bool) (e : Expr) : StateM Nat Expr := e.bottomUp (Expr.copyNode types)

def LocalVar.copy (v : LocalVar) : StateM Nat LocalVar := do return { v with id := ← freshNumber }

def StmtInfo.copy (f : Fidelity) (i : StmtInfo) : StmtInfo :=
  { i with before := if f.knowledge then i.before else none, after := none }

mutual

def Stmt.copy (f : Fidelity) : Stmt → StateM Nat Stmt
  | .ifThen i c t none => do
    let c ← c.copy f.types
    return .ifThen (i.copy f) c (← t.copy f) none
  | .ifThen i c t (some e) => do
    let c ← c.copy f.types
    let t ← t.copy f
    return .ifThen (i.copy f) c t (some (← e.copy f))
  | .whileLoop i c b => do
    let c ← c.copy f.types
    return .whileLoop (i.copy f) c (← b.copy f)
  | .doWhile i b c => do
    let b ← b.copy f
    return .doWhile (i.copy f) b (← c.copy f.types)
  | .forLoop i a c u b => do
    let a ← (match a with
      | none => return none
      | some s => do return some (← s.copy f))
    let c ← c.copy f.types
    let u ← (match u with
      | none => return none
      | some s => do return some (← s.copy f))
    return .forLoop (i.copy f) a c u (← b.copy f)
  | .breakLoop i => return .breakLoop (i.copy f)
  | .continueLoop i => return .continueLoop (i.copy f)
  | .ret i none => return .ret (i.copy f) none
  | .ret i (some e) => do return .ret (i.copy f) (some (← e.copy f.types))
  | .eval i e => do return .eval (i.copy f) (← e.copy f.types)
  | .require i e => do return .require (i.copy f) (← e.copy f.types)
  | .assign i l r o b => do
    let l ← l.copy f.types
    return .assign (i.copy f) l (← r.copy f.types) o b
  | .declare i v none => do return .declare (i.copy f) (← v.copy) none
  | .declare i v (some e) => do
    let v ← v.copy
    return .declare (i.copy f) v (some (← e.copy f.types))
  | .block b => do return .block (← b.copy f)
  | .seq i ss x => do return .seq (i.copy f) (← Stmt.copyAll f ss) x
  | .compute i v => return .compute (i.copy f) v
  | .enterKey i b => return .enterKey (i.copy f) b
  | .comment t => return .comment t
  | .blank => return .blank

def Block.copy (f : Fidelity) : Block → StateM Nat Block
  | ⟨i, ss, b⟩ => do return ⟨i.copy f, ← Stmt.copyAll f ss, b⟩

def Stmt.copyAll (f : Fidelity) : List Stmt → StateM Nat (List Stmt)
  | [] => return []
  | s :: ss => do
    let s ← s.copy f
    return s :: (← Stmt.copyAll f ss)

end

/-- Declarations of copied variables join the known ones. -/
def Symbols.addLocals (s : Symbols) (vs : List LocalVar) : Symbols := ⟨vs.map Decl.ofLocal ++ s.entries⟩

/-- Copy a block and resolve the names of the copy. -/
def Block.duplicate (c : LinkContext) (f : Fidelity) (b : Block) : LinkM Block := do
  let s ← get
  let (copy, next) := (b.copy f).run s.next
  set (⟨s.symbols.addLocals copy.locals, next⟩ : LinkState)
  copy.checkNames
  copy.link c

end Shroud
