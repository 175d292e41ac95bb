import Shroud.Syntax.Node

/-!
# Visiting expressions

Changing every node of an expression, and every expression and declared type of a statement, in the order of
the text. The types that are written inside an expression are left alone.
-/

namespace Shroud

mutual

/-- Rebuild an expression from its leaves upwards; `f` sees every node after the nodes below it. -/
def Expr.bottomUp {m : Type → Type} [Monad m] (f : Expr → m Expr) : Expr → m Expr
  | .call i g as o k => do
    let g ← g.bottomUp f
    f (.call i g (← Expr.bottomUpAll f as) o k)
  | .new i as => do f (.new i (← Expr.bottomUpAll f as))
  | .cast i t e b => do f (.cast i t (← e.bottomUp f) b)
  | .arrayLit i vs k => do f (.arrayLit i (← Expr.bottomUpAll f vs) k)
  | .tuple i es => do f (.tuple i (← Expr.bottomUpAll f es))
  | .member i e n t => do f (.member i (← e.bottomUp f) n t)
  | .index i e k t => do
    let e ← e.bottomUp f
    f (.index i e (← k.bottomUp f) t)
  | .reclassify i m e p h => do
    let e ← e.bottomUp f
    f (.reclassify i m e (← p.bottomUp f) h)
  | e => f e

def Expr.bottomUpAll {m : Type → Type} [Monad m] (f : Expr → m Expr) : List Expr → m (List Expr)
  | [] => return []
  | e :: es => do
    let e ← e.bottomUp f
    return e :: (← Expr.bottomUpAll f es)

end

/-- Change what every node of the expression carries. -/
def Expr.mapInfos (f : Info → Info) (e : Expr) : Expr := Id.run (e.bottomUp fun x => pure (x.mapInfo f))

/-- Put a node in the place of the one with its number. -/
def Expr.revise (node : Expr) (e : Expr) : Expr :=
  Id.run (e.bottomUp fun x => pure (if x.id == node.id then node else x))

/-- The node with this number. -/
def Expr.nodeWith? (id : Nat) (e : Expr) : Option Expr := e.subexprs.find? (·.id == id)

mutual

/-- Change every expression of a statement with `f` and every declared type with `g`, given the statement
directly around it. -/
def Stmt.traverse {m : Type → Type} [Monad m] (f : Stmt → Expr → m Expr) (g : Stmt → AnnTy → m AnnTy) :
    Stmt → m Stmt
  | .ifThen i c t none => do
    let c' ← f (.ifThen i c t none) c
    return .ifThen i c' (← t.traverse f g) none
  | .ifThen i c t (some e) => do
    let c' ← f (.ifThen i c t (some e)) c
    let t' ← t.traverse f g
    return .ifThen i c' t' (some (← e.traverse f g))
  | .whileLoop i c b => do
    let c' ← f (.whileLoop i c b) c
    return .whileLoop i c' (← b.traverse f g)
  | .doWhile i b c => do
    let b' ← b.traverse f g
    return .doWhile i b' (← f (.doWhile i b c) c)
  | .forLoop i a c u b => do
    let a' ← (match a with
      | none => pure none
      | some s => do return some (← s.traverse f g))
    let c' ← f (.forLoop i a c u b) c
    let u' ← (match u with
      | none => pure none
      | some s => do return some (← s.traverse f g))
    return .forLoop i a' c' u' (← b.traverse f g)
  | .ret i none => return .ret i none
  | .ret i (some e) => do return .ret i (some (← f (.ret i (some e)) e))
  | .eval i e => do return .eval i (← f (.eval i e) e)
  | .require i e => do return .require i (← f (.require i e) e)
  | .assign i l r o b => do
    let l' ← f (.assign i l r o b) l
    return .assign i l' (← f (.assign i l r o b) r) o b
  | .declare i v none => do
    let t ← g (.declare i v none) v.type
    return .declare i { v with type := t } none
  | .declare i v (some e) => do
    let t ← g (.declare i v (some e)) v.type
    return .declare i { v with type := t } (some (← f (.declare i v (some e)) e))
  | .block b => do return .block (← b.traverse f g)
  | .seq i ss x => do return .seq i (← Stmt.traverseAll f g ss) x
  | s => return s

def Block.traverse {m : Type → Type} [Monad m] (f : Stmt → Expr → m Expr) (g : Stmt → AnnTy → m AnnTy) :
    Block → m Block
  | ⟨i, ss, b⟩ => do return ⟨i, ← Stmt.traverseAll f g ss, b⟩

def Stmt.traverseAll {m : Type → Type} [Monad m] (f : Stmt → Expr → m Expr) (g : Stmt → AnnTy → m AnnTy) :
    List Stmt → m (List Stmt)
  | [] => return []
  | s :: ss => do
    let s ← s.traverse f g
    return s :: (← Stmt.traverseAll f g ss)

end

/-- Change every expression of a statement. -/
def Stmt.mapExprs (f : Expr → Expr) (s : Stmt) : Stmt :=
  Id.run (s.traverse (fun _ e => pure (f e)) fun _ t => pure t)

def Block.mapExprs (f : Expr → Expr) (b : Block) : Block :=
  Id.run (b.traverse (fun _ e => pure (f e)) fun _ t => pure t)

/-- All expressions of a block with the statements directly around them. -/
def Block.exprsInPlace (b : Block) : List (Stmt × Expr) :=
  ((b.traverse (fun s e => do
    modify (· ++ [(s, e)])
    return e) (fun _ t => pure t) : StateM (List (Stmt × Expr)) Block).run []).2

/-- All subexpressions of a block, those within types included, with the statements directly around them. -/
def Block.subexprsInPlace (b : Block) : List (Stmt × Expr) :=
  let found (s : Stmt) (ns : List Node) : StateM (List (Stmt × Expr)) Unit :=
    modify (· ++ (Node.exprs ns).map fun x => (s, x))
  ((b.traverse (fun s e => do
    found s e.nodes
    return e) (fun s t => do
    found s t.nodes
    return t) : StateM (List (Stmt × Expr)) Block).run []).2

end Shroud
