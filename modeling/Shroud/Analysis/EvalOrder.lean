import Shroud.Analysis.Effects

/-!
# Independence of the evaluation order

The operands of an expression may be evaluated in any order, so no two of them may write the same location
and none may write what another one reads. Operators that choose which operand to evaluate are exempt.
-/

namespace Shroud

/-- An operand: the locations it writes and reads, and how to complain about it. -/
structure Operand where
  complain : Fault → Error
  access : Access

/-- What is needed to check expressions: the declarations, the written forms of all keys by number, and the
place. In the type of a declaration (`declared`) only what functions access counts. -/
structure OrderContext where
  symbols : Symbols
  keys : List (Nat × String)
  site : Site
  declared : Bool

namespace OrderContext

/-- The written form of a location in a message. -/
def describe (c : OrderContext) (l : Loc) : String :=
  l.name ++ (match l.key with
    | none => ""
    | some (.member _ n) => "." ++ n
    | some (.keyword k) => "." ++ k.name
    | some (.index i _) => "." ++ (c.keys.lookup i).getD "")

/-- What code accesses, given the locations it mentions and the functions it calls. -/
def access (c : OrderContext) (reads : List Loc) (callees : List FunctionDef) : Access :=
  Access.add ⟨[], if c.declared then [] else Loc.union [] reads⟩ (.ofCallees callees)

/-- An operand; `written` tells whether it is assigned to. -/
def operand (c : OrderContext) (written : Bool) (e : Expr) : Operand :=
  ⟨c.site.atExpr e, c.access (e.reads written) (e.callees c.symbols)⟩

/-- A type that stands beside operands. -/
def typeOperand (c : OrderContext) (t : Ty) : Operand :=
  ⟨c.site.atDecl, c.access t.reads (t.callees c.symbols)⟩

/-- The type in front of the arguments of an allocation. -/
def newOperands (c : OrderContext) (i : Info) : List Operand :=
  (i.type.map fun t => Operand.mk c.site.atDecl (c.access t.reads (t.callees c.symbols))).toList

/-- The first operand that writes what an earlier one writes. -/
def writtenAgain : List Loc → List Operand → List Loc
  | _, [] => []
  | seen, o :: os =>
    let twice := o.access.writes.filter seen.contains
    if twice.isEmpty then writtenAgain (Loc.union seen o.access.writes) os else twice

/-- The first pair of operands of which one writes what the other reads. -/
def interfering? (c : List Operand) : List (Nat × Operand) → Option (Operand × List Loc)
  | [] => none
  | (i, o) :: rest =>
    let hits := ((List.range c.length).zip c).filterMap fun (j, p) =>
      let both := o.access.writes.filter p.access.reads.contains
      if j == i || both.isEmpty then none else some both
    match hits with
    | h :: _ => some (o, h)
    | [] => interfering? c rest

/-- Operands that stand side by side. `complain` locates a complaint about all of them. -/
def siblings (c : OrderContext) (complain : Fault → Error) (os : List Operand) : Except Error Unit :=
  if os.length < 2 then .ok ()
  else match writtenAgain [] os with
    | l :: ls => .error (complain (.writtenTwice ((l :: ls).map c.describe)))
    | [] =>
      match interfering? os ((List.range os.length).zip os) with
      | some (o, ls) => .error (o.complain (.writtenAndRead (ls.map c.describe)))
      | none => .ok ()

/-- The parts of one expression side by side. -/
def parts (c : OrderContext) (e : Expr) (written : Bool) (es : List Expr) : Except Error Unit :=
  c.siblings (c.site.atExpr e) (es.map (c.operand written))

end OrderContext

mutual

/-- No expression in the type depends on the evaluation order. -/
def Ty.checkOrder (c : OrderContext) : Ty → Except Error Unit
  | .mapping _ k _ v => do
    k.checkOrder c
    v.checkOrder c
  | .array v none => v.checkOrder c
  | .array v (some n) => do
    v.checkOrder c
    n.checkOrder c false
  | _ => .ok ()

def AnnTy.checkOrder (c : OrderContext) : AnnTy → Except Error Unit
  | ⟨t, p, _, _, _⟩ => do
    t.checkOrder c
    p.checkOrder c false

def Info.checkTypeOrder (c : OrderContext) : Info → Except Error Unit
  | ⟨_, _, some t, _, _⟩ => t.checkOrder c
  | ⟨_, _, none, _, _⟩ => .ok ()

/-- No part of the expression depends on the evaluation order. -/
def Expr.checkOrder (c : OrderContext) (written : Bool) : Expr → Except Error Unit
  | .call i f as o k => do
    f.checkOrder c false
    Expr.checkOrderAll c false as
    match f with
    | .operator _ op _ _ _ =>
      if op.shortCircuits then .ok () else c.parts (.call i f as o k) false as
    | _ => c.parts (.call i f as o k) false as
  | .new i as => do
    i.checkTypeOrder c
    Expr.checkOrderAll c false as
    c.siblings (c.site.atExpr (.new i as)) (c.newOperands i ++ as.map (c.operand false))
  | .cast i t e b => do
    t.checkOrder c
    e.checkOrder c false
    c.siblings (c.site.atExpr (.cast i t e b)) [c.typeOperand t, c.operand false e]
  | .arrayLit i vs k => do
    Expr.checkOrderAll c false vs
    c.parts (.arrayLit i vs k) false vs
  | .tuple i es => do
    Expr.checkOrderAll c written es
    c.parts (.tuple i es) written es
  | .member _ b _ _ => b.checkOrder c written
  | .index i b k t => do
    b.checkOrder c written
    k.checkOrder c false
    c.siblings (c.site.atExpr (.index i b k t)) [c.operand written b, c.operand false k]
  | .reclassify i m e p h => do
    e.checkOrder c false
    p.checkOrder c false
    c.parts (.reclassify i m e p h) false [e, p]
  | _ => .ok ()

def Expr.checkOrderAll (c : OrderContext) (written : Bool) : List Expr → Except Error Unit
  | [] => .ok ()
  | e :: es => do
    e.checkOrder c written
    Expr.checkOrderAll c written es

end

/-- Check one expression of a statement. -/
def OrderContext.inStmt (c : OrderContext) (s : Stmt) (written : Bool) (e : Expr) : Except Error Unit :=
  e.checkOrder { c with site := { c.site with stmt := some s } } written

mutual

def Stmt.checkOrder (c : OrderContext) : Stmt → Except Error Unit
  | .ifThen i e t none => do
    c.inStmt (.ifThen i e t none) false e
    t.checkOrder c
  | .ifThen i e t (some f) => do
    c.inStmt (.ifThen i e t (some f)) false e
    t.checkOrder c
    f.checkOrder c
  | .whileLoop i e b => do
    c.inStmt (.whileLoop i e b) false e
    b.checkOrder c
  | .doWhile i b e => do
    b.checkOrder c
    c.inStmt (.doWhile i b e) false e
  | .forLoop i init e update b => do
    match init with
    | none => .ok ()
    | some s => s.checkOrder c
    c.inStmt (.forLoop i init e update b) false e
    match update with
    | none => .ok ()
    | some s => s.checkOrder c
    b.checkOrder c
  | .ret i (some e) => c.inStmt (.ret i (some e)) false e
  | .eval i e => c.inStmt (.eval i e) false e
  | .require i e => c.inStmt (.require i e) false e
  | .assign i l r o b => do
    let s := Stmt.assign i l r o b
    c.inStmt s true l
    c.inStmt s false r
    let c := { c with site := { c.site with stmt := some s } }
    c.siblings (c.site.atStmt s) [c.operand true l, c.operand false r]
  | .declare i v e => do
    let c := { c with site := { c.site with stmt := some (.declare i v e) } }
    v.type.checkOrder { c with declared := true }
    match e with
    | none => .ok ()
    | some e => e.checkOrder c false
  | .block b => b.checkOrder c
  | .seq _ ss _ => Stmt.checkOrderAll c ss
  | _ => .ok ()

def Block.checkOrder (c : OrderContext) : Block → Except Error Unit
  | ⟨_, ss, _⟩ => Stmt.checkOrderAll c ss

def Stmt.checkOrderAll (c : OrderContext) : List Stmt → Except Error Unit
  | [] => .ok ()
  | s :: ss => do
    s.checkOrder c
    Stmt.checkOrderAll c ss

end

/-- The written forms of all keys of index expressions, by number. -/
def SourceUnit.keyCodes (u : SourceUnit) : List (Nat × String) := u.nodes.filterMap fun
  | .expr (.index _ _ k _) => some (k.id, k.code)
  | _ => none

/-- No expression of the program depends on the evaluation order. -/
def SourceUnit.checkOrder (u : SourceUnit) : Except Error Unit := do
  let symbols := u.symbols
  let keys := u.keyCodes
  for c in u.contracts do
    for f in c.allFunctions do
      f.body.checkOrder ⟨symbols, keys, ⟨some u.text, some c.name, some f.title, none⟩, false⟩

end Shroud
