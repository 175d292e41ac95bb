import Shroud.Analysis.Owner
import Shroud.Privacy.Capability

/-!
# Where expressions are evaluated

Operations on private values move into the circuit together with everything below them, and so do the
branches of an if statement with a private condition. Index keys stay public, and so does the public value
that is encrypted, unless it is a constant that the circuit can hold.

**Marks.** A node is marked by the last decision above it. A failure leaves the marks of the part that was
decided before; `cur` is the mark that the nodes above left for the current one.
-/

namespace Shroud

open CheckM

/-- Mark every node of the expression. -/
def Expr.marked (privately : Bool) (e : Expr) : Expr := e.mapInfos fun i => { i with privately := privately }

def Stmt.marked (privately : Bool) (s : Stmt) : Stmt := s.mapExprs (Expr.marked privately)

def Block.marked (privately : Bool) (b : Block) : Block := b.mapExprs (Expr.marked privately)

/-- The call has side effects, which a circuit cannot have. -/
def Symbols.isEffectful (symbols : Symbols) (e : Expr) : Bool :=
  match symbols.callHasEffects e with
  | .ok (some b) => b
  | _ => false

/-- The whole expression can move into a circuit. -/
def Expr.isMovable (symbols : Symbols) (e : Expr) : Bool :=
  (Node.exprs e.nodes).all fun x => !symbols.isEffectful x

def Info.inCircuit (i : Info) : Info := { i with privately := true }

mutual

/-- Move the expressions in a type into the circuit. -/
def Ty.moveIn (site : Site) : Ty → CheckM Ty
  | .mapping i k l v => do
    let k ← k.moveIn site
    return .mapping i k l (← v.moveIn site)
  | .array v none => do return .array (← v.moveIn site) none
  | .array v (some n) => do
    let v ← v.moveIn site
    return .array v (some (← n.moveIn site))
  | t => return t

def AnnTy.moveIn (site : Site) : AnnTy → CheckM AnnTy
  | ⟨t, p, h, a, d⟩ => do
    let t ← t.moveIn site
    return ⟨t, ← p.moveIn site, h, a, d⟩

def Info.moveTypeIn (site : Site) : Info → CheckM Info
  | ⟨i, p, some t, b, x⟩ => do return ⟨i, p, some (← t.moveIn site), b, x⟩
  | i => return i

/-- Move an expression into the circuit, node by node until a call with side effects. -/
def Expr.moveIn (site : Site) : Expr → CheckM Expr
  | .call i f as o k => do
    let e := Expr.call i f as o k
    if ← stopped then return e
    if (← symbols).isEffectful e then fail (site.atExpr e .privateSideEffects) e
    else
      let f ← f.moveIn site
      return .call i.inCircuit f (← Expr.moveAllIn site as) o k
  | .new i as => do
    if ← stopped then return .new i as
    let i ← i.moveTypeIn site
    return .new i.inCircuit (← Expr.moveAllIn site as)
  | .cast i t e b => do
    if ← stopped then return .cast i t e b
    let t ← t.moveIn site
    return .cast i.inCircuit t (← e.moveIn site) b
  | .arrayLit i vs k => do
    if ← stopped then return .arrayLit i vs k
    return .arrayLit i.inCircuit (← Expr.moveAllIn site vs) k
  | .tuple i es => do
    if ← stopped then return .tuple i es
    return .tuple i.inCircuit (← Expr.moveAllIn site es)
  | .member i e n t => do
    if ← stopped then return .member i e n t
    return .member i.inCircuit (← e.moveIn site) n t
  | .index i e k t => do
    if ← stopped then return .index i e k t
    let e ← e.moveIn site
    return .index i.inCircuit e (← k.moveIn site) t
  | .reclassify i m e p h => do
    if ← stopped then return .reclassify i m e p h
    let e ← e.moveIn site
    return .reclassify i.inCircuit m e (← p.moveIn site) h
  | e => unlessStopped e (return e.mapInfo Info.inCircuit)

def Expr.moveAllIn (site : Site) : List Expr → CheckM (List Expr)
  | [] => return []
  | e :: es => do
    let e ← e.moveIn site
    return e :: (← Expr.moveAllIn site es)

end

/-- Where an expression stands: its surroundings, what is known there, and whether it is inside an if
statement with a private condition. -/
structure PlaceContext where
  site : Site
  knowledge : Option Knowledge
  inPrivateIf : Bool
  foldConstants : Bool

/-- The label is known to be the sender. -/
def PlaceContext.isMe (c : PlaceContext) (p : Expr) : Bool :=
  match c.knowledge, p.label? with
  | some k, some l => k.same l .me
  | _, _ => false

/-- Constants and casts of them can be part of the circuit; other public values enter it as inputs. -/
def Expr.isConstant : Expr → Bool
  | .cast i t e b => (Expr.cast i t e b).checkedType.type.isLiteral || e.checkedType.type.isLiteral
  | e => e.checkedType.type.isLiteral

/-- Go on with the mark for the expression's parts. With `force` the whole expression moves into the
circuit. -/
def placing (c : PlaceContext) (cur force : Bool) (e : Expr) (next : Bool → CheckM Expr) :
    CheckM Expr := do
  if ← stopped then return e.marked cur
  if !force then next cur
  else if e.isMovable (← symbols) then next true
  else (e.marked cur).moveIn c.site

def Info.mark (i : Info) (privately : Bool) : Info := { i with privately := privately }

mutual

/-- Decide where the expressions in a type are evaluated. -/
def Ty.place (c : PlaceContext) (cur : Bool) : Ty → CheckM Ty
  | .mapping i k l v => do
    let k ← k.place c cur
    return .mapping i k l (← v.place c cur)
  | .array v none => do return .array (← v.place c cur) none
  | .array v (some n) => do
    let v ← v.place c cur
    return .array v (some (← n.place c cur))
  | t => return t

def AnnTy.place (c : PlaceContext) (cur : Bool) : AnnTy → CheckM AnnTy
  | ⟨t, p, h, a, d⟩ => do
    let t ← t.place c cur
    return ⟨t, ← p.place c cur, h, a, d⟩

def Info.placeType (c : PlaceContext) (cur : Bool) : Info → CheckM Info
  | ⟨i, p, some t, b, x⟩ => do return ⟨i, p, some (← t.place c cur), b, x⟩
  | i => return i

/-- Decide where an expression is evaluated. -/
def Expr.place (c : PlaceContext) (cur : Bool) : Expr → CheckM Expr
  | .call i f as o k =>
    let e := Expr.call i f as o k
    let force := (match f with
      | .operator _ _ isPrivate _ _ => isPrivate
      | _ => false) || (e.isCastCall && e.checkedType.isPrivate)
    placing c cur force e fun cur => do
      let f ← f.place c cur
      return .call (i.mark cur) f (← Expr.placeAll c cur as) o k
  | .new i as => placing c cur false (.new i as) fun cur => do
    let i ← i.placeType c cur
    return .new (i.mark cur) (← Expr.placeAll c cur as)
  | .cast i t e b => placing c cur e.checkedType.isPrivate (.cast i t e b) fun cur => do
    let t ← t.place c cur
    return .cast (i.mark cur) t (← e.place c cur) b
  | .arrayLit i vs k => placing c cur false (.arrayLit i vs k) fun cur => do
    return .arrayLit (i.mark cur) (← Expr.placeAll c cur vs) k
  | .tuple i es => placing c cur false (.tuple i es) fun cur => do
    return .tuple (i.mark cur) (← Expr.placeAll c cur es)
  | .member i e n t => placing c cur false (.member i e n t) fun cur => do
    return .member (i.mark cur) (← e.place c cur) n t
  | .index i e k t => placing c cur false (.index i e k t) fun cur => do
    let e ← e.place c cur
    return .index (i.mark cur) e (← k.place c false) t
  | .reclassify i m e p h => do
    let whole := Expr.reclassify i m e p h
    if ← stopped then return whole.marked cur
    if c.inPrivateIf && !c.isMe p then
      fail (c.site.atExpr whole .privateIfReveals) (whole.marked cur)
    else if e.checkedType.isPrivate then
      placing c cur true whole fun _ => do
        return .reclassify i.inCircuit m (← e.place c true) (p.marked true) h
    else
      let s ← symbols
      let movable := whole.isMovable s
      let inCircuit := movable && (e.marked true).isInlineable s && c.foldConstants && e.isConstant
      return .reclassify i.inCircuit m (← e.place c inCircuit) (p.marked (movable || cur)) h
  | e => return e.marked cur

def Expr.placeAll (c : PlaceContext) (cur : Bool) : List Expr → CheckM (List Expr)
  | [] => return []
  | e :: es => do
    let e ← e.place c cur
    return e :: (← Expr.placeAll c cur es)

end

/-- The body that is worked on. -/
structure BodyPlace where
  site : Site
  inPrivateIf : Bool
  foldConstants : Bool

namespace BodyPlace

/-- Where the expressions of a statement stand. -/
def around (b : BodyPlace) (s : Stmt) : PlaceContext :=
  ⟨{ b.site with stmt := some s }, s.info.before, b.inPrivateIf, b.foldConstants⟩

def inside (b : BodyPlace) : BodyPlace := { b with inPrivateIf := true }

end BodyPlace

/-- Why the branches of a private if statement cannot move into the circuit: they may only write plain
variables, and of those that outlive the statement only the sender's. -/
def privateIfFault? (symbols : Symbols) (whole : Stmt) (branches : List Block) : Option Fault :=
  let written := Loc.union [] (branches.flatMap (·.info.writes))
  let declared := branches.flatMap fun b => b.locals.map (·.id)
  let k := whole.info.before
  (written.findSome? fun l =>
    let plain := ((symbols.type? l.target).map (·.sourceType.type.isPrimitive)).getD false
    if !plain then some Fault.privateIfReference
    else if !declared.contains l.target.id && !l.isMine symbols k then some .privateIfForeign
    else none)

/-- All expressions of the blocks can move into a circuit. -/
def Block.isMovable (symbols : Symbols) (b : Block) : Bool :=
  b.subexprsInPlace.all fun (_, e) => !symbols.isEffectful e

/-- Move all expressions of a statement into the circuit, up to the first call with side effects. -/
def Stmt.moveIn (site : Site) (s : Stmt) : CheckM Stmt :=
  s.traverse (fun s e => e.moveIn { site with stmt := some s }) fun s t => t.moveIn { site with stmt := some s }

/-- Decide about an if statement with a private condition. -/
def placingIf (b : BodyPlace) (cur : Bool) (cond : Expr) (whole : Stmt) (branches : List Block)
    (next : BodyPlace → Bool → CheckM Stmt) : CheckM Stmt := do
  if ← stopped then return whole.marked cur
  if !cond.checkedType.isPrivate then next b cur
  else
    let s ← symbols
    match privateIfFault? s whole branches with
    | some fault => fail (b.site.atStmt whole fault) (whole.marked cur)
    | none =>
      if cond.isMovable s && branches.all (·.isMovable s) then next b.inside true
      else (whole.marked cur).moveIn b.site

mutual

/-- Decide where the expressions of a statement are evaluated. -/
def Stmt.place (b : BodyPlace) (cur : Bool) : Stmt → CheckM Stmt
  | .ifThen i c t none =>
    let whole := Stmt.ifThen i c t none
    placingIf b cur c whole [t] fun b cur => do
      let c ← c.place (b.around whole) cur
      return .ifThen i c (← t.place b cur) none
  | .ifThen i c t (some e) =>
    let whole := Stmt.ifThen i c t (some e)
    placingIf b cur c whole [t, e] fun b cur => do
      let c ← c.place (b.around whole) cur
      let t ← t.place b cur
      return .ifThen i c t (some (← e.place b cur))
  | .whileLoop i c body => do
    let c' ← c.place (b.around (.whileLoop i c body)) cur
    return .whileLoop i c' (← body.place b cur)
  | .doWhile i body c => do
    let body' ← body.place b cur
    return .doWhile i body' (← c.place (b.around (.doWhile i body c)) cur)
  | .forLoop i init c update body => do
    let init' ← (match init with
      | none => return none
      | some s => do return some (← s.place b cur))
    let c' ← c.place (b.around (.forLoop i init c update body)) cur
    let update' ← (match update with
      | none => return none
      | some s => do return some (← s.place b cur))
    return .forLoop i init' c' update' (← body.place b cur)
  | .ret i none => return .ret i none
  | .ret i (some e) => do return .ret i (some (← e.place (b.around (.ret i (some e))) cur))
  | .eval i e => do return .eval i (← e.place (b.around (.eval i e)) cur)
  | .require i e => do return .require i (← e.place (b.around (.require i e)) cur)
  | .assign i l r o x => do
    let c := b.around (.assign i l r o x)
    let l ← l.place c cur
    return .assign i l (← r.place c cur) o x
  | .declare i v none => do
    let t ← v.type.place (b.around (.declare i v none)) cur
    return .declare i { v with type := t } none
  | .declare i v (some e) => do
    let c := b.around (.declare i v (some e))
    let t ← v.type.place c cur
    return .declare i { v with type := t } (some (← e.place c cur))
  | .block body => do return .block (← body.place b cur)
  | .seq i ss x => do return .seq i (← Stmt.placeAll b cur ss) x
  | s => return s

def Block.place (b : BodyPlace) (cur : Bool) : Block → CheckM Block
  | ⟨i, ss, x⟩ => do return ⟨i, ← Stmt.placeAll b cur ss, x⟩

def Stmt.placeAll (b : BodyPlace) (cur : Bool) : List Stmt → CheckM (List Stmt)
  | [] => return []
  | s :: ss => do
    let s ← s.place b cur
    return s :: (← Stmt.placeAll b cur ss)

end

/-- Decide for all functions. -/
def SourceUnit.place (u : SourceUnit) (foldConstants : Bool) : SourceUnit × Option Error :=
  let visit (c : Contract) (f : FunctionDef) : CheckM FunctionDef := do
    let site : Site := ⟨some u.text, some c.name, some f.title, none⟩
    return { f with body := ← f.body.place ⟨site, false, foldConstants⟩ false }
  let run : CheckM (List Contract) := u.contracts.mapM fun c => do
    let constructors ← c.constructors.mapM (visit c)
    let functions ← c.functions.mapM (visit c)
    return { c with constructors, functions }
  let (contracts, s) := run.run ⟨u.symbols, none, []⟩
  ({ u with contracts := contracts }, s.failure)

end Shroud
