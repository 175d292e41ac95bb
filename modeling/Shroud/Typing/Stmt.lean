import Shroud.Typing.Expr

/-!
# Types of statements

A statement is checked after its parts. Values are converted where they are stored or returned, conditions
are truth values, and final variables are assigned in constructors only.

**Knowledge.** The expressions of a statement are checked with what is known before it.
-/

namespace Shroud

open CheckM

/-- The function whose body is checked. -/
structure BodyContext where
  site : Site
  isConstructor : Bool
  returns : List Param

namespace BodyContext

/-- The surroundings of a part of a statement. -/
def around {α : Type} (b : BodyContext) (put : α → Stmt) (x : α) : Site :=
  { b.site with stmt := some (put x) }

/-- The context of an expression directly below a statement. -/
def expr (b : BodyContext) (i : StmtInfo) (put : Expr → Stmt) : CheckContext := ⟨i.before, b.around put⟩

end BodyContext

/-- The condition is a truth value. -/
def checkCondition (site : Site) (c : Expr) : Except Error Unit :=
  if c.convertsTo .bool then .ok ()
  else .error (site.atExpr c (.mismatch (.bare .bool) (.bare c.checkedType.type)))

/-- The condition of a branch is public or owned by the sender. -/
def checkBranchCondition (k : Option Knowledge) (site : Site) (c : Expr) : Except Error Unit := do
  checkCondition site c
  if c.checkedType.isPrivate then
    let owned := AnnTy.owned .bool .meLabel .nonHomomorphic
    if (← c.fits k owned) == .no then
      throw (site.atExpr c (.mismatch (.full owned) (.full c.checkedType)))

/-- No assigned variable is final, except for state variables in a constructor. -/
def Expr.checkAssignable (symbols : Symbols) (b : BodyContext) (site : Site) : Expr → Except Error Unit
  | .tuple _ es => checkAll es
  | .ident i n t =>
    match t.bind symbols.decl? with
    | some (.variable k name ks type) =>
      let d := Decl.variable k name ks type
      if d.isFixed && !(k == .stateVar && b.isConstructor) then
        let keyword := if ks.contains "final" then "final" else "constant"
        .error (site.atExpr (.ident i n t) (.assignFixed keyword n.name))
      else .ok ()
    | _ => .ok ()
  | _ => .ok ()
where
  checkAll : List Expr → Except Error Unit
    | [] => .ok ()
    | e :: es => do
      e.checkAssignable symbols b site
      checkAll es

/-- Store a value in a location. -/
def typeAssign (b : BodyContext) (i : StmtInfo) (l r : Expr) (op : String) (isInput : Bool) :
    CheckM Stmt := do
  let put (x : Expr) : Stmt := .assign i l x op isInput
  let s ← symbols
  let isTarget := l.isLocation || l matches .tuple ..
  ensure isTarget ((b.around put r).atExpr l .notLocation) (put r) <|
    convert (r.coerce s i.before (b.around put) true l.checkedType) put fun r =>
      attempt (l.checkAssignable s b (b.around put r)) (put r) fun _ => return put r

/-- Return a value. The returned values always form a tuple. -/
def typeReturn (b : BodyContext) (i : StmtInfo) (value : Option Expr) : CheckM Stmt := do
  let whole := Stmt.ret i value
  let s ← symbols
  let ts := b.returns.map (·.type)
  let expected := AnnTy.plain (.tuple ts)
  let mismatch := Site.detached.atDecl (.mismatch (.full expected) .missing)
  ensure (!b.isConstructor) ((b.around id whole).atStmt whole .constructorReturns) whole <|
    match value with
    | none => ensure ts.isEmpty mismatch whole (return whole)
    | some (.tuple ti es) =>
      let put (x : Expr) : Stmt := .ret i (some x)
      convert ((Expr.tuple ti es).coerce s i.before (b.around put) true expected) put fun e => return put e
    | some e =>
      let put (xs : List Expr) : Stmt := .ret i xs.head?
      ensure (ts.length == 1) mismatch whole <|
        convertAll (Expr.coerceAll s i.before (b.around put) [] [e] ts) put fun es => do
          let t := AnnTy.plain (.tuple (es.map Expr.checkedType))
          let tuple := Expr.tuple { Info.synthetic with type := some t } es
          attempt (tuple.hasEffects s) whole fun _ => return .ret i (some tuple)

/-- Check the type of a local variable. -/
def LocalVar.check (k : Option Knowledge) (spot : LocalVar → Site) (v : LocalVar) : CheckM LocalVar := do
  let t ← v.type.check k fun x => spot { v with type := x }
  setType v.id t
  return { v with type := t }

/-- Declare a local variable. -/
def typeDeclare (b : BodyContext) (i : StmtInfo) (v : LocalVar) (init : Option Expr) : CheckM Stmt := do
  if ← stopped then return .declare i v init
  let v ← v.check i.before (b.around fun v => .declare i v init)
  match init with
  | none => return .declare i v none
  | some e =>
    let put (x : Expr) : Stmt := .declare i v (some x)
    let e ← e.check (b.expr i put)
    unlessStopped (put e) do
      convert (e.coerce (← symbols) i.before (b.around put) true v.type) put fun e => return put e

mutual

/-- Check a statement and everything below it. -/
def Stmt.check (b : BodyContext) : Stmt → CheckM Stmt
  | .ifThen i c t none => do
    let c ← c.check (b.expr i fun x => .ifThen i x t none)
    let t ← t.check b
    let whole := Stmt.ifThen i c t none
    unlessStopped whole <|
      attempt (checkBranchCondition i.before (b.around id whole) c) whole fun _ => return whole
  | .ifThen i c t (some e) => do
    let c ← c.check (b.expr i fun x => .ifThen i x t (some e))
    let t ← t.check b
    let e ← e.check b
    let whole := Stmt.ifThen i c t (some e)
    unlessStopped whole <|
      attempt (checkBranchCondition i.before (b.around id whole) c) whole fun _ => return whole
  | .whileLoop i c body => do
    let c ← c.check (b.expr i fun x => .whileLoop i x body)
    let body ← body.check b
    let whole := Stmt.whileLoop i c body
    unlessStopped whole <| attempt (checkCondition (b.around id whole) c) whole fun _ => return whole
  | .doWhile i body c => do
    let body ← body.check b
    let c ← c.check (b.expr i fun x => .doWhile i body x)
    let whole := Stmt.doWhile i body c
    unlessStopped whole <| attempt (checkCondition (b.around id whole) c) whole fun _ => return whole
  | .forLoop i init c update body => do
    let init ← (match init with
      | none => return none
      | some s => do return some (← s.check b))
    let c ← c.check (b.expr i fun x => .forLoop i init x update body)
    let update ← (match update with
      | none => return none
      | some s => do return some (← s.check b))
    let body ← body.check b
    let whole := Stmt.forLoop i init c update body
    unlessStopped whole <| attempt (checkCondition (b.around id whole) c) whole fun _ => return whole
  | .ret i none => unlessStopped (.ret i none) (typeReturn b i none)
  | .ret i (some e) => do
    let e ← e.check (b.expr i fun x => .ret i (some x))
    unlessStopped (.ret i (some e)) (typeReturn b i (some e))
  | .eval i e => do return .eval i (← e.check (b.expr i fun x => .eval i x))
  | .require i c => do
    let c ← c.check (b.expr i fun x => .require i x)
    let whole := Stmt.require i c
    let site := b.around id whole
    unlessStopped whole <|
      ensure c.checkedType.isPublic (site.atStmt whole .privateRequire) whole <|
        attempt (checkCondition site c) whole fun _ => return whole
  | .assign i l r o x => do
    let l ← l.check (b.expr i fun y => .assign i y r o x)
    let r ← r.check (b.expr i fun y => .assign i l y o x)
    unlessStopped (.assign i l r o x) (typeAssign b i l r o x)
  | .declare i v e => typeDeclare b i v e
  | .block body => do return .block (← body.check b)
  | .seq i ss x => do return .seq i (← Stmt.checkAll b ss) x
  | s => return s

def Block.check (b : BodyContext) : Block → CheckM Block
  | ⟨i, ss, x⟩ => do return ⟨i, ← Stmt.checkAll b ss, x⟩

def Stmt.checkAll (b : BodyContext) : List Stmt → CheckM (List Stmt)
  | [] => return []
  | s :: ss => do
    let s ← s.check b
    return s :: (← Stmt.checkAll b ss)

end

end Shroud
