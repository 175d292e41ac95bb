import Shroud.Typing.Monad

/-!
# Types of expressions

Every expression gets the type of its value. Operators on public values work as usual; if an operand
belongs to the sender the operation moves into the circuit, and if one belongs to somebody else it has to be
an operation on ciphertexts.

**Constants** are folded: an operator on literals has a literal type.
-/

namespace Shroud

/-- Where an expression is checked: what is known about owners, and the surroundings. -/
structure CheckContext where
  knowledge : Option Knowledge
  spot : Spot

namespace CheckContext

/-- The context of a part of an expression. -/
def part (c : CheckContext) (put : Expr → Expr) : CheckContext := { c with spot := fun e => c.spot (put e) }

/-- A complaint about the expression in its current form. -/
def complain (c : CheckContext) (whole blamed : Expr) (f : Fault) : Error := (c.spot whole).atExpr blamed f

end CheckContext

open CheckM

/-! ## Types -/

/-- Only final or constant public addresses can own values. -/
def checkOwner (symbols : Symbols) (site : Site) (p : Expr) : Except Error Unit :=
  match p with
  | .ident _ _ (some (.keyLabel _ _)) => .ok ()
  | .ident _ _ t =>
    match t.bind symbols.decl? with
    | some (.variable k n ks type) =>
      if !(Decl.variable k n ks type).isFixed then .error (site.atExpr p .ownerNotFinal)
      else if !type.same .publicAddress then .error (site.atExpr p (.ownerNotAddress type))
      else .ok ()
    | _ => .error (site.atExpr p .ownerNotFinal)
  | _ => .ok ()

/-- Why a type has no homomorphic ciphertexts. -/
def Ty.notHomomorphic? (t : Ty) : Option String :=
  if !t.isNumeric then some "not numeric"
  else if t.isSignedNumeric then some "signed"
  else if 32 < t.bits?.getD 0 then some "wider than 32 bit"
  else none

/-- Private types fit into a circuit; homomorphic ones are small. -/
def checkPrivateAnnotation (site : Site) (t : AnnTy) : Except Error Unit :=
  if !t.type.canBePrivate then .error (site.atDecl (.cannotBePrivate t.type))
  else if t.hom == .nonHomomorphic then .ok ()
  else match t.type.notHomomorphic? with
    | none => .ok ()
    | some reason => .error (site.atDecl (.cannotBeHomomorphic t.type reason))

/-- Names of enums become enum types; other declared names are no types. -/
def resolveEnum (symbols : Symbols) (site : Site) (t : Ty) : Except Error Ty :=
  match t with
  | .named .user _ target =>
    match target with
    | some ⟨.decl .enum i, _⟩ =>
      match (symbols.find? i).bind Decl.type? with
      | some e => .ok e.type
      | none => .error .undefinedState
    | _ => .error (site.atDecl .notEnum)
  | t => .ok t

/-- Check a written type whose parts have been checked. -/
def finishType (spot : AnnTy → Site) (t : AnnTy) : CheckM AnnTy := do
  let s ← symbols
  attempt (resolveEnum s (spot t) t.type) t fun type =>
    let t := { t with type := type }
    let site := spot t
    let owner := if t.isPublic then
        (if t.hom == .nonHomomorphic then .ok () else .error (site.atDecl (.publicHomomorphic t.type)))
      else checkPrivateAnnotation site t
    attempt (do owner; checkOwner s site t.privacy) t fun _ => return t

/-! ## Names and parts -/

/-- The type of a name. -/
def typeIdent (c : CheckContext) (e : Expr) : CheckM Expr := do
  match e.target? with
  | some (.keyLabel _ _) => return e
  | some (.decl .contract _) => fail (c.complain e e .contractValue) e
  | some r =>
    match (← symbols).type? r with
    | some t => return e.withType t
    | none => fail .undefinedState e
  | none => fail .undefinedState e

/-- The type of a member. -/
def typeMember (c : CheckContext) (e base : Expr) (name : String) : CheckM Expr := do
  match e.target? with
  | none => fail (c.complain e e (.memberUnresolved name)) e
  | some r =>
    let t := base.checkedType
    ensure (!(t.isAddress && t.isPrivate)) (c.complain e e .privateAddressMember) e do
      match (← symbols).type? r with
      | some t => return e.withType t
      | none => fail .undefinedState e

mutual

/-- Name the owner that the key label of a mapping stands for. -/
def Ty.instantiate (m : Nat) (owner : Label × Nat) : Ty → Ty
  | .mapping i k l v => .mapping i k l (v.instantiate m owner)
  | .array v n => .array (v.instantiate m owner) n
  | t => t

def AnnTy.instantiate (m : Nat) (owner : Label × Nat) : AnnTy → AnnTy
  | ⟨t, p, h, a, d⟩ => ⟨t.instantiate m owner, p.instantiate m owner, h, a, d⟩

def Expr.instantiate (m : Nat) (owner : Label × Nat) : Expr → Expr
  | .ident i n (some (.keyLabel q none)) =>
    .ident i n (some (.keyLabel q (if q == m then some owner else none)))
  | e => e

end

/-- The type of an element. A key that names the owner of the values is remembered in their types. -/
def typeIndex (c : CheckContext) (i : Info) (base key : Expr) (target : Option Ref) : CheckM Expr := do
  let e := Expr.index i base key target
  let container := base.checkedType
  ensure container.isPublic (c.complain e e .indexPrivate) e do
    match container.type with
    | .mapping m kt label _ =>
      let keyType := AnnTy.owned kt .allLabel .nonHomomorphic
      attempt (key.fits c.knowledge keyType) e fun fit =>
        ensure (fit != .no) (c.complain e e (.mismatch (.full keyType) (.full key.checkedType))) e do
          match label with
          | none => return e.withType (container.type.valueType?.getD default)
          | some _ =>
            match key.label? with
            | none => fail (c.complain e e (.keyNotOwner container)) e
            | some l =>
              let container := container.instantiate m (l, key.id)
              let e := Expr.index i (base.withType container) key target
              return e.withType (container.type.valueType?.getD default)
    | t =>
      match t.valueType? with
      | some v =>
        ensure key.checkedType.isPublic (c.complain e e .indexNotPublic) e do
          ensure (key.convertsTo .number) (c.complain e e .indexNotNumeric) e do
            return e.withType v
      | none => fail (c.complain e e .notIndexable) e

/-! ## Conversions written by the programmer -/

def ReclassifyForm.funcName (m : ReclassifyForm) (h : Option Hom) : String :=
  match m with
  | .reveal => "reveal"
  | .encrypt => "enc"
  | .rehom => (h.getD .nonHomomorphic).rehomName

/-- The type of a value that is handed to another owner. -/
def typeReclassify (c : CheckContext) (i : Info) (m : ReclassifyForm) (arg privacy : Expr)
    (hom : Option Hom) : CheckM Expr := do
  let e := Expr.reclassify i m arg privacy hom
  let name := m.funcName hom
  match privacy.label? with
  | none => fail (c.complain e e (.reclassifyTarget name)) e
  | some _ =>
    let source := arg.checkedType
    let asked := hom.getD source.hom
    let lowered := privacy.isAll && asked != .nonHomomorphic
    let h := if lowered then .nonHomomorphic else asked
    let hom := if lowered then some .nonHomomorphic else hom
    let e := Expr.reclassify i m arg privacy hom
    ensure (source.isPublic || source.isMine c.knowledge)
      (c.complain e e (.reclassifyInaccessible name)) e do
      ensure (!(source.isPublic && m == .rehom && hom == some .nonHomomorphic))
        (c.complain e e (.rehomPublic Hom.nonHomomorphic.rehomName)) e do
        let e := e.withType (.owned source.type privacy h)
        attempt (e.fits c.knowledge source) e fun fit =>
          ensure (fit != .yes) (c.complain e e (.reclassifyRedundant name privacy.code h)) e do
            attempt (checkPrivateType e.checkedType) e fun _ => return e

/-- The type of a cast. -/
def typeCast (c : CheckContext) (i : Info) (t : Ty) (arg : Expr) (implicit : Bool) : CheckM Expr := do
  let e := Expr.cast i t arg implicit
  let source := arg.checkedType.type
  attempt (if source.castsTo t then .ok true else arg.convertsTo? t) e fun legal =>
    ensure legal (c.complain e e (.badCast source t)) e do
      attempt (arg.castResult c.knowledge (c.spot e) t) e fun r => return e.withType r

/-! ## Operators -/

/-- What an operator expects of its operands. -/
def Op.inputType? (op : Op) : Option Ty :=
  if op.isLogical then some .bool else if op.takesNumbers then some .number else none

/-- The operands have the type that the operator expects. -/
def checkOperands (c : CheckContext) (e : Expr) (op : Op) (args : List Expr) : Except Error Unit :=
  match op.inputType? with
  | none => if op.isEquality then .ok () else .error .undefinedState
  | some t =>
    match (args.take op.arity).find? fun a => !a.convertsTo t with
    | none => .ok ()
    | some a => .error (c.complain e a (.mismatch (.bare t) (.bare a.checkedType.type)))

/-- The value of an operator on literals as a literal type. -/
def foldLiterals (op : Op) (ts : List Ty) : Except Error Ty :=
  match op.eval (ts.filterMap Ty.literal?) with
  | .error e => .error (.ofOpError e)
  | .ok (.bool b) => .ok (.boolLit b)
  | .ok (.int v) => if isLiteralValue v then .ok (.numLit v) else .error .assertion

/-- The common type of the operands and the type of the result. Literal operands of an equality are given
declared types. -/
def operandTypes (op : Op) (ts : List Ty) : Except Error (Combined × Option Ty) := do
  let operands ← (match ts with
    | [t] => .ok (if t.isLiteral then Combined.literal else .type t)
    | t :: u :: _ => t.combine? (op.isEquality && t.isTuple) u
    | [] => .ok .none)
  match operands with
  | .literal =>
    let result ← foldLiterals op ts
    match op.isEquality, ts with
    | true, [t, u] => return (t.abstract.combine true u.abstract, some result)
    | _, _ => return (.literal, some result)
  | .type t => return (.type t, some (if op.givesBool then .bool else t))
  | .none => return (.none, none)

/-- The wide operand that a warning or complaint is about. -/
def wideOperand? (args : List Expr) : Option Expr :=
  args.find? fun a => a.checkedType.type.bits? == some 256

/-- The operation has a circuit for these operands. -/
def checkPrivateOperation (c : CheckContext) (e : Expr) (op : Op) (args : List Expr) : Except Error Unit := do
  if !op.canBePrivate then .error (c.complain e e (.noPrivateOperation op.name))
  if op.isShift then
    match args with
    | _ :: amount :: _ =>
      match amount.checkedType.type with
      | .numLit v => if v < 0 then .error (c.complain e amount .negativeShift)
      | .boolLit _ => .ok ()
      | _ => .error (c.complain e amount .shiftNotLiteral)
    | _ => .ok ()
  if args.any fun a => a.checkedType.type.bits?.isNone then .error (.unwritten "")
  match wideOperand? args with
  | some a => if op.isBitwise || op.isShift then .error (c.complain e a .wideBitwise)
  | none => .ok ()

/-- Wide private arithmetic and comparisons behave unexpectedly. -/
def privateOperationWarning? (c : CheckContext) (e func : Expr) (op : Op) (args : List Expr) :
    Option Warning :=
  let warn (title text : String) : Option Warning := some ⟨title, text, (c.spot e).place func.pos⟩
  if (wideOperand? args).isNone then none
  else if op.isArithmetic then
    warn "Possible field prime overflow"
      ("Private 256 bit arithmetic wraps around at the field prime of the proof circuit, " ++
        "not at 2^256. Use a narrower integer type if overflow behavior matters.")
  else if op.isComparison then
    warn "Possible private comparison failure"
      ("Private 256 bit comparisons fail for operands >= 2^252. " ++
        "Use a narrower integer type unless the values are known to stay below that bound.")
  else none

/-- The type with the sender as owner, or with none. -/
def Ty.ownedByMe (t : Ty) (isPrivate : Bool) : AnnTy :=
  if isPrivate then t.annotateWith .meLabel else .plain t

/-- A call of an operator. -/
structure OpCall where
  info : Info
  funcInfo : Info
  op : Op
  isPrivate : Bool
  hom : Hom
  rerandomize : Option Expr
  args : List Expr
  offset : Int
  key : Option CircuitVar

namespace OpCall

def expr (o : OpCall) : Expr :=
  .call o.info (.operator o.funcInfo o.op o.isPrivate o.hom o.rerandomize) o.args o.offset o.key

def func (o : OpCall) : Expr := .operator o.funcInfo o.op o.isPrivate o.hom o.rerandomize

def withArgs (o : OpCall) (args : List Expr) : OpCall := { o with args := args }

def typed (o : OpCall) (t : AnnTy) : Expr := o.expr.withType t

/-- Convert all operands. -/
def coerceAll (o : OpCall) (c : CheckContext) (ts : List AnnTy) (next : OpCall → CheckM Expr) :
    CheckM Expr := do
  let s ← symbols
  convertAll (Expr.coerceAll s c.knowledge (fun xs => c.spot (o.withArgs xs).expr) [] o.args ts)
    (fun xs => (o.withArgs xs).expr) fun xs => next (o.withArgs xs)

/-- Convert one operand. -/
def coerceAt (o : OpCall) (c : CheckContext) (n : Nat) (t : AnnTy) (next : OpCall → CheckM Expr) :
    CheckM Expr := do
  let s ← symbols
  let put (x : Expr) : OpCall := o.withArgs (o.args.set n x)
  match o.args[n]? with
  | none => fail .undefinedState o.expr
  | some a =>
    convert (a.coerce s c.knowledge (fun x => c.spot (put x).expr) true t) (fun x => (put x).expr)
      fun x => next (put x)

/-- Operators on accessible operands. -/
def typePlain (c : CheckContext) (o : OpCall) : CheckM Expr := do
  let ts := o.args.map (·.checkedType.type)
  attempt (checkOperands c o.expr o.op o.args) o.expr fun _ =>
    attempt (operandTypes o.op ts) o.expr fun (operands, result) => do
      let incompatible := c.complain o.expr o.expr (.incompatibleOperands o.op.name)
      match operands, result with
      | .none, _ | _, none => fail incompatible o.expr
      | operands, some result =>
        let isPrivate := o.args.any (·.checkedType.isPrivate)
        if isPrivate then
          attempt (checkPrivateOperation c o.expr o.op o.args) o.expr fun _ => do
            match privateOperationWarning? c o.expr o.func o.op o.args with
            | some w => warn w
            | none => pure ()
            finish { o with isPrivate := true } operands result true
        else finish o operands result false
where
  /-- Convert the operands to their common type. -/
  finish (o : OpCall) (operands : Combined) (result : Ty) (isPrivate : Bool) : CheckM Expr := do
    let done (o : OpCall) : CheckM Expr := return o.typed (result.ownedByMe isPrivate)
    match operands with
    | .type t =>
      let t := t.ownedByMe isPrivate
      if o.op.isShift && isPrivate then o.coerceAt c 0 t done
      else o.coerceAll c (o.args.map fun _ => t) done
    | _ => done o

/-- A choice between two values. With a private condition both are evaluated in the circuit. -/
def typeChoice (c : CheckContext) (o : OpCall) : CheckM Expr := do
  match o.args with
  | [cond, a, b] =>
    let ct := cond.checkedType
    ensure (cond.convertsTo .bool)
      (c.complain o.expr cond (.mismatch (.bare .bool) (.bare ct.type))) o.expr do
      attempt (a.checkedType.type.combine? true b.checkedType.type) o.expr fun common =>
      match common with
      | .type t =>
        if ct.isPrivate then finish { o with isPrivate := true } (t.annotateWith .meLabel)
        else
          let hom := commonHom c.knowledge a b
          let ta := a.checkedType.withHom hom
          let tb := b.checkedType.withHom hom
          attempt (ta.commonOwner c.knowledge tb) o.expr fun owner =>
            match owner with
            | .none => fail (c.complain o.expr o.expr (.mismatch (.full ta) (.full tb))) o.expr
            | .one p => finish o (.owned t p (if p.isAll then .nonHomomorphic else hom))
            | .many _ => fail .undefinedState o.expr
      | _ =>
        fail (c.complain o.expr o.expr (.mismatch (.full a.checkedType) (.full b.checkedType))) o.expr
  | _ :: _ :: _ :: _ => fail (.badValue (.tooManyParts 3)) o.expr
  | as => fail (.badValue (.tooFewParts 3 as.length)) o.expr
where
  /-- Convert both values to the type of the choice. -/
  finish (o : OpCall) (t : AnnTy) : CheckM Expr :=
    o.coerceAt c 1 t fun o => o.coerceAt c 2 t fun o => return o.typed t

/-- Operators on ciphertexts, evaluated in public code and checked by the circuit. -/
def typeHomomorphic (c : CheckContext) (o : OpCall) : CheckM Expr := do
  attempt (checkOperands c o.expr o.op o.args) o.expr fun _ =>
    attempt (o.op.homOperation c.knowledge o.args) o.expr fun h =>
      match h with
      | none => fail (c.complain o.expr o.expr (.needsAccessible o.op.name)) o.expr
      | some h =>
        let o := { o with
          isPrivate := true, hom := h.result.hom, info := { o.info with type := some h.result } }
        o.coerceAll c h.inputs fun o => return o.expr

/-- The type of an operator call. -/
def type (c : CheckContext) (o : OpCall) : CheckM Expr := do
  match o.op, o.args with
  | .paren, a :: _ => return o.typed a.checkedType
  | _, _ =>
    if !(o.args.all fun a => a.checkedType.isAccessible c.knowledge) && !o.expr.isPublicChoice then
      o.typeHomomorphic c
    else if o.op == .ite then o.typeChoice c
    else o.typePlain c

end OpCall

/-! ## Calls -/

/-- The type of what a function returns: its value, or a tuple of them. -/
def returnType (returns : List Param) : AnnTy :=
  match returns with
  | [r] => r.type
  | rs => .plain (.tuple (rs.map (·.type)))

/-- The type of a call. -/
def typeCall (c : CheckContext) (i : Info) (f : Expr) (args : List Expr) (offset : Int)
    (key : Option CircuitVar) : CheckM Expr := do
  let call (xs : List Expr) : Expr := .call i f xs offset key
  let e := call args
  match f with
  | .operator fi op p h r => OpCall.type c ⟨i, fi, op, p, h, r, args, offset, key⟩
  | f =>
    let s ← symbols
    if e.isCastCall then
      match f.target?, args with
      | some (.decl .enum n), a :: _ =>
        match (s.find? n).bind Decl.type? with
        | none => fail .undefinedState e
        | some t => attempt (a.castResult c.knowledge (c.spot e) t.type) e fun r => return e.withType r
      | some (.decl .enum _), [] => fail .undefinedState e
      | _, _ => fail (c.complain e e .castNotEnum) e
    else if f.isLocation then
      match f.checkedType.type with
      | .function params _ returns =>
        ensure (params.length == args.length)
          (c.complain e f (.argumentCount f.code params.length)) e do
          convertAll
            (Expr.coerceAll s c.knowledge (fun xs => c.spot (call xs)) [] args (params.map (·.type)))
            call fun xs => return (call xs).withType (returnType returns)
      | _ => fail (c.complain e f (.notCallable f.code)) e
    else fail (c.complain e e .invalidCall) e

/-! ## The walk -/

mutual

/-- Check the parts of a type. -/
def Ty.check (k : Option Knowledge) (spot : Ty → Site) : Ty → CheckM Ty
  | .mapping i kt l v => do
    let kt ← kt.check k fun x => spot (.mapping i x l v)
    let v ← v.check k fun x => spot (.mapping i kt l x)
    let t := Ty.mapping i kt l v
    unlessStopped t <|
      ensure (l.isNone || kt.same (.address false)) ((spot t).atDecl .keyNotAddress) t (return t)
  | .array v none => do return .array (← v.check k fun x => spot (.array x none)) none
  | .array v (some n) => do
    let v ← v.check k fun x => spot (.array x (some n))
    return .array v (some (← n.check ⟨k, fun x => spot (.array v (some x))⟩))
  | .function ps ms rs => do
    let ps ← Param.checkAll k (fun xs => spot (.function xs ms rs)) [] ps
    return .function ps ms (← Param.checkAll k (fun xs => spot (.function ps ms xs)) [] rs)
  | t => return t

/-- Check a type with its owner. -/
def AnnTy.check (k : Option Knowledge) (spot : AnnTy → Site) : AnnTy → CheckM AnnTy
  | ⟨t, p, h, a, d⟩ => do
    if ← stopped then return ⟨t, p, h, a, d⟩
    let t ← t.check k fun x => spot ⟨x, p, h, a, d⟩
    let p ← p.check ⟨k, fun x => spot ⟨t, x, h, a, d⟩⟩
    unlessStopped ⟨t, p, h, a, d⟩ (finishType spot ⟨t, p, h, a, d⟩)

/-- Check parameters, which are known with their checked types from then on. -/
def Param.checkAll (k : Option Knowledge) (spot : List Param → Site) (done : List Param) :
    List Param → CheckM (List Param)
  | [] => return done
  | ⟨i, ks, t, n, s, o⟩ :: ps => do
    let t ← t.check k fun x => spot (done ++ ⟨i, ks, x, n, s, o⟩ :: ps)
    setType i t
    Param.checkAll k spot (done ++ [⟨i, ks, t, n, s, o⟩]) ps

/-- Check the type that an expression is written with. -/
def Info.checkType (k : Option Knowledge) (spot : Info → Site) : Info → CheckM Info
  | ⟨i, p, some t, b, x⟩ => do
    return ⟨i, p, some (← t.check k fun u => spot ⟨i, p, some u, b, x⟩), b, x⟩
  | i => return i

/-- Find the type of an expression and of everything below it. -/
def Expr.check (c : CheckContext) : Expr → CheckM Expr
  | .call i f as o k => do
    if ← stopped then return .call i f as o k
    let f ← f.check (c.part fun x => .call i x as o k)
    let as ← Expr.checkAll c.knowledge (fun xs => c.spot (.call i f xs o k)) [] as
    unlessStopped (.call i f as o k) (typeCall c i f as o k)
  | .new i as => do
    if ← stopped then return .new i as
    let i ← i.checkType c.knowledge fun x => c.spot (.new x as)
    return .new i (← Expr.checkAll c.knowledge (fun xs => c.spot (.new i xs)) [] as)
  | .cast i t e b => do
    if ← stopped then return .cast i t e b
    let t ← t.check c.knowledge fun x => c.spot (.cast i x e b)
    let e ← e.check (c.part fun x => .cast i t x b)
    unlessStopped (.cast i t e b) (typeCast c i t e b)
  | .arrayLit i vs k => do
    return .arrayLit i (← Expr.checkAll c.knowledge (fun xs => c.spot (.arrayLit i xs k)) [] vs) k
  | .tuple i es => do
    let es ← Expr.checkAll c.knowledge (fun xs => c.spot (.tuple i xs)) [] es
    unlessStopped (.tuple i es) do
      return (Expr.tuple i es).withType (.plain (.tuple (es.map Expr.checkedType)))
  | .ident i n t => unlessStopped (.ident i n t) (typeIdent c (.ident i n t))
  | .member i e n t => do
    let e ← e.check (c.part fun x => .member i x n t)
    unlessStopped (.member i e n t) (typeMember c (.member i e n t) e n.name)
  | .index i e k t => do
    let e ← e.check (c.part fun x => .index i x k t)
    let k ← k.check (c.part fun x => .index i e x t)
    unlessStopped (.index i e k t) (typeIndex c i e k t)
  | .me i => unlessStopped (.me i) (return (Expr.me i).withType .publicAddress)
  | .reclassify i m e p h => do
    let e ← e.check (c.part fun x => .reclassify i m x p h)
    let p ← p.check (c.part fun x => .reclassify i m e x h)
    unlessStopped (.reclassify i m e p h) (typeReclassify c i m e p h)
  | e => return e

/-- Check several parts; `done` are those checked already. -/
def Expr.checkAll (k : Option Knowledge) (spot : List Expr → Site) (done : List Expr) :
    List Expr → CheckM (List Expr)
  | [] => return done
  | e :: es => do
    let e ← e.check ⟨k, fun x => spot (done ++ x :: es)⟩
    Expr.checkAll k spot (done ++ [e]) es

end

end Shroud
