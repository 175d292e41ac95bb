import Shroud.Symbol.Scope

/-!
# Linking

Linking gives every name in an expression or a type the declaration it leads to.

**Order.** Nodes are linked from the leaves upwards and from left to right, so the first failing name in
this order decides the message. Declared types are recorded in the symbol table as soon as they are linked.

**Elements.** Each index expression gets a reference of its own, also when it is linked a second time.
-/

namespace Shroud

/-- What linking keeps track of: the declarations and the next free number. -/
structure LinkState where
  symbols : Symbols
  next : Nat

abbrev LinkM := StateT LinkState (Except Error)

/-- Where the linker stands. -/
structure LinkContext where
  scope : Scope
  site : Site

namespace LinkContext

/-- Inside a mapping whose key is called `label`. -/
def withKey (c : LinkContext) (mapping : Nat) (label : Option String) : LinkContext :=
  match label with
  | none => c
  | some l => { c with scope := c.scope.enter [(l, .keyLabel mapping none)] }

def withStmt (c : LinkContext) (s : Stmt) : LinkContext := { c with site := { c.site with stmt := some s } }

/-- Within the statement that declares the variable. -/
def declaring (c : LinkContext) (v : LocalVar) : LinkContext := { c with scope := c.scope.declaring v }

end LinkContext

def LinkM.fresh : LinkM Nat := do
  let s ← get
  set { s with next := s.next + 1 }
  return s.next

/-- The declared type of a variable is linked now. -/
def LinkM.record (id : Nat) (t : AnnTy) : LinkM Unit :=
  modify fun s => { s with symbols := s.symbols.setType id t }

/-- Follow the rest of a dotted name from what its part `name` leads to. -/
def Symbols.follow (symbols : Symbols) (name : String) (r : Ref) : List String → Except Error Ref
  | [] => .ok r
  | n :: ns =>
    match (symbols.membersOf name r).lookup n with
    | some q => symbols.follow n q ns
    | none => .error (.missing n)

/-- The declaration of a type name; unknown names are left alone. -/
def linkType (c : LinkContext) (names : List String) : LinkM (Option NamedTarget) := do
  match names with
  | [] => return none
  | n :: ns =>
    match c.scope.type? n with
    | none => return none
    | some r =>
      let symbols := (← get).symbols
      let r ← symbols.follow n r ns
      return some ⟨r, symbols.qualified r⟩

/-- The declaration of a value. -/
def linkValue (c : LinkContext) (e : Expr) (name : String) : LinkM Ref :=
  match c.scope.value name with
  | .ok r => return r
  | .error none => throw (c.site.atExpr e (.undefined name))
  | .error (some pos) => throw (c.site.complain (.undefined name) (c.site.placeOfStmt pos))

/-- The name under which the members of addresses are declared. -/
def addressName (payable : Bool) : String := if payable then "<address_payable>" else "<address>"

/-- The members of a type, if it is known. -/
def linkSpace (c : LinkContext) (t : Ty) : LinkM (Option (List (String × Ref))) := do
  let members (names : List String) (target : Option NamedTarget) :
      LinkM (Option (List (String × Ref))) := do
    let symbols := (← get).symbols
    return target.map fun t => symbols.membersOf (names.getLastD "") t.ref
  match t with
  | .named _ names (some target) => members names (some target)
  | .named _ names none => do members names (← linkType c names)
  | .address p => do members [addressName p] (← linkType c [addressName p])
  | _ => throw .assertion

/-- The declaration of a member; `old` is kept where the type of the base is unknown. -/
def linkMember (c : LinkContext) (e base : Expr) (name : String) (old : Option Ref) :
    LinkM (Option Ref) := do
  let symbols := (← get).symbols
  match base.target? with
  | some (.decl .function i) | some (.decl .struct i) | some (.decl .enum i)
  | some (.decl .contract i) =>
    match (((symbols.find? i).map Decl.members).getD []).lookup name with
    | some r => return some r
    | none => throw (.missing name)
  | some r =>
    match symbols.type? r with
    | none => throw .undefinedState
    | some t =>
      if t.type.isArray then
        if name = "length" then return some (.decl .localVar Builtin.lengthId)
        else throw (c.site.atExpr e (.noArrayMember name))
      else
        match ← linkSpace c t.type with
        | none => return old
        | some members =>
          match members.lookup name with
          | some r => return some r
          | none => throw (c.site.atExpr e (.noMember name))
  | none => throw .undefinedState

/-- What an index expression reaches. -/
def linkElement (base : Expr) : LinkM Ref := do
  let symbols := (← get).symbols
  match base.target? with
  | some r =>
    match (symbols.type? r).bind (·.type.valueType?) with
    | none => throw .undefinedState
    | some _ =>
      let i ← LinkM.fresh
      match r with
      | .element b d _ => return .element b (d + 1) i
      | r => return .element r.id 1 i
  | none => throw .undefinedState

mutual

def Ty.link (c : LinkContext) : Ty → LinkM Ty
  | .named s ns t => do
    match ← linkType c ns with
    | some target => return .named s ns (some target)
    | none => return .named s ns t
  | .mapping i k l v => do
    let k ← k.link (c.withKey i l)
    let v ← v.link (c.withKey i l)
    return .mapping i k l v
  | .array v none => do return .array (← v.link c) none
  | .array v (some n) => do
    let v ← v.link c
    return .array v (some (← n.link c))
  | .function ps ms rs => do
    let ps ← Param.linkAll c ps
    return .function ps ms (← Param.linkAll c rs)
  | t => return t

def AnnTy.link (c : LinkContext) : AnnTy → LinkM AnnTy
  | ⟨t, p, h, a, d⟩ => do
    let t ← t.link c
    return ⟨t, ← p.link c, h, a, d⟩

def Param.link (c : LinkContext) : Param → LinkM Param
  | ⟨i, k, t, n, s, o⟩ => do
    let t ← t.link c
    LinkM.record i t
    return ⟨i, k, t, n, s, o⟩

def Param.linkAll (c : LinkContext) : List Param → LinkM (List Param)
  | [] => return []
  | p :: ps => do
    let p ← p.link c
    return p :: (← Param.linkAll c ps)

def Info.linkType (c : LinkContext) : Info → LinkM Info
  | ⟨i, p, some t, b, x⟩ => do return ⟨i, p, some (← t.link c), b, x⟩
  | i => return i

def Expr.link (c : LinkContext) : Expr → LinkM Expr
  | .call i f as o k => do
    let f ← f.link c
    return .call i f (← Expr.linkAll c as) o k
  | .new i as => do
    let i ← i.linkType c
    return .new i (← Expr.linkAll c as)
  | .cast i t e b => do
    let t ← t.link c
    return .cast i t (← e.link c) b
  | .arrayLit i vs k => do return .arrayLit i (← Expr.linkAll c vs) k
  | .tuple i es => do return .tuple i (← Expr.linkAll c es)
  | .ident i n t => do
    let r ← linkValue c (.ident i n t) n.name
    return .ident i n (some r)
  | .member i e n t => do
    let e ← e.link c
    return .member i e n (← linkMember c (.member i e n t) e n.name t)
  | .index i e k _ => do
    let e ← e.link c
    let k ← k.link c
    return .index i e k (some (← linkElement e))
  | .reclassify i m e p h => do
    let e ← e.link c
    return .reclassify i m e (← p.link c) h
  | e => return e

def Expr.linkAll (c : LinkContext) : List Expr → LinkM (List Expr)
  | [] => return []
  | e :: es => do
    let e ← e.link c
    return e :: (← Expr.linkAll c es)

end

mutual

/-- Copies of mappings are linked again, which fails if an owner inside is unknown. -/
def Ty.checkCopy : Ty → Except Error Unit
  | .mapping i k l v => do
    let _ ← (Ty.link ⟨.empty, .detached⟩ (.mapping i k l v)).run ⟨⟨Builtin.decls⟩, Builtin.firstFree⟩
  | .array v _ => v.checkCopy
  | .cipher p _ => p.checkCopy
  | .tuple ts => AnnTy.checkCopies ts
  | _ => .ok ()

def AnnTy.checkCopy : AnnTy → Except Error Unit
  | ⟨t, _, _, _, _⟩ => t.checkCopy

def AnnTy.checkCopies : List AnnTy → Except Error Unit
  | [] => .ok ()
  | t :: ts => do
    t.checkCopy
    AnnTy.checkCopies ts

end

def Expr.link? (c : LinkContext) : Option Expr → LinkM (Option Expr)
  | none => return none
  | some e => do return some (← e.link c)

def LocalVar.link (c : LinkContext) (v : LocalVar) : LinkM LocalVar := do
  let t ← v.type.link c
  LinkM.record v.id t
  return { v with type := t }

mutual

def Stmt.link (c : LinkContext) : Stmt → LinkM Stmt
  | .ifThen i e t none => do
    let e' ← e.link (c.withStmt (.ifThen i e t none))
    return .ifThen i e' (← t.link c) none
  | .ifThen i e t (some f) => do
    let e' ← e.link (c.withStmt (.ifThen i e t (some f)))
    let t ← t.link c
    return .ifThen i e' t (some (← f.link c))
  | .whileLoop i e b => do
    let e' ← e.link (c.withStmt (.whileLoop i e b))
    return .whileLoop i e' (← b.link c)
  | .doWhile i b e => do
    let b' ← b.link c
    return .doWhile i b' (← e.link (c.withStmt (.doWhile i b e)))
  | .forLoop i init e update b => do
    let whole := Stmt.forLoop i init e update b
    let inner := { c with
      scope := c.scope.enterBlock i.pos (Stmt.declared? init ++ Stmt.declared? update) }
    let init' ← (match init with
      | none => return none
      | some s => do return some (← s.link inner))
    let inner := { inner with scope := inner.scope.declare (Stmt.declared? init) }
    let e' ← e.link (inner.withStmt whole)
    let update' ← (match update with
      | none => return none
      | some s => do return some (← s.link inner))
    return .forLoop i init' e' update' (← b.link inner)
  | .ret i e => do return .ret i (← Expr.link? (c.withStmt (.ret i e)) e)
  | .eval i e => do return .eval i (← e.link (c.withStmt (.eval i e)))
  | .require i e => do return .require i (← e.link (c.withStmt (.require i e)))
  | .assign i l r o b => do
    let c := c.withStmt (.assign i l r o b)
    let l ← l.link c
    return .assign i l (← r.link c) o b
  | .declare i v e => do
    let c := (c.withStmt (.declare i v e)).declaring v
    let v ← v.link c
    return .declare i v (← Expr.link? c e)
  | .block b => do return .block (← b.link c)
  | .seq i ss x => do return .seq i (← Stmt.linkAll c ss) x
  | s => return s

def Block.link (c : LinkContext) : Block → LinkM Block
  | ⟨i, ss, b⟩ => do
    let inner := { c with scope := c.scope.enterBlock i.pos (Stmt.declaredAll ss) }
    return ⟨i, ← Stmt.linkAll inner ss, b⟩

def Stmt.linkAll (c : LinkContext) : List Stmt → LinkM (List Stmt)
  | [] => return []
  | s :: ss => do
    let s' ← s.link c
    let c := { c with scope := c.scope.declare s.declared }
    return s' :: (← Stmt.linkAll c ss)

end

/-- The surroundings of the parameters of a function. -/
def LinkContext.ofParams (c : LinkContext) (f : FunctionDef) : LinkContext :=
  { c with scope := c.scope.enter f.names }

/-- The surroundings of the body of a function. -/
def LinkContext.ofBody (c : LinkContext) (f : FunctionDef) : LinkContext :=
  { c.ofParams f with site := { c.site with function := some f.title } }

def FunctionDef.link (c : LinkContext) (f : FunctionDef) : LinkM FunctionDef := do
  let params ← Param.linkAll (c.ofParams f) f.params
  let returns ← Param.linkAll (c.ofParams f) f.returns
  let f := { f with params := params, returns := returns, body := ← f.body.link (c.ofBody f) }
  modify fun s => { s with symbols := s.symbols.modify f.id fun
    | .function _ k => .function f k
    | d => d }
  return f

def StateItem.link (c : LinkContext) : StateItem → LinkM StateItem
  | .var v => do
    let t ← v.type.link c
    LinkM.record v.id t
    return .var { v with type := t, init := ← Expr.link? c v.init }
  | i => return i

def StructDef.link (c : LinkContext) (s : StructDef) : LinkM StructDef := do
  let c := { c with scope := c.scope.enter s.names }
  let members ← s.members.mapM fun m =>
    m.link { c with scope := c.scope.enter [(m.name, m.ref)] }
  return { s with members := members }

/-- The surroundings of the members of a contract. -/
def Contract.context (unit : SourceUnit) (c : Contract) : LinkContext :=
  ⟨(Scope.empty.enter unit.names).enter c.names, ⟨some unit.text, some c.name, none, none⟩⟩

def Contract.link (unit : SourceUnit) (c : Contract) : LinkM Contract := do
  let ctx := c.context unit
  let structs ← c.structs.mapM (StructDef.link ctx)
  let state ← c.state.mapM (StateItem.link ctx)
  let constructors ← c.constructors.mapM (FunctionDef.link ctx)
  let functions ← c.functions.mapM (FunctionDef.link ctx)
  return { c with structs, state, constructors, functions }

/-- Link a whole program; the second result is the next free number. -/
def SourceUnit.link (u : SourceUnit) (next : Nat) : Except Error (SourceUnit × Nat) := do
  u.checkNames
  let (contracts, s) ← (u.contracts.mapM (Contract.link u)).run ⟨u.symbols, next⟩
  return ({ u with contracts := contracts }, s.next)

end Shroud
