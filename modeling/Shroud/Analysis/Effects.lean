import Shroud.Symbol.Link

/-!
# What code reads and writes

**Side effects.** Code has side effects if it assigns or calls a function that is neither `pure` nor `view`.

**Locations.** A statement is marked with the locations it writes and reads. First come the accesses of its
own code, then those of the functions it calls: since arguments are passed by value, a callee reaches state
variables only. Calls may be recursive, so the sets of all functions grow together until nothing changes.

**Order.** Written locations are listed in the order in which they were found; locations found in a later
round come last.
-/

namespace Shroud

/-! ## Side effects -/

/-- Does the call itself have side effects? Only functions can be called. Those of a variable that holds a
function are not known. -/
def Symbols.callHasEffects (symbols : Symbols) (e : Expr) : Except Error (Option Bool) :=
  match e with
  | .call _ f _ _ _ =>
    if !f.isLocation || e.isCastCall then .ok (some false)
    else match f.target? with
      | none => .error .assertion
      | some r =>
        match symbols.callee? f with
        | some g => .ok (some g.hasSideEffects)
        | none =>
          match symbols.type? r with
          | some t => if t.type.isFunction then .ok none else .error .assertion
          | none => .error .undefinedState
  | _ => .ok (some false)

/-- Do any of the nodes have side effects? Every call is looked at. The nodes below an expression follow it,
and a call of unknown effect is allowed only if its parts have some. -/
def Symbols.haveEffects (symbols : Symbols) : List Node → Except Error Bool
  | [] => .ok false
  | n :: ns => do
    let here ← (match n with
      | .stmt (.assign _ _ _ _ _) => .ok true
      | .expr e => do
        match ← symbols.callHasEffects e with
        | some b => return b
        | none =>
          if ← symbols.haveEffects (ns.take (e.nodes.length - 1)) then return true
          else throw .undefinedState
      | _ => .ok false)
    let rest ← symbols.haveEffects ns
    return here || rest
termination_by ns => ns.length
decreasing_by
  · simp only [List.length_take, List.length_cons]; omega
  · simp

def Expr.hasEffects (symbols : Symbols) (e : Expr) : Except Error Bool := symbols.haveEffects e.nodes

def Stmt.hasEffects (symbols : Symbols) (s : Stmt) : Except Error Bool := symbols.haveEffects s.nodes

/-! ## Locations -/

namespace Loc

/-- Add the locations that are not listed yet. -/
def union (xs ys : List Loc) : List Loc :=
  ys.foldl (fun acc y => if acc.contains y then acc else acc ++ [y]) xs

/-- The location is a state variable or a part of one. -/
def isState (l : Loc) : Bool :=
  match l.target with
  | .decl .stateVar _ => true
  | _ => false

/-- A whole variable. -/
def ofVar (v : LocalVar) : Loc := ⟨v.ref, v.name, none⟩

end Loc

/-- The name of what a location leads to; elements have none. -/
def Expr.targetName : Expr → String
  | .ident _ n _ => n.name
  | .member _ _ n _ => n.name
  | _ => ""

/-- The part of a container that a key selects. -/
def LocKey.ofIndex (key : Expr) : LocKey :=
  match key with
  | .me _ => .keyword .me
  | .all _ => .keyword .all
  | k => .index k.id k.label?

/-- The data location an expression denotes. -/
def Expr.loc? (e : Expr) : Option Loc :=
  match e with
  | .ident _ n (some t) => if t.isVariable then some ⟨t, n.name, none⟩ else none
  | .member i b n _ =>
    match b.target? with
    | some t => if t.isVariable then some ⟨t, b.targetName, some (.member i.id n.name)⟩ else none
    | none => none
  | .index _ b k _ =>
    match b.target? with
    | some t => if t.isVariable then some ⟨t, b.targetName, some (.ofIndex k)⟩ else none
    | none => none
  | _ => none

mutual

/-- The locations that a type mentions. Those in the parameters of a function type do not count. -/
def Ty.reads : Ty → List Loc
  | .mapping _ k _ v => k.reads ++ v.reads
  | .array v none => v.reads
  | .array v (some n) => v.reads ++ n.reads false
  | _ => []

def AnnTy.reads : AnnTy → List Loc
  | ⟨t, p, _, _, _⟩ => t.reads ++ p.reads false

def Info.typeReads : Info → List Loc
  | ⟨_, _, some t, _, _⟩ => t.reads
  | ⟨_, _, none, _, _⟩ => []

/-- The locations an expression reads; `written` tells whether it is assigned to. -/
def Expr.reads (written : Bool) : Expr → List Loc
  | .call _ f as _ _ => f.reads false ++ Expr.readsAll false as
  | .new i as => i.typeReads ++ Expr.readsAll false as
  | .cast _ t e _ => t.reads ++ e.reads false
  | .arrayLit _ vs _ => Expr.readsAll false vs
  | .tuple _ es => Expr.readsAll written es
  | .ident i n t => if written then [] else (Expr.ident i n t).loc?.toList
  | .member i b n t =>
    b.reads written ++ (if written then [] else (Expr.member i b n t).loc?.toList)
  | .index i b k t =>
    b.reads written ++ k.reads false ++ (if written then [] else (Expr.index i b k t).loc?.toList)
  | .reclassify _ _ e p _ => e.reads false ++ p.reads false
  | _ => []

def Expr.readsAll (written : Bool) : List Expr → List Loc
  | [] => []
  | e :: es => e.reads written ++ Expr.readsAll written es

end

mutual

/-- The functions that are called in a type. Those in the parameters of a function type do not count. -/
def Ty.callees (symbols : Symbols) : Ty → List FunctionDef
  | .mapping _ k _ v => k.callees symbols ++ v.callees symbols
  | .array v none => v.callees symbols
  | .array v (some n) => v.callees symbols ++ n.callees symbols
  | _ => []

def AnnTy.callees (symbols : Symbols) : AnnTy → List FunctionDef
  | ⟨t, p, _, _, _⟩ => t.callees symbols ++ p.callees symbols

def Info.typeCallees (symbols : Symbols) : Info → List FunctionDef
  | ⟨_, _, some t, _, _⟩ => t.callees symbols
  | ⟨_, _, none, _, _⟩ => []

/-- The functions that an expression calls, those of the arguments first. -/
def Expr.callees (symbols : Symbols) : Expr → List FunctionDef
  | .call i f as o k =>
    f.callees symbols ++ Expr.calleesAll symbols as ++
      (if (Expr.call i f as o k).isCastCall then [] else (symbols.callee? f).toList)
  | .new i as => i.typeCallees symbols ++ Expr.calleesAll symbols as
  | .cast _ t e _ => t.callees symbols ++ e.callees symbols
  | .arrayLit _ vs _ => Expr.calleesAll symbols vs
  | .tuple _ es => Expr.calleesAll symbols es
  | .member _ b _ _ => b.callees symbols
  | .index _ b k _ => b.callees symbols ++ k.callees symbols
  | .reclassify _ _ e p _ => e.callees symbols ++ p.callees symbols
  | _ => []

def Expr.calleesAll (symbols : Symbols) : List Expr → List FunctionDef
  | [] => []
  | e :: es => e.callees symbols ++ Expr.calleesAll symbols es

end

/-- What a call of the function writes for its caller. -/
def FunctionDef.stateWrites (f : FunctionDef) : List Loc :=
  if f.hasSideEffects then f.facts.writes.filter Loc.isState else []

/-- What a call of the function reads for its caller. -/
def FunctionDef.stateReads (f : FunctionDef) : List Loc := f.facts.reads.filter Loc.isState

/-! ## Marking statements -/

/-- Accesses found so far: written and read locations. -/
structure Access where
  writes : List Loc
  reads : List Loc

namespace Access

def empty : Access := ⟨[], []⟩

def add (a b : Access) : Access := ⟨Loc.union a.writes b.writes, Loc.union a.reads b.reads⟩

/-- The accesses of several parts in order. -/
def all (parts : List Access) : Access := parts.foldl add empty

def ofInfo (i : StmtInfo) : Access := ⟨i.writes, i.reads⟩

/-- Add accesses to those a statement is marked with. -/
def mark (a : Access) (i : StmtInfo) : StmtInfo :=
  let b := (ofInfo i).add a
  { i with writes := b.writes, reads := b.reads }

/-- What the called functions write and read for their caller. -/
def ofCallees (fs : List FunctionDef) : Access :=
  ⟨Loc.union [] (fs.flatMap FunctionDef.stateWrites), Loc.union [] (fs.flatMap FunctionDef.stateReads)⟩

/-- Mark a statement with these accesses alone. -/
def remark (a : Access) (i : StmtInfo) : StmtInfo := { i with writes := a.writes, reads := a.reads }

end Access

/-- The locations an assignment writes, none of them twice. -/
def Expr.assigned (site : Site) (found : List Loc) : Expr → Except Error (List Loc)
  | .tuple _ es => assignedAll found es
  | e =>
    match e.loc? with
    | none => .ok found
    | some l =>
      if found.contains l then .error (site.atExpr e .assignedTwice) else .ok (found ++ [l])
where
  assignedAll (found : List Loc) : List Expr → Except Error (List Loc)
    | [] => .ok found
    | e :: es => do
      let found ← e.assigned site found
      assignedAll found es

/-- The accesses of an expression's own code. -/
def Expr.access (e : Expr) : Access := ⟨[], Loc.union [] (e.reads false)⟩

def Stmt.access (s : Stmt) : Access := .ofInfo s.info

mutual

/-- Mark every statement with the accesses of its own code. -/
def Stmt.markOwn (site : Site) : Stmt → Except Error Stmt
  | .ifThen i c t none => do
    let t ← t.markOwn site
    return .ifThen ((Access.all [c.access, .ofInfo t.info]).remark i) c t none
  | .ifThen i c t (some e) => do
    let t ← t.markOwn site
    let e ← e.markOwn site
    return .ifThen ((Access.all [c.access, .ofInfo t.info, .ofInfo e.info]).remark i) c t (some e)
  | .whileLoop i c b => do
    let b ← b.markOwn site
    return .whileLoop ((Access.all [c.access, .ofInfo b.info]).remark i) c b
  | .doWhile i b c => do
    let b ← b.markOwn site
    return .doWhile ((Access.all [.ofInfo b.info, c.access]).remark i) b c
  | .forLoop i init c update b => do
    let init ← (match init with
      | none => .ok none
      | some s => do return some (← s.markOwn site))
    let update ← (match update with
      | none => .ok none
      | some s => do return some (← s.markOwn site))
    let b ← b.markOwn site
    let parts := [(init.map Stmt.access).getD .empty, c.access, (update.map Stmt.access).getD .empty,
      .ofInfo b.info]
    return .forLoop ((Access.all parts).remark i) init c update b
  | .ret i e => .ok (.ret (((e.map Expr.access).getD .empty).remark i) e)
  | .eval i e => .ok (.eval (e.access.remark i) e)
  | .require i e => .ok (.require (e.access.remark i) e)
  | .assign i l r o b => do
    let site := { site with stmt := some (.assign i l r o b) }
    let writes ← l.assigned site []
    let a : Access := ⟨writes, Loc.union (Loc.union [] (l.reads true)) (r.reads false)⟩
    return .assign (a.remark i) l r o b
  | .declare i v e =>
    .ok (.declare ((Access.all [⟨[.ofVar v], []⟩, (e.map Expr.access).getD .empty]).remark i) v e)
  | .block b => do return .block (← b.markOwn site)
  | .seq i ss x => do
    let ss ← Stmt.markOwnAll site ss
    return .seq ((Access.all (ss.map Stmt.access)).remark i) ss x
  | s => .ok s

def Block.markOwn (site : Site) : Block → Except Error Block
  | ⟨i, ss, b⟩ => do
    let ss ← Stmt.markOwnAll site ss
    return ⟨(Access.all (ss.map Stmt.access)).remark i, ss, b⟩

def Stmt.markOwnAll (site : Site) : List Stmt → Except Error (List Stmt)
  | [] => .ok []
  | s :: ss => do
    let s ← s.markOwn site
    return s :: (← Stmt.markOwnAll site ss)

end

/-- The accesses of the functions that an expression calls. -/
def Expr.calledAccess (symbols : Symbols) (e : Expr) : Access := .ofCallees (e.callees symbols)

def Expr.calledAccess? (symbols : Symbols) (e : Option Expr) : Access :=
  (e.map (Expr.calledAccess symbols)).getD .empty

/-- The accesses of the functions called in a declared type. -/
def AnnTy.calledAccess (symbols : Symbols) (t : AnnTy) : Access := .ofCallees (t.callees symbols)

mutual

/-- Add to every statement what the functions it calls are known to access. -/
def Stmt.markCalled (symbols : Symbols) : Stmt → Stmt
  | .ifThen i c t none =>
    let t := t.markCalled symbols
    .ifThen ((Access.all [c.calledAccess symbols, .ofInfo t.info]).mark i) c t none
  | .ifThen i c t (some e) =>
    let t := t.markCalled symbols
    let e := e.markCalled symbols
    .ifThen ((Access.all [c.calledAccess symbols, .ofInfo t.info, .ofInfo e.info]).mark i) c t (some e)
  | .whileLoop i c b =>
    let b := b.markCalled symbols
    .whileLoop ((Access.all [c.calledAccess symbols, .ofInfo b.info]).mark i) c b
  | .doWhile i b c =>
    let b := b.markCalled symbols
    .doWhile ((Access.all [.ofInfo b.info, c.calledAccess symbols]).mark i) b c
  | .forLoop i init c update b =>
    let init := match init with
      | none => none
      | some s => some (s.markCalled symbols)
    let update := match update with
      | none => none
      | some s => some (s.markCalled symbols)
    let b := b.markCalled symbols
    let parts := [(init.map Stmt.access).getD .empty, c.calledAccess symbols,
      (update.map Stmt.access).getD .empty, .ofInfo b.info]
    .forLoop ((Access.all parts).mark i) init c update b
  | .ret i e => .ret ((Expr.calledAccess? symbols e).mark i) e
  | .eval i e => .eval ((e.calledAccess symbols).mark i) e
  | .require i e => .require ((e.calledAccess symbols).mark i) e
  | .assign i l r o b =>
    .assign ((Access.all [l.calledAccess symbols, r.calledAccess symbols]).mark i) l r o b
  | .declare i v e =>
    .declare ((Access.all [v.type.calledAccess symbols, Expr.calledAccess? symbols e]).mark i) v e
  | .block b => .block (b.markCalled symbols)
  | .seq i ss x =>
    let ss := Stmt.markCalledAll symbols ss
    .seq ((Access.all (ss.map Stmt.access)).mark i) ss x
  | s => s

def Block.markCalled (symbols : Symbols) : Block → Block
  | ⟨i, ss, b⟩ =>
    let ss := Stmt.markCalledAll symbols ss
    ⟨(Access.all (ss.map Stmt.access)).mark i, ss, b⟩

def Stmt.markCalledAll (symbols : Symbols) : List Stmt → List Stmt
  | [] => []
  | s :: ss => s.markCalled symbols :: Stmt.markCalledAll symbols ss

end

/-! ## Whole programs -/

namespace SourceUnit

/-- Change every function, constructors first, threading a state through. -/
def mapFunctions {σ : Type} (u : SourceUnit) (s : σ)
    (f : Contract → FunctionDef → σ → FunctionDef × σ) : SourceUnit × σ :=
  let visit (c : Contract) (fs : List FunctionDef) (s : σ) : List FunctionDef × σ :=
    fs.foldl (fun (done, s) g =>
      let (g, s) := f c g s
      (done ++ [g], s)) ([], s)
  let (contracts, s) := u.contracts.foldl (fun (done, s) c =>
    let (constructors, s) := visit c c.constructors s
    let (functions, s) := visit c c.functions s
    (done ++ [{ c with constructors, functions }], s)) ([], s)
  ({ u with contracts }, s)

end SourceUnit

/-- Replace the definition of a function. -/
def Symbols.setFunction (s : Symbols) (f : FunctionDef) : Symbols :=
  s.modify f.id fun
    | .function _ c => .function f c
    | d => d

/-- The function accesses what its body accesses. -/
def FunctionDef.summarize (f : FunctionDef) (body : Block) : FunctionDef :=
  { f with
    body := body
    facts := { f.facts with writes := body.info.writes, reads := body.info.reads } }

/-- Mark all functions with the accesses of their own code. -/
def SourceUnit.markOwn (u : SourceUnit) : Except Error SourceUnit := do
  let visit (c : Contract) (f : FunctionDef) : Except Error FunctionDef := do
    let body ← f.body.markOwn ⟨some u.text, some c.name, some f.title, none⟩
    return f.summarize body
  let contracts ← u.contracts.mapM fun c => do
    let constructors ← c.constructors.mapM (visit c)
    let functions ← c.functions.mapM (visit c)
    return { c with constructors, functions }
  return { u with contracts }

/-- The number of locations that functions are known to access. -/
def SourceUnit.accessCount (u : SourceUnit) : Nat :=
  u.allFunctions.foldl (fun n f => n + f.facts.writes.length + f.facts.reads.length) 0

/-- One round: every function learns what the functions it calls access by now. -/
def SourceUnit.markCalledOnce (u : SourceUnit) : SourceUnit :=
  (u.mapFunctions u.symbols fun _ f symbols =>
    let f := f.summarize (f.body.markCalled symbols)
    (f, symbols.setFunction f)).1

/-- Rounds until no function learns anything new. -/
def SourceUnit.markCalled : Nat → SourceUnit → SourceUnit
  | 0, u => u
  | n + 1, u =>
    let v := u.markCalledOnce
    if v.accessCount = u.accessCount then v else SourceUnit.markCalled n v

/-- Mark all statements and functions with the locations they access. Each round adds a location to some
function, so there are at most as many rounds as functions and locations allow. -/
def SourceUnit.markAccesses (u : SourceUnit) : Except Error SourceUnit := do
  let u ← u.markOwn
  return u.markCalled (u.allFunctions.length * u.accessCount + 2)

end Shroud
