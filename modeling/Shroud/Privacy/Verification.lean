import Shroud.Options
import Shroud.Privacy.Placement
import Shroud.Typing.Program

/-!
# Which functions need a proof

A function that evaluates private expressions, itself or in a function it calls, needs a proof whenever it
is called. A function that can be called from outside also needs one if it has private parameters, because
the caller has to prove that they are well formed.

**Calls** of such functions are proved along with the caller, so they must not be recursive, and loops must
not contain them.
-/

namespace Shroud

/-- The expression moves something into the circuit. -/
def Expr.isPrivateCode : Expr → Bool
  | .reclassify _ _ _ _ _ => true
  | .call _ (.operator _ _ isPrivate _ _) _ _ _ => isPrivate
  | .cast _ _ e _ => e.checkedType.isPrivate
  | _ => false

/-- The body evaluates private expressions. -/
def Block.hasPrivateCode (b : Block) : Bool := b.subexprsInPlace.any fun (_, e) => e.isPrivateCode

/-- Find out which functions need a proof. -/
def SourceUnit.markProofs (u : SourceUnit) : SourceUnit :=
  let own := u.mapFacts fun _ f =>
    let needs := f.facts.needsProof || f.body.hasPrivateCode
    let parameters := f.canBeExternal && f.params.any (·.type.isPrivate)
    { f.facts with
      needsProof := needs
      needsProofExternally := f.facts.needsProofExternally || needs || parameters }
  own.mapFacts fun symbols f =>
    let called := f.facts.calls.any fun g =>
      ((symbols.function? g).map (·.facts.needsProof)).getD false
    if !f.facts.needsProof && called then
      { f.facts with needsProof := true, needsProofExternally := true }
    else f.facts

/-- The function that the expression calls, if it needs a proof when called from outside. -/
def Expr.provedCallee? (symbols : Symbols) (e : Expr) : Option FunctionDef :=
  match e with
  | .call _ f _ _ _ =>
    if e.isCastCall then none
    else match symbols.callee? f with
      | some g => if g.facts.needsProofExternally then some g else none
      | none => none
  | _ => none

/-- Calls that are proved along with the caller cannot be recursive. -/
def SourceUnit.checkRecursion (u : SourceUnit) : Except Error Unit := do
  let symbols := u.symbols
  for c in u.contracts do
    for f in c.allFunctions do
      for (s, e) in f.body.subexprsInPlace do
        match e, e.provedCallee? symbols with
        | .call _ func _ _ _, some g =>
          if g.facts.recursive then
            throw (Site.atExpr ⟨some u.text, some c.name, some f.title, some s⟩ func .recursivePrivateCall)
        | _, _ => pure ()

mutual

/-- Mark the expressions that contain a public call that is proved along with the caller. -/
def Expr.markInlined (symbols : Symbols) : Expr → Expr
  | .call i f as o k =>
    let called := !i.privately && ((Expr.call i f as o k).provedCallee? symbols).isSome
    let f := f.markInlined symbols
    let as := Expr.markAllInlined symbols as
    .call { i with inlined := called || f.info.inlined || as.any (·.info.inlined) } f as o k
  | .new i as =>
    let as := Expr.markAllInlined symbols as
    .new { i with inlined := as.any (·.info.inlined) } as
  | .cast i t e b =>
    let e := e.markInlined symbols
    .cast { i with inlined := e.info.inlined } t e b
  | .arrayLit i vs k =>
    let vs := Expr.markAllInlined symbols vs
    .arrayLit { i with inlined := vs.any (·.info.inlined) } vs k
  | .tuple i es =>
    let es := Expr.markAllInlined symbols es
    .tuple { i with inlined := es.any (·.info.inlined) } es
  | .member i e n t =>
    let e := e.markInlined symbols
    .member { i with inlined := e.info.inlined } e n t
  | .index i e k t =>
    let e := e.markInlined symbols
    let k := k.markInlined symbols
    .index { i with inlined := e.info.inlined || k.info.inlined } e k t
  | .reclassify i m e p h =>
    let e := e.markInlined symbols
    let p := p.markInlined symbols
    .reclassify { i with inlined := e.info.inlined || p.info.inlined } m e p h
  | e => e.mapInfo fun i => { i with inlined := false }

def Expr.markAllInlined (symbols : Symbols) : List Expr → List Expr
  | [] => []
  | e :: es => e.markInlined symbols :: Expr.markAllInlined symbols es

end

def SourceUnit.markInlined (u : SourceUnit) : SourceUnit :=
  let symbols := u.symbols
  let u := (u.mapFunctions () fun _ f _ =>
    ({ f with body := f.body.mapExprs (Expr.markInlined symbols) }, ())).1
  let state (i : StateItem) : StateItem := match i with
    | .var v => .var { v with init := v.init.map (Expr.markInlined symbols) }
    | i => i
  { u with contracts := u.contracts.map fun c => { c with state := c.state.map state } }

/-! ## Loops -/

/-- The nodes evaluate something privately or call a function that needs a proof. -/
def Node.havePrivateCode (symbols : Symbols) (ns : List Node) : Bool := (Node.exprs ns).any fun e =>
  e.info.privately || (match e with
    | .call _ f _ _ _ =>
      !e.isCastCall && ((symbols.callee? f).map (·.facts.needsProof)).getD false
    | _ => false)

/-- Complain about private code in a loop. -/
def Stmt.checkLoop (symbols : Symbols) (site : Site) (s : Stmt) : Except Error Unit := do
  let parts (c : Expr) (b : Block) : Except Error Unit := do
    if Node.havePrivateCode symbols c.nodes then
      throw (Site.atExpr { site with stmt := some s } c .privateLoopCondition)
    if Node.havePrivateCode symbols b.nodes then throw (site.atStmt (.block b) .privateLoopBody)
  match s with
  | .whileLoop _ c b => parts c b
  | .doWhile _ b c => parts c b
  | .forLoop _ _ c update b =>
    parts c b
    match update with
    | some u =>
      if Node.havePrivateCode symbols u.nodes then throw (site.atStmt u .privateLoopUpdate)
    | none => pure ()
  | _ => pure ()

/-- No loop evaluates private expressions, except where it starts. -/
def SourceUnit.checkLoops (u : SourceUnit) : Except Error Unit := do
  let symbols := u.symbols
  for c in u.contracts do
    for f in c.allFunctions do
      for s in Node.stmts f.body.nodes do
        s.checkLoop symbols ⟨some u.text, some c.name, some f.title, none⟩

/-! ## Whole programs -/

/-- Go on unless the program is refused; the marks so far are kept either way. -/
def Checked.andThen (c : Checked) (next : SourceUnit → Checked) : Checked :=
  match c.failure with
  | some _ => c
  | none =>
    let d := next c.unit
    { d with warnings := c.warnings ++ d.warnings }

def Checked.ensure (u : SourceUnit) (x : Except Error Unit) : Checked :=
  match x with
  | .ok _ => ⟨u, none, []⟩
  | .error e => ⟨u, some e, []⟩

/-- Decide what is evaluated in circuits and which functions need proofs. -/
def SourceUnit.markCircuits (u : SourceUnit) (o : Options) : Checked :=
  let (u, failure) := u.markCapable.place o.foldConstants.holds
  (((Checked.mk u failure []).andThen fun u => .ensure u u.checkInlineable).andThen fun u =>
    let u := u.markProofs
    .ensure u u.checkRecursion).andThen fun u =>
      let u := u.markInlined
      .ensure u u.checkLoops

/-- The verification contracts that the program needs; functions come before constructors. -/
def SourceUnit.verifiers (u : SourceUnit) : List String :=
  u.contracts.flatMap fun c =>
    ((c.functions ++ c.constructors).filter (·.facts.needsProofExternally)).map fun f =>
      Generated.verifier c.name f.title

end Shroud
