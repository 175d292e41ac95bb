import Shroud.Analysis.Finality
import Shroud.Syntax.Traverse
import Shroud.Typing.Stmt

/-!
# Types of programs

Declarations are checked in the order of the contract: enums, structs, state variables, constructors and
functions. A function that is called before it has been checked is called with its types as written. The
several values of a call have in the end the types that the function turned out to return.

**Marks survive.** A failed check leaves the program as far as it had come; the marks of the finished part
are part of the answer.
-/

namespace Shroud

open CheckM

/-- The owner is the sender or everybody. -/
def AnnTy.isKeywordOwned (t : AnnTy) : Bool := t.privacy.isMe || t.privacy.isAll

/-- Any of the expressions has a private type. -/
def Node.havePrivate (ns : List Node) : Bool := (Node.exprs ns).any fun e =>
  (e.type?.map AnnTy.isPrivate).getD false

/-- Give the values of an enum their types, then the enum itself. -/
def EnumDef.check (contract : String) (e : EnumDef) : CheckM EnumDef := do
  if ← stopped then return e
  let values ← e.values.mapM fun v => do
    let names := [contract, e.name, v.name]
    let t := AnnTy.plain (.named .enumValue names (some ⟨.decl .enumValue v.id, names⟩))
    setType v.id t
    return { v with type := some t }
  let names := [contract, e.name]
  let t := AnnTy.plain (.named .enum names (some ⟨e.ref, names⟩))
  setType e.id t
  return { e with values := values, type := some t }

def StructDef.check (site : Site) (s : StructDef) : CheckM StructDef := do
  return { s with members := ← s.members.mapM (LocalVar.check none fun _ => site) }

/-- Initial values are public, and no state variable belongs to the sender. -/
def StateVar.check (site : Site) (v : StateVar) : CheckM StateVar := do
  let t ← v.type.check none fun _ => site
  setType v.id t
  let v := { v with type := t }
  let owned (v : StateVar) : CheckM StateVar :=
    ensure (!v.type.privacy.isMe) (site.atDecl .stateOwnedByMe) v (return v)
  match v.init with
  | none => unlessStopped v (owned v)
  | some e =>
    let e ← e.check ⟨none, fun _ => site⟩
    let put (x : Expr) : StateVar := { v with init := some x }
    unlessStopped (put e) <|
      ensure (!Node.havePrivate e.nodes) (site.atDecl .privateInitializer) (put e) do
        convert (e.coerce (← symbols) none (fun _ => site) true v.type) put fun e => owned (put e)

def StateItem.check (site : Site) : StateItem → CheckM StateItem
  | .var v => do
    if ← stopped then return .var v
    return .var (← v.check site)
  | i => return i

/-- Check the parameters, the returned values and the body, then their owners. -/
def FunctionDef.check (site : Site) (f : FunctionDef) : CheckM FunctionDef := do
  if ← stopped then return f
  let params ← Param.checkAll none (fun _ => site) [] f.params
  let returns ← Param.checkAll none (fun _ => site) [] f.returns
  let f := { f with params := params, returns := returns }
  setFunction f
  let inner := { site with function := some f.title }
  let f := { f with body := ← f.body.check ⟨inner, f.isConstructor, f.returns⟩ }
  setFunction f
  unlessStopped f <|
    ensure (f.params.all (·.type.isKeywordOwned)) (site.atFunction f .parameterOwner) f <|
      ensure (!f.canBeExternal || f.returns.all (·.type.isKeywordOwned))
        (site.atFunction f .returnOwner) f (return f)

def Contract.check (text : List String) (c : Contract) : CheckM Contract := do
  let site : Site := ⟨some text, some c.name, none, none⟩
  let enums ← c.enums.mapM (EnumDef.check c.name)
  let structs ← c.structs.mapM (StructDef.check site)
  let state ← c.state.mapM (StateItem.check site)
  let constructors ← c.constructors.mapM (FunctionDef.check site)
  let functions ← c.functions.mapM (FunctionDef.check site)
  return { c with enums, structs, state, constructors, functions }

/-- A checked program: the program as far as it has been checked, the failure, and the warnings. -/
structure Checked where
  unit : SourceUnit
  failure : Option Error
  warnings : List Warning

/-- Give calls with several results the types that their functions return, also in parentheses. -/
def Expr.settle (symbols : Symbols) (e : Expr) : Expr :=
  Id.run (e.bottomUp fun x => pure (match x with
    | .call _ (.operator _ .paren _ _ _) (a :: _) _ _ =>
      if a.checkedType.type.isTuple then x.withType a.checkedType else x
    | .call _ f _ _ _ =>
      match symbols.callee? f, x.checkedType.type with
      | some g, .tuple _ => x.withType (returnType g.returns)
      | _, _ => x
    | x => x))

def FunctionDef.settle (symbols : Symbols) (f : FunctionDef) : FunctionDef :=
  { f with body := f.body.mapExprs (Expr.settle symbols) }

def Contract.settle (symbols : Symbols) (c : Contract) : Contract :=
  { c with
    constructors := c.constructors.map (FunctionDef.settle symbols)
    functions := c.functions.map (FunctionDef.settle symbols) }

/-- Find the types of a whole program. -/
def SourceUnit.check (u : SourceUnit) : Checked :=
  match u.checkFinality with
  | .error e => ⟨u, some e, []⟩
  | .ok _ =>
    let (contracts, s) := (u.contracts.mapM (Contract.check u.text)).run ⟨u.symbols, none, []⟩
    let contracts := if s.failure.isNone then contracts.map (Contract.settle s.symbols) else contracts
    ⟨{ u with contracts := contracts }, s.failure, s.warnings⟩

end Shroud
