import Shroud.Symbol.Table

/-!
# Built-in declarations

The global variables of a contract and the members of addresses. They have the numbers below
`Builtin.firstFree`, which no declaration of a program uses.
-/

namespace Shroud.Builtin

/-- The first number free for declarations of a program. -/
def firstFree : Nat := 100

private def member (id : Nat) (name : String) (type : AnnTy) : LocalVar :=
  ⟨id, [], type, name, none⟩

private def payable : AnnTy := .plain (.address true)

private def argument (id : Nat) (type : AnnTy) : Param := ⟨id, [], type, some "", none, none⟩

/-- Transfers of money cannot take place inside a circuit. -/
private def method (id : Nat) (name : String) (params returns : List Param) : FunctionDef :=
  ⟨id, some name, params, ["public"], returns, .ofStmts [], .unknown,
    { FunctionFacts.initial with canBePrivate := false }⟩

/-- The number of the `length` of arrays. -/
def lengthId : Nat := 23

/-- Members of plain addresses. -/
def addressMembers : List LocalVar := [member 2 "balance" .publicUint]

/-- Members of payable addresses that are no methods. -/
def payableMembers : List LocalVar := [member 4 "balance" .publicUint]

def methods : List FunctionDef := [
  method 5 "send" [argument 24 .publicUint] [argument 25 .publicBool],
  method 6 "transfer" [argument 26 .publicUint] []]

/-- The members of the global variables. -/
def globals : List (Nat × String × List LocalVar) := [
  (7, "msg", [member 8 "sender" payable, member 9 "value" .publicUint]),
  (10, "block", [member 11 "coinbase" payable, member 12 "difficulty" .publicUint,
    member 13 "gaslimit" .publicUint, member 14 "number" .publicUint,
    member 15 "timestamp" .publicUint]),
  (16, "tx", [member 17 "gasprice" .publicUint, member 18 "origin" payable])]

private def structName (n : String) : String := "<" ++ n ++ ">"

private def memberNames (ms : List LocalVar) : List (String × Ref) := ms.map fun m => (m.name, m.ref)

private def structDecls (id : Nat) (name : String) (ms : List LocalVar)
    (fs : List FunctionDef) : List (Nat × Decl) :=
  (id, .space .struct name [name] (memberNames ms ++ fs.map fun f => (f.title, f.ref)) none) ::
    ms.map Decl.ofLocal ++ fs.flatMap (FunctionDef.decls name)

private def globalType (id : Nat) (name : String) : AnnTy :=
  .owned (.named .struct [structName name] (some ⟨.decl .struct id, [structName name]⟩)) .allLabel
    .nonHomomorphic

/-- The variables for the globals, in the order of their structs, and the time. -/
private def globalVars : List (Nat × String × AnnTy) :=
  [(19, "msg", globalType 7 "msg"), (20, "block", globalType 10 "block"),
   (21, "tx", globalType 16 "tx"), (22, "now", .publicUint)]

/-- Everything built in. -/
def decls : List (Nat × Decl) :=
  structDecls 1 "<address>" addressMembers [] ++
    structDecls 3 "<address_payable>" payableMembers methods ++
    globals.flatMap (fun (i, n, ms) => structDecls i (structName n) ms []) ++
    globalVars.map (fun (i, n, t) => (i, .variable .stateVar n [] t)) ++
    [(lengthId, .variable .localVar "length" [] .publicUint)]

/-- The names visible in every program. -/
def names : List (String × Ref) :=
  [("<address>", .decl .struct 1), ("<address_payable>", .decl .struct 3)] ++
    globals.map (fun (i, n, _) => (structName n, Ref.decl .struct i)) ++
    globalVars.map fun (i, n, _) => (n, Ref.decl .stateVar i)

end Shroud.Builtin

namespace Shroud

/-- All declarations of a program together with the built-in ones. -/
def SourceUnit.symbols (u : SourceUnit) : Symbols :=
  ⟨u.contracts.flatMap Contract.decls ++ Builtin.decls⟩

/-- Contracts and built-in names; a built-in name wins. -/
def SourceUnit.names (u : SourceUnit) : List (String × Ref) :=
  collectNames (u.contracts.map (fun c => (c.name, c.ref)) ++ Builtin.names)

end Shroud
