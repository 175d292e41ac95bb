import Shroud.Report.Basic

/-!
# Reports about names

What a linked program says about its scopes: which names each scope declares, where each reference leads,
and which declarations are visible at which statement. Nodes are numbered in the order of `SourceUnit.nodes`.
-/

namespace Shroud

/-- A node that another one leads to: by number, or outside of the program. -/
inductive NodeRef where
  | inside (number : Nat)
  | outside
  deriving DecidableEq, Repr

/-- Where a reference leads. -/
structure LinkRow where
  number : Nat
  kind : String
  code : String
  targetKind : Option String
  target : Option NodeRef
  written : Option Bool

/-- All that linking found. -/
structure LinkReport where
  scopes : List (Nat × String × List String)
  refs : List LinkRow
  qualified : List (Nat × String × List String)
  stmts : List (Nat × String × String)

namespace Node

/-- The expressions that some assignment writes. -/
def written (ns : List Node) : List Nat := ns.flatMap fun
  | .stmt (.assign _ l _ _ _) => l.writtenThrough
  | _ => []

/-- The numbers of all members of structs. -/
def structMembers (ns : List Node) : List Nat := ns.flatMap fun
  | .struct s => s.members.map (·.id)
  | _ => []

/-- The names a node declares for the nodes below it. -/
def declares (members : List Nat) : Node → List String
  | .unit u => u.names.map (·.1)
  | .contract c => c.names.map (·.1)
  | .function f => f.names.map (·.1)
  | .struct s => s.names.map (·.1)
  | .enum e => e.names.map (·.1)
  | .ty (.mapping _ _ l _) => l.toList
  | .localVar v => if members.contains v.id then [v.name] else []
  | .stmt (.block b) => b.declared.map (·.name)
  | .stmt (.forLoop _ init _ update _) =>
    (Stmt.declared? init ++ Stmt.declared? update).map (·.name)
  | _ => []

/-- Where a reference leads among the nodes. -/
def locate (numbered : List (Nat × Node)) (r : Ref) : NodeRef :=
  match r with
  | .element _ _ _ => .outside
  | r =>
    match numbered.find? fun (_, n) => n.declId? == some r.id with
    | some (i, _) => .inside i
    | none => .outside

end Node

/-- What the node leads to, if it is a location or the name of a type. -/
def Node.link? : Node → Option (Option Ref)
  | .expr (.ident _ _ t) | .expr (.member _ _ _ t) | .expr (.index _ _ _ t) => some t
  | .ty (.named _ _ t) => some (t.map (·.ref))
  | .ty (.address p) => some ((Builtin.names.lookup (addressName p)))
  | _ => none

/-- The full names of enums, their values, structs and state variables. -/
def Contract.qualifiedNames (c : Contract) : List (Nat × List String) :=
  c.enums.flatMap (fun e => (e.id, [c.name, e.name]) ::
    e.values.map fun v => (v.id, [c.name, e.name, v.name])) ++
  c.structs.map (fun s => (s.id, [c.name, s.name])) ++
  c.stateVars.map fun v => (v.id, [c.name, v.name])

/-- Name the function around every node: a function covers the nodes that follow it. -/
def Node.withFunctions : List Node → Option (Nat × String) → List (Node × String)
  | [], _ => []
  | .function f :: ns, _ => (.function f, "") :: withFunctions ns (some (f.nodes.length - 1, f.title))
  | n :: ns, some (k + 1, title) => (n, title) :: withFunctions ns (some (k, title))
  | n :: ns, _ => (n, "") :: withFunctions ns none

def SourceUnit.linkReport (u : SourceUnit) : Except Error LinkReport := do
  let nodes := u.nodes
  if !(nodes.filter fun n => n.link?.isSome).all Node.isPrintable then .error .functionType
  let numbered := (List.range nodes.length).zip nodes
  let members := Node.structMembers nodes
  let written := Node.written nodes
  let qualified := u.contracts.flatMap Contract.qualifiedNames
  return {
    scopes := numbered.filterMap fun (i, n) =>
      let names := n.declares members
      if names.isEmpty then none else some (i, n.kind, names)
    refs := numbered.filterMap fun (i, n) =>
      n.link?.map fun r =>
        { number := i, kind := n.kind, code := n.code, targetKind := r.map Ref.kind
          target := r.map (Node.locate numbered)
          written := match n with
            | .expr e => some (written.contains e.id)
            | _ => none }
    qualified := numbered.filterMap fun (i, n) =>
      match n with
      | .enum _ | .enumValue _ | .struct _ | .stateVar _ =>
        (n.declId?.bind fun d => qualified.lookup d).map fun q => (i, n.kind, q)
      | _ => none
    stmts := ((List.range nodes.length).zip (Node.withFunctions nodes none)).filterMap
      fun (i, n, title) =>
        match n with
        | .stmt (.comment _) | .stmt .blank => none
        | .stmt s => some (i, s.kind, title)
        | _ => none }

namespace LinkReport

def report (r : LinkReport) : Report :=
  let named (x : Nat × String × List String) : Report := .list [.nat x.1, .text x.2.1, .texts x.2.2]
  .object [
    ("scopes", .list (r.scopes.map named)),
    ("refs", .list (r.refs.map fun x =>
      .list ([.nat x.number, .text x.kind, .text x.code, .text? x.targetKind, (match x.target with
        | none => .null
        | some (.inside i) => .nat i
        | some .outside => .text "outside")] ++
        (x.written.map fun w => Report.text (if w then "lvalue" else "rvalue")).toList))),
    ("quals", .list (r.qualified.map named)),
    ("stmts", .list (r.stmts.map fun x => .list [.nat x.1, .text x.2.1, .text x.2.2]))]

end LinkReport

/-! ## Visibility -/

mutual

/-- Every statement in order with the declarations visible at it. -/
def Stmt.visibility (scope : Scope) : Stmt → List (Stmt × List Nat)
  | .ifThen i c t none => (.ifThen i c t none, scope.visible) :: t.visibility scope
  | .ifThen i c t (some e) =>
    (.ifThen i c t (some e), scope.visible) :: t.visibility scope ++ e.visibility scope
  | .whileLoop i c b => (.whileLoop i c b, scope.visible) :: b.visibility scope
  | .doWhile i b c => (.doWhile i b c, scope.visible) :: b.visibility scope
  | .forLoop i init c update b =>
    let inner := scope.enterBlock i.pos (Stmt.declared? init ++ Stmt.declared? update)
    let first := match init with
      | none => []
      | some s => s.visibility inner
    let last := match update with
      | none => []
      | some s => s.visibility inner
    (.forLoop i init c update b, scope.visible) :: first ++ last ++ b.visibility inner
  | .block b => b.visibility scope
  | .seq i ss x => (.seq i ss x, scope.visible) :: Stmt.visibilityAll scope ss
  | .comment _ => []
  | .blank => []
  | s => [(s, scope.visible)]

def Block.visibility (scope : Scope) : Block → List (Stmt × List Nat)
  | ⟨i, ss, b⟩ =>
    (.block ⟨i, ss, b⟩, scope.visible) ::
      Stmt.visibilityAll (scope.enterBlock i.pos (Stmt.declaredAll ss)) ss

def Stmt.visibilityAll (scope : Scope) : List Stmt → List (Stmt × List Nat)
  | [] => []
  | s :: ss => s.visibility scope ++ Stmt.visibilityAll scope ss

end

/-- The scope of a function's body. -/
def SourceUnit.functionScope (u : SourceUnit) (c : Contract) (f : FunctionDef) : Scope :=
  (c.context u).scope.enter f.names

/-- Number of statements in the subtree of a statement, itself included. -/
def Stmt.count (s : Stmt) : Nat := (Node.stmts s.nodes).length

mutual

/-- The offsets, in order of `Stmt.visibility`, of the statements that a list holds directly or in a list
inside it. -/
def Stmt.listed (start : Nat) : List Stmt → List Nat
  | [] => []
  | s :: ss =>
    match s with
    | .comment _ | .blank => Stmt.listed start ss
    | s => start :: s.nested (start + 1) ++ Stmt.listed (start + s.count) ss

/-- What a list among the statements holds. -/
def Stmt.nested (start : Nat) : Stmt → List Nat
  | .block b => b.nested start
  | .seq _ xs _ => Stmt.listed start xs
  | _ => []

def Block.nested (start : Nat) : Block → List Nat
  | ⟨_, xs, _⟩ => Stmt.listed start xs

end

/-- All that is visible where. -/
structure ScopeReport where
  visible : List (Option String × List String)
  below : List (List Nat)
  contained : List (List Nat)
  first : List (Option (Option String))

/-- All variables with a name, in order. -/
def SourceUnit.namedVars (u : SourceUnit) : List (Nat × String) := u.nodes.filterMap fun
  | .stateVar v => some (v.id, v.name)
  | .localVar v => some (v.id, v.name)
  | .param p => p.name.map fun n => (p.id, n)
  | _ => none

/-- All statements of a program with the declarations visible at them. -/
def SourceUnit.visibility (u : SourceUnit) : List (Stmt × List Nat) := u.contracts.flatMap fun c =>
  c.allFunctions.flatMap fun f => f.body.visibility (u.functionScope c f)

def SourceUnit.scopeReport (u : SourceUnit) : Except Error ScopeReport := do
  let rows := u.visibility
  if !(rows.all fun (s, _) => s.isPrintable) then .error .functionType
  let numbered := (List.range rows.length).zip rows
  let named := u.namedVars
  return {
    visible := rows.map fun (s, ids) =>
      (s.code? .default, (named.filter fun v => ids.contains v.1).map (·.2))
    below := numbered.map fun (i, s, _) => (List.range s.count).map (· + i)
    contained := numbered.filterMap fun (i, s, _) =>
      match s with
      | .block b => some (Stmt.listed (i + 1) b.stmts)
      | .seq _ ss _ => some (Stmt.listed (i + 1) ss)
      | _ => none
    first := numbered.filterMap fun (_, s, _) =>
      match s with
      | .block b => some (b.stmts.head?.map (Stmt.code? .default))
      | .seq _ ss _ => some (ss.head?.map (Stmt.code? .default))
      | _ => none }

namespace ScopeReport

def report (r : ScopeReport) : Report :=
  .object [
    ("in_scope", .list (r.visible.map fun x => .list [.text? x.1, .texts x.2])),
    ("parent_of", .list (r.below.map Report.nats)),
    ("contains", .list (r.contained.map Report.nats)),
    ("first", .list (r.first.map fun x => match x with
      | some c => .text? c
      | none => .failed .undefinedState))]

end ScopeReport

end Shroud
