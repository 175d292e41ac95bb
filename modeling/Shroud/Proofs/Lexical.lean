import Mathlib.Data.List.Basic
import Mathlib.Data.List.Nodup
import Shroud.Proofs.Numbers

/-!
# Lexical scoping

What a name stands for is usually explained with an environment that is handed down the program. The program finds it
by searching frames, and passes over declarations that come too late.

**Environments.** An environment lists the names in scope, innermost first. A variable joins it after the statement
that declares it and stays until the block ends; what the first part of a `for` declares is there in the condition, the
update and the body. Around blocks stand the parameters, then the members of the contract, then contracts and built-in
names. The key of a mapping is in scope inside the mapping.

**Occurrences.** Every use of a name is listed with the environment at its place, in the order of linking.

**Scopes against environments.** `s.Reads env rest` says that searching `s` finds what `env` says, now and after each
of the variables `rest` that the statements to come will declare.

**Results.** `Scope.Reads` holds in the empty scope and is kept by entering a scope (`Reads.enter`, `Reads.enterBlock`)
and by going on after a declaration (`Reads.declare`).
-/

namespace Shroud

/-! ## Environments -/

/-- Names with what they stand for, innermost declaration first. -/
abbrev Env := List (String × Ref)

def LocalVar.entry (v : LocalVar) : String × Ref := (v.name, v.ref)

namespace Env

/-- The environment inside a mapping. -/
def withKey (env : Env) (mapping : Nat) : Option String → Env
  | none => env
  | some l => (l, .keyLabel mapping none) :: env

/-- The environment after variables were declared one after the other. -/
def declare (env : Env) (vs : List LocalVar) : Env := (vs.map LocalVar.entry).reverse ++ env

@[simp]
theorem declare_nil (env : Env) : env.declare [] = env := rfl

theorem declare_append (env : Env) (vs ws : List LocalVar) : env.declare (vs ++ ws) = (env.declare vs).declare ws := by
  simp [declare]

end Env

/-- A use of a name: what it is linked to, and the environment at its place. -/
structure NameUse where
  name : String
  target : Option Ref
  env : Env

namespace NameUse

/-- What the name stands for. -/
def meaning (o : NameUse) : Option Ref := o.env.lookup o.name

/-- The use linked to what the name stands for. -/
def settled (o : NameUse) : NameUse := { o with target := o.meaning }

end NameUse

/-! ## Occurrences in expressions -/

mutual

def Ty.occurrences (env : Env) : Ty → List NameUse
  | .mapping i k l v => k.occurrences (env.withKey i l) ++ v.occurrences (env.withKey i l)
  | .array v none => v.occurrences env
  | .array v (some n) => v.occurrences env ++ n.occurrences env
  | .function ps _ rs => Param.occurrencesAll env ps ++ Param.occurrencesAll env rs
  | _ => []

def AnnTy.occurrences (env : Env) : AnnTy → List NameUse
  | ⟨t, p, _, _, _⟩ => t.occurrences env ++ p.occurrences env

def Param.occurrences (env : Env) : Param → List NameUse
  | ⟨_, _, t, _, _, _⟩ => t.occurrences env

def Param.occurrencesAll (env : Env) : List Param → List NameUse
  | [] => []
  | p :: ps => p.occurrences env ++ Param.occurrencesAll env ps

/-- Occurrences in the type that an expression carries. -/
def Info.occurrences (env : Env) : Info → List NameUse
  | ⟨_, _, some t, _, _⟩ => t.occurrences env
  | _ => []

def Expr.occurrences (env : Env) : Expr → List NameUse
  | .call _ f as _ _ => f.occurrences env ++ Expr.occurrencesAll env as
  | .new i as => i.occurrences env ++ Expr.occurrencesAll env as
  | .cast _ t e _ => t.occurrences env ++ e.occurrences env
  | .arrayLit _ es _ | .tuple _ es => Expr.occurrencesAll env es
  | .ident _ n t => [⟨n.name, t, env⟩]
  | .member _ e _ _ => e.occurrences env
  | .index _ e k _ => e.occurrences env ++ k.occurrences env
  | .reclassify _ _ e p _ => e.occurrences env ++ p.occurrences env
  | _ => []

def Expr.occurrencesAll (env : Env) : List Expr → List NameUse
  | [] => []
  | e :: es => e.occurrences env ++ Expr.occurrencesAll env es

end

def Expr.occurrences? (env : Env) : Option Expr → List NameUse
  | none => []
  | some e => e.occurrences env

def LocalVar.occurrences (env : Env) (v : LocalVar) : List NameUse := v.type.occurrences env

/-! ## Occurrences in programs -/

mutual

def Stmt.occurrences (env : Env) : Stmt → List NameUse
  | .ifThen _ c t none => c.occurrences env ++ t.occurrences env
  | .ifThen _ c t (some e) => c.occurrences env ++ (t.occurrences env ++ e.occurrences env)
  | .whileLoop _ c b => c.occurrences env ++ b.occurrences env
  | .doWhile _ b c => b.occurrences env ++ c.occurrences env
  | .forLoop _ init c update b =>
    let inner := env.declare (Stmt.declared? init)
    (match init with
      | none => []
      | some s => s.occurrences env) ++
    (c.occurrences inner ++
    ((match update with
      | none => []
      | some s => s.occurrences inner) ++ b.occurrences inner))
  | .ret _ e => Expr.occurrences? env e
  | .eval _ e | .require _ e => e.occurrences env
  | .assign _ l r _ _ => l.occurrences env ++ r.occurrences env
  | .declare _ v e => v.occurrences env ++ Expr.occurrences? env e
  | .block b => b.occurrences env
  | .seq _ ss _ => Stmt.occurrencesAll env ss
  | _ => []

def Block.occurrences (env : Env) : Block → List NameUse
  | ⟨_, ss, _⟩ => Stmt.occurrencesAll env ss

/-- Each statement is read in the environment that the ones before it leave. -/
def Stmt.occurrencesAll (env : Env) : List Stmt → List NameUse
  | [] => []
  | s :: ss => s.occurrences env ++ Stmt.occurrencesAll (env.declare s.declared) ss

end

/-- The parameters as they join the environment. -/
def FunctionDef.entries (f : FunctionDef) : Env :=
  f.params.filterMap fun p => p.name.map fun n => (n, Ref.decl .parameter p.id)

def FunctionDef.occurrences (env : Env) (f : FunctionDef) : List NameUse :=
  Param.occurrencesAll (f.entries ++ env) f.params ++
    (Param.occurrencesAll (f.entries ++ env) f.returns ++ f.body.occurrences (f.entries ++ env))

def StateItem.occurrences (env : Env) : StateItem → List NameUse
  | .var v => v.type.occurrences env ++ Expr.occurrences? env v.init
  | _ => []

def StructDef.entries (s : StructDef) : Env := s.members.map LocalVar.entry

/-- In the type of a member, the member itself is in scope before the others. -/
def StructDef.occurrences (env : Env) (s : StructDef) : List NameUse :=
  s.members.flatMap fun m => m.occurrences (m.entry :: (s.entries ++ env))

/-- The members of a contract as they join the environment. -/
def Contract.entries (c : Contract) : Env :=
  c.stateVars.map (fun v => (v.name, v.ref)) ++ c.functions.map (fun f => (f.title, f.ref)) ++
    c.structs.map (fun s => (s.name, s.ref)) ++ c.enums.map (fun e => (e.name, e.ref))

def Contract.occurrences (env : Env) (c : Contract) : List NameUse :=
  c.structs.flatMap (StructDef.occurrences (c.entries ++ env)) ++
    (c.state.flatMap (StateItem.occurrences (c.entries ++ env)) ++
      (c.constructors.flatMap (FunctionDef.occurrences (c.entries ++ env)) ++
        c.functions.flatMap (FunctionDef.occurrences (c.entries ++ env))))

/-- The outermost environment. -/
def SourceUnit.entries (u : SourceUnit) : Env := u.contracts.map (fun c => (c.name, c.ref)) ++ Builtin.names

def SourceUnit.occurrences (u : SourceUnit) : List NameUse := u.contracts.flatMap (·.occurrences u.entries)

/-! ## Occurrences are the names of the tree -/

/-- The name that an expression is, with what it is linked to. -/
def Expr.use? : Expr → Option (String × Option Ref)
  | .ident _ n t => some (n.name, t)
  | _ => none

namespace Node

/-- The names among the nodes, with what they are linked to. -/
def names (ns : List Node) : List (String × Option Ref) := ns.filterMap fun
  | .expr e => e.use?
  | _ => none

@[simp]
theorem names_append (ns ms : List Node) : names (ns ++ ms) = names ns ++ names ms := List.filterMap_append

@[simp]
theorem names_nil : names [] = [] := rfl

@[simp]
theorem names_flatMap {α : Type} (xs : List α) (f : α → List Node) :
    names (xs.flatMap f) = xs.flatMap fun x => names (f x) := by
  induction xs with
  | nil => rfl
  | cons x xs ih => rw [List.flatMap_cons, names_append, ih, List.flatMap_cons]

section Other

variable (ns : List Node)

@[simp]
theorem names_expr (e : Expr) : names (.expr e :: ns) = e.use?.toList ++ names ns := by
  unfold names
  rw [List.filterMap_cons]
  dsimp only
  cases e.use? <;> rfl

@[simp]
theorem names_unit (u : SourceUnit) : names (.unit u :: ns) = names ns := rfl

@[simp]
theorem names_contract (c : Contract) : names (.contract c :: ns) = names ns := rfl

@[simp]
theorem names_function (f : FunctionDef) : names (.function f :: ns) = names ns := rfl

@[simp]
theorem names_struct (s : StructDef) : names (.struct s :: ns) = names ns := rfl

@[simp]
theorem names_enum (e : EnumDef) : names (.enum e :: ns) = names ns := rfl

@[simp]
theorem names_enumValue (v : EnumValue) : names (.enumValue v :: ns) = names ns := rfl

@[simp]
theorem names_stateVar (v : StateVar) : names (.stateVar v :: ns) = names ns := rfl

@[simp]
theorem names_localVar (v : LocalVar) : names (.localVar v :: ns) = names ns := rfl

@[simp]
theorem names_param (p : Param) : names (.param p :: ns) = names ns := rfl

@[simp]
theorem names_stmt (s : Stmt) : names (.stmt s :: ns) = names ns := rfl

@[simp]
theorem names_ty (t : Ty) : names (.ty t :: ns) = names ns := rfl

@[simp]
theorem names_annTy (t : AnnTy) : names (.annTy t :: ns) = names ns := rfl

@[simp]
theorem names_ident (n : Ident) : names (.ident n :: ns) = names ns := rfl

@[simp]
theorem names_name (n : String) : names (.name n :: ns) = names ns := rfl

end Other

end Node

/-- The name and the target of a use. -/
def NameUse.link (o : NameUse) : String × Option Ref := (o.name, o.target)

section Names

variable (env : Env)

@[simp]
theorem names_label (l : Option String) : Node.names (l.map Node.name).toList = [] := by
  cases l <;> rfl

@[simp]
theorem names_cryptoArray (n : Option Nat) : Node.names (cryptoArrayNodes n) = [] := by
  cases n <;> rfl

mutual

theorem Ty.names_nodes : ∀ (t : Ty) (env : Env), Node.names t.nodes = (t.occurrences env).map NameUse.link
  | .mapping i k l v, env => by
    simp [Ty.nodes, Ty.occurrences, k.names_nodes (env.withKey i l), v.names_nodes (env.withKey i l)]
  | .array v none, env => by
    simp [Ty.nodes, Ty.occurrences, v.names_nodes env]
  | .array v (some n), env => by
    simp [Ty.nodes, Ty.occurrences, v.names_nodes env, n.names_nodes env]
  | .function ps ms rs, env => by
    simp [Ty.nodes, Ty.occurrences, Param.names_nodesAll ps env, Param.names_nodesAll rs env]
  | .cipher .., _ | .publicKey .., _ | .randomness .., _ => by
    simp [Ty.nodes, Ty.occurrences]
  | .named .., _ | .elementary .., _ | .bool, _ | .boolLit .., _ | .number, _ | .numLit .., _ | .integer .., _
  | .address .., _ | .tuple .., _ => rfl

theorem AnnTy.names_nodes : ∀ (t : AnnTy) (env : Env), Node.names t.nodes = (t.occurrences env).map NameUse.link
  | ⟨t, p, h, a, d⟩, env => by
    simp [AnnTy.nodes, AnnTy.occurrences, t.names_nodes env, p.names_nodes env]

theorem Param.names_nodes : ∀ (p : Param) (env : Env), Node.names p.nodes = (p.occurrences env).map NameUse.link
  | ⟨i, k, t, n, s, o⟩, env => by
    simp [Param.nodes, Param.occurrences, t.names_nodes env]

theorem Param.names_nodesAll : ∀ (ps : List Param) (env : Env),
    Node.names (Param.nodesAll ps) = (Param.occurrencesAll env ps).map NameUse.link
  | [], _ => rfl
  | p :: ps, env => by
    simp [Param.nodesAll, Param.occurrencesAll, p.names_nodes env, Param.names_nodesAll ps env]

theorem Info.names_typeNodes : ∀ (i : Info) (env : Env),
    Node.names i.typeNodes = (i.occurrences env).map NameUse.link
  | ⟨_, _, some t, _, _⟩, env => t.names_nodes env
  | ⟨_, _, none, _, _⟩, _ => rfl

theorem Expr.names_nodes : ∀ (e : Expr) (env : Env), Node.names e.nodes = (e.occurrences env).map NameUse.link
  | .call i f as s k, env => by
    simp [Expr.nodes, Expr.occurrences, Expr.use?, f.names_nodes env, Expr.names_nodesAll as env]
  | .new i as, env => by
    simp [Expr.nodes, Expr.occurrences, Expr.use?, i.names_typeNodes env, Expr.names_nodesAll as env]
  | .cast i t e b, env => by
    simp [Expr.nodes, Expr.occurrences, Expr.use?, t.names_nodes env, e.names_nodes env]
  | .arrayLit i es k, env => by
    simp [Expr.nodes, Expr.occurrences, Expr.use?, Expr.names_nodesAll es env]
  | .tuple i es, env => by
    simp [Expr.nodes, Expr.occurrences, Expr.use?, Expr.names_nodesAll es env]
  | .ident i n t, env => rfl
  | .member i e n t, env => by
    simp [Expr.nodes, Expr.occurrences, Expr.use?, e.names_nodes env]
  | .index i e k t, env => by
    simp [Expr.nodes, Expr.occurrences, Expr.use?, e.names_nodes env, k.names_nodes env]
  | .reclassify i m e p h, env => by
    simp [Expr.nodes, Expr.occurrences, Expr.use?, e.names_nodes env, p.names_nodes env]
  | .operator .., _ | .boolLit .., _ | .numLit .., _ | .me .., _ | .all .., _ => rfl

theorem Expr.names_nodesAll : ∀ (es : List Expr) (env : Env),
    Node.names (Expr.nodesAll es) = (Expr.occurrencesAll env es).map NameUse.link
  | [], _ => rfl
  | e :: es, env => by
    simp [Expr.nodesAll, Expr.occurrencesAll, e.names_nodes env, Expr.names_nodesAll es env]

end

theorem Expr.names_nodes? (e : Option Expr) :
    Node.names (Expr.nodes? e) = (Expr.occurrences? env e).map NameUse.link := by
  cases e with
  | none => rfl
  | some e => exact e.names_nodes env

theorem LocalVar.names_nodes (v : LocalVar) : Node.names v.nodes = (v.occurrences env).map NameUse.link := by
  simp [LocalVar.nodes, LocalVar.occurrences, v.type.names_nodes env]

mutual

theorem Stmt.names_nodes : ∀ (s : Stmt) (env : Env), Node.names s.nodes = (s.occurrences env).map NameUse.link
  | .ifThen i c t none, env => by
    simp [Stmt.nodes, Stmt.occurrences, c.names_nodes env, t.names_nodes env]
  | .ifThen i c t (some e), env => by
    simp [Stmt.nodes, Stmt.occurrences, c.names_nodes env, t.names_nodes env, e.names_nodes env]
  | .whileLoop i c b, env => by
    simp [Stmt.nodes, Stmt.occurrences, c.names_nodes env, b.names_nodes env]
  | .doWhile i b c, env => by
    simp [Stmt.nodes, Stmt.occurrences, c.names_nodes env, b.names_nodes env]
  | .forLoop i none c none b, env => by
    simp [Stmt.nodes, Stmt.occurrences, c.names_nodes (env.declare (Stmt.declared? none)),
      b.names_nodes (env.declare (Stmt.declared? none))]
  | .forLoop i none c (some u) b, env => by
    simp [Stmt.nodes, Stmt.occurrences, c.names_nodes (env.declare (Stmt.declared? none)),
      u.names_nodes (env.declare (Stmt.declared? none)), b.names_nodes (env.declare (Stmt.declared? none))]
  | .forLoop i (some a) c none b, env => by
    simp [Stmt.nodes, Stmt.occurrences, a.names_nodes env, c.names_nodes (env.declare (Stmt.declared? (some a))),
      b.names_nodes (env.declare (Stmt.declared? (some a)))]
  | .forLoop i (some a) c (some u) b, env => by
    simp [Stmt.nodes, Stmt.occurrences, a.names_nodes env, c.names_nodes (env.declare (Stmt.declared? (some a))),
      u.names_nodes (env.declare (Stmt.declared? (some a))), b.names_nodes (env.declare (Stmt.declared? (some a)))]
  | .ret i e, env => by
    simp [Stmt.nodes, Stmt.occurrences, Expr.names_nodes? env e]
  | .eval i e, env | .require i e, env => by
    simp [Stmt.nodes, Stmt.occurrences, e.names_nodes env]
  | .assign i l r o b, env => by
    simp [Stmt.nodes, Stmt.occurrences, l.names_nodes env, r.names_nodes env]
  | .declare i v e, env => by
    simp [Stmt.nodes, Stmt.occurrences, v.names_nodes env, Expr.names_nodes? env e]
  | .block b, env => by
    simp [Stmt.nodes, Stmt.occurrences, b.names_nodes env]
  | .seq i ss x, env => by
    simp [Stmt.nodes, Stmt.occurrences, Stmt.names_nodesAll ss env]
  | .breakLoop _, _ | .continueLoop _, _ | .compute .., _ | .enterKey .., _ | .comment _, _ | .blank, _ => rfl

theorem Block.names_nodes : ∀ (b : Block) (env : Env), Node.names b.nodes = (b.occurrences env).map NameUse.link
  | ⟨i, ss, x⟩, env => by
    simp [Block.nodes, Block.occurrences, Stmt.names_nodesAll ss env]

theorem Stmt.names_nodesAll : ∀ (ss : List Stmt) (env : Env),
    Node.names (Stmt.nodesAll ss) = (Stmt.occurrencesAll env ss).map NameUse.link
  | [], _ => rfl
  | s :: ss, env => by
    simp [Stmt.nodesAll, Stmt.occurrencesAll, s.names_nodes env, Stmt.names_nodesAll ss (env.declare s.declared)]

end

theorem FunctionDef.names_nodes (f : FunctionDef) :
    Node.names f.nodes = (f.occurrences env).map NameUse.link := by
  simp [FunctionDef.nodes, FunctionDef.occurrences, Param.names_nodesAll _ (f.entries ++ env), f.body.names_nodes (f.entries ++ env)]

theorem StateItem.names_nodes (i : StateItem) : Node.names i.nodes = (i.occurrences env).map NameUse.link := by
  cases i with
  | var v =>
    simp [StateItem.nodes, StateItem.occurrences, v.type.names_nodes env, Expr.names_nodes? env]
  | comment | blank => rfl

theorem StructDef.names_nodes (s : StructDef) : Node.names s.nodes = (s.occurrences env).map NameUse.link := by
  rw [StructDef.nodes, Node.names_struct, Node.names_name, Node.names_flatMap, StructDef.occurrences, List.map_flatMap]
  exact List.flatMap_congr fun m _ => m.names_nodes _

theorem EnumDef.names_nodes (e : EnumDef) : Node.names e.nodes = [] := by
  rw [EnumDef.nodes, Node.names_enum, Node.names_name, Node.names_flatMap]
  exact List.flatMap_eq_nil_iff.mpr fun _ _ => rfl

theorem Contract.names_nodes (c : Contract) : Node.names c.nodes = (c.occurrences env).map NameUse.link := by
  have enums : (c.enums.flatMap fun e => Node.names e.nodes) = [] :=
    List.flatMap_eq_nil_iff.mpr fun e _ => e.names_nodes
  simp only [Contract.nodes, Contract.occurrences, List.cons_append, Node.names_contract, Node.names_name,
    Node.names_append, Node.names_flatMap, enums, StructDef.names_nodes (c.entries ++ env),
    StateItem.names_nodes (c.entries ++ env), FunctionDef.names_nodes (c.entries ++ env), List.nil_append,
    List.append_assoc, List.map_append, List.map_flatMap]

/-- The uses of names in a program are the names of its tree, in order. -/
theorem SourceUnit.names_nodes (u : SourceUnit) : Node.names u.nodes = u.occurrences.map NameUse.link := by
  simp only [SourceUnit.nodes, SourceUnit.occurrences, Node.names_unit, Node.names_flatMap,
    Contract.names_nodes u.entries, List.map_flatMap]

end Names

/-! ## Names in an environment -/

/-- The reference is the key of a mapping. -/
def Ref.isKey : Ref → Bool
  | .keyLabel _ _ => true
  | _ => false

/-- Within an expression, only keys of mappings join the environment. -/
def NameUse.Within (env : Env) (o : NameUse) : Prop := ∀ p ∈ o.env, p ∈ env ∨ p.2.isKey = true

theorem NameUse.Within.ofKey {env : Env} {i : Nat} {l : Option String} {o : NameUse}
    (h : o.Within (env.withKey i l)) : o.Within env := by
  intro p hp
  cases l with
  | none => exact h p hp
  | some l =>
    rcases h p hp with hp | hp
    · rcases List.mem_cons.mp hp with rfl | hp
      · exact .inr rfl
      · exact .inl hp
    · exact .inr hp

theorem forall_mem_append_of {α : Type} {P : α → Prop} {xs ys : List α} (hx : ∀ x ∈ xs, P x) (hy : ∀ y ∈ ys, P y) :
    ∀ z ∈ xs ++ ys, P z := List.forall_mem_append.mpr ⟨hx, hy⟩

mutual

theorem Ty.occurrences_within : ∀ (t : Ty) (env : Env), ∀ o ∈ t.occurrences env, o.Within env
  | .mapping i k l v, env => by
    simp only [Ty.occurrences]
    exact forall_mem_append_of (fun o ho => (k.occurrences_within _ o ho).ofKey)
      fun o ho => (v.occurrences_within _ o ho).ofKey
  | .array v none, env => by
    simp only [Ty.occurrences]
    exact v.occurrences_within env
  | .array v (some n), env => by
    simp only [Ty.occurrences]
    exact forall_mem_append_of (v.occurrences_within env) (n.occurrences_within env)
  | .function ps ms rs, env => by
    simp only [Ty.occurrences]
    exact forall_mem_append_of (Param.occurrencesAll_within ps env) (Param.occurrencesAll_within rs env)
  | .named .., _ | .elementary .., _ | .bool, _ | .boolLit .., _ | .number, _ | .numLit .., _ | .integer .., _
  | .address .., _ | .cipher .., _ | .publicKey .., _ | .randomness .., _ | .tuple .., _ => by
    simp only [Ty.occurrences]
    exact fun o ho => nomatch ho

theorem AnnTy.occurrences_within : ∀ (t : AnnTy) (env : Env), ∀ o ∈ t.occurrences env, o.Within env
  | ⟨t, p, h, a, d⟩, env => by
    simp only [AnnTy.occurrences]
    exact forall_mem_append_of (t.occurrences_within env) (p.occurrences_within env)

theorem Param.occurrences_within : ∀ (p : Param) (env : Env), ∀ o ∈ p.occurrences env, o.Within env
  | ⟨i, k, t, n, s, o⟩, env => by
    simp only [Param.occurrences]
    exact t.occurrences_within env

theorem Param.occurrencesAll_within :
    ∀ (ps : List Param) (env : Env), ∀ o ∈ Param.occurrencesAll env ps, o.Within env
  | [], _ => fun o ho => nomatch ho
  | p :: ps, env => by
    simp only [Param.occurrencesAll]
    exact forall_mem_append_of (p.occurrences_within env) (Param.occurrencesAll_within ps env)

theorem Info.occurrences_within : ∀ (i : Info) (env : Env), ∀ o ∈ i.occurrences env, o.Within env
  | ⟨i, p, some t, b, x⟩, env => by
    simp only [Info.occurrences]
    exact t.occurrences_within env
  | ⟨i, p, none, b, x⟩, _ => fun o ho => nomatch ho

theorem Expr.occurrences_within : ∀ (e : Expr) (env : Env), ∀ o ∈ e.occurrences env, o.Within env
  | .call i f as s k, env => by
    simp only [Expr.occurrences]
    exact forall_mem_append_of (f.occurrences_within env) (Expr.occurrencesAll_within as env)
  | .new i as, env => by
    simp only [Expr.occurrences]
    exact forall_mem_append_of (i.occurrences_within env) (Expr.occurrencesAll_within as env)
  | .cast i t e b, env => by
    simp only [Expr.occurrences]
    exact forall_mem_append_of (t.occurrences_within env) (e.occurrences_within env)
  | .arrayLit i es k, env | .tuple i es, env => by
    simp only [Expr.occurrences]
    exact Expr.occurrencesAll_within es env
  | .ident i n t, env => by
    simp only [Expr.occurrences, List.mem_singleton]
    rintro o rfl p hp
    exact .inl hp
  | .member i e n t, env => by
    simp only [Expr.occurrences]
    exact e.occurrences_within env
  | .index i e k t, env => by
    simp only [Expr.occurrences]
    exact forall_mem_append_of (e.occurrences_within env) (k.occurrences_within env)
  | .reclassify i m e p h, env => by
    simp only [Expr.occurrences]
    exact forall_mem_append_of (e.occurrences_within env) (p.occurrences_within env)
  | .operator .., _ | .boolLit .., _ | .numLit .., _ | .me .., _ | .all .., _ => by
    simp only [Expr.occurrences]
    exact fun o ho => nomatch ho

theorem Expr.occurrencesAll_within : ∀ (es : List Expr) (env : Env), ∀ o ∈ Expr.occurrencesAll env es, o.Within env
  | [], _ => fun o ho => nomatch ho
  | e :: es, env => by
    simp only [Expr.occurrencesAll]
    exact forall_mem_append_of (e.occurrences_within env) (Expr.occurrencesAll_within es env)

end

theorem Expr.occurrences?_within (e : Option Expr) (env : Env) : ∀ o ∈ Expr.occurrences? env e, o.Within env := by
  cases e with
  | none => exact fun o ho => nomatch ho
  | some e => exact e.occurrences_within env

/-! ## Looking up names -/

section Lookup

variable {xs ys : Env}

theorem mem_of_name {n : String} {r : Ref} (h : xs.lookup n = some r) : (n, r) ∈ xs := by
  obtain ⟨before, after, rfl, _⟩ := List.lookup_eq_some_iff.mp h
  exact List.mem_append_right _ List.mem_cons_self

theorem name_of_mem (h : (xs.map Prod.fst).Nodup) {n : String} {r : Ref} (hr : (n, r) ∈ xs) :
    xs.lookup n = some r := by
  induction xs with
  | nil => cases hr
  | cons x xs ih =>
    obtain ⟨fresh, nodup⟩ := List.nodup_cons.mp h
    rcases List.mem_cons.mp hr with rfl | hr
    · exact List.lookup_cons_self
    · have other : n ≠ x.1 := fun hn => fresh (List.mem_map.mpr ⟨(n, r), hr, hn⟩)
      rw [List.lookup_cons, beq_false_of_ne other]
      exact ih nodup hr

/-- Where names are distinct, their order does not matter. -/
theorem lookup_perm (h : (xs.map Prod.fst).Nodup) (perm : xs.Perm ys) (n : String) : xs.lookup n = ys.lookup n := by
  have nodup : (ys.map Prod.fst).Nodup := (perm.map Prod.fst).nodup_iff.mp h
  cases hx : xs.lookup n with
  | some r => exact (name_of_mem nodup (perm.mem_iff.mp (mem_of_name hx))).symm
  | none =>
    cases hy : ys.lookup n with
    | none => rfl
    | some r => rw [name_of_mem h (perm.mem_iff.mpr (mem_of_name hy))] at hx; cases hx

theorem insertName_of_fresh {n : String} {r : Ref} (h : n ∉ xs.map Prod.fst) : insertName xs n r = xs ++ [(n, r)] := by
  have absent : xs.any (·.1 == n) = false := by
    rw [List.any_eq_false]
    exact fun x hx hn => h (List.mem_map.mpr ⟨x, hx, eq_of_beq hn⟩)
  rw [insertName, absent]
  rfl

/-- Distinct names are collected as they are. -/
theorem collectNames_of_nodup (h : (xs.map Prod.fst).Nodup) : collectNames xs = xs := by
  have collect : ∀ ys zs : Env, ((zs ++ ys).map Prod.fst).Nodup →
      ys.foldl (fun acc y => insertName acc y.1 y.2) zs = zs ++ ys := by
    intro ys
    induction ys with
    | nil => exact fun zs _ => (List.append_nil zs).symm
    | cons y ys ih =>
      intro zs nodup
      obtain ⟨n, r⟩ := y
      have fresh : n ∉ zs.map Prod.fst := fun hy => by
        rw [List.map_append, List.nodup_append] at nodup
        exact nodup.2.2 _ hy _ List.mem_cons_self rfl
      rw [List.append_cons] at nodup ⊢
      rw [List.foldl_cons]
      dsimp only
      rw [insertName_of_fresh fresh, ih _ nodup]
  exact collect xs [] h

/-- What a name stands for after the entries of one name were replaced. -/
theorem lookup_replace (xs : Env) (n : String) (r : Ref) (m : String) :
    (xs.map fun x => if x.1 == n then (n, r) else x).lookup m =
      if m = n then (xs.lookup n).map fun _ => r else xs.lookup m := by
  induction xs with
  | nil => simp
  | cons x xs ih =>
    obtain ⟨k, s⟩ := x
    rw [List.map_cons, List.lookup_cons, List.lookup_cons]
    by_cases hk : k = n
    · subst hk
      rw [if_pos (beq_self_eq_true k), List.lookup_cons]
      by_cases hm : m = k
      · simp [hm]
      · rw [beq_false_of_ne hm, if_neg hm, ih, if_neg hm]
    · rw [if_neg (fun h => hk (eq_of_beq h)), List.lookup_cons, beq_false_of_ne (Ne.symm hk)]
      by_cases hm : m = k
      · simp [hm, hk]
      · rw [beq_false_of_ne hm, ih]

theorem lookup_insertName (xs : Env) (n : String) (r : Ref) (m : String) : (insertName xs n r).lookup m = if m = n then some r else xs.lookup m := by
  unfold insertName
  split
  · rename_i present
    obtain ⟨p, hp, name⟩ := List.any_eq_true.mp present
    have known : (xs.lookup n).isSome := List.lookup_isSome_iff.mpr ⟨p, hp, BEq.symm name⟩
    obtain ⟨s, hs⟩ := Option.isSome_iff_exists.mp known
    exact (lookup_replace xs n r m).trans (by rw [hs]; rfl)
  · rename_i absent
    rw [List.lookup_append]
    by_cases hm : m = n
    · have fresh : xs.lookup n = none := List.lookup_eq_none_iff.mpr fun p hp =>
        bne_iff_ne.mpr fun h => absent (List.any_eq_true.mpr ⟨p, hp, beq_iff_eq.mpr h.symm⟩)
      rw [hm, fresh, if_pos rfl]
      exact List.lookup_cons_self
    · rw [if_neg hm, List.lookup_cons, beq_false_of_ne hm, List.lookup_nil, Option.or_none]

theorem names_insertName (xs : Env) (n : String) (r : Ref) : (insertName xs n r).map Prod.fst =
    if n ∈ xs.map Prod.fst then xs.map Prod.fst else xs.map Prod.fst ++ [n] := by
  have present : (xs.any (·.1 == n) = true) ↔ n ∈ xs.map Prod.fst := by
    simp only [List.any_eq_true, beq_iff_eq, List.mem_map]
  unfold insertName
  split
  · rename_i h
    rw [if_pos (present.mp h), List.map_map]
    refine List.map_congr_left fun p _ => ?_
    by_cases hp : p.1 = n
    · simp [hp]
    · simp [hp]
  · rename_i h
    rw [if_neg (fun hn => h (present.mpr hn)), List.map_append]
    rfl

/-- Of several declarations with one name the last counts. -/
theorem lookup_collectNames (xs : Env) (n : String) : (collectNames xs).lookup n = xs.reverse.lookup n := by
  have collect (ys acc : Env) :
      (ys.foldl (fun acc y => insertName acc y.1 y.2) acc).lookup n = (ys.reverse ++ acc).lookup n := by
    induction ys generalizing acc with
    | nil => rfl
    | cons y ys ih =>
      rw [List.foldl_cons, ih, List.reverse_cons, List.append_assoc, List.lookup_append, List.lookup_append,
        lookup_insertName, List.singleton_append, List.lookup_cons]
      by_cases hn : n = y.1
      · rw [if_pos hn, beq_iff_eq.mpr hn]
      · rw [if_neg hn, beq_false_of_ne hn]
  rw [← List.append_nil xs.reverse]
  exact collect xs []

/-- Collected names are distinct. -/
theorem nodup_collectNames (xs : Env) : ((collectNames xs).map Prod.fst).Nodup := by
  have collect (ys acc : Env) (h : (acc.map Prod.fst).Nodup) :
      ((ys.foldl (fun acc y => insertName acc y.1 y.2) acc).map Prod.fst).Nodup := by
    induction ys generalizing acc with
    | nil => exact h
    | cons y ys ih =>
      refine ih _ ?_
      rw [names_insertName]
      split
      · exact h
      · rename_i fresh
        exact List.nodup_append.mpr ⟨h, List.nodup_singleton _, fun a ha b hb e =>
          fresh (List.mem_singleton.mp hb ▸ e ▸ ha)⟩
  exact collect xs [] List.nodup_nil

/-- Collecting names makes none up. -/
theorem mem_collectNames {xs : Env} {p : String × Ref} (h : p ∈ collectNames xs) : p ∈ xs := by
  have last := name_of_mem (nodup_collectNames xs) h
  rw [lookup_collectNames] at last
  exact List.mem_reverse.mp (mem_of_name last)

end Lookup

/-! ## Scopes and environments -/

namespace Scope

/-- Searching the scope finds what the environment says. -/
def Mirrors (s : Scope) (env : Env) : Prop := ∀ n, (s.value n).toOption = env.lookup n

/-- Searching with other lists of late declarations that agree on everything in the frames. -/
theorem searchValue_later {later later' : List Nat} {n : String} : ∀ (fs : List Frame) (b b' : Option Pos),
    (∀ f ∈ fs, ∀ p ∈ f.names, (p.2.id ∈ later' ↔ p.2.id ∈ later)) →
    (searchValue later' [] n fs b).toOption = (searchValue later [] n fs b').toOption
  | [], _, _, _ => rfl
  | f :: fs, b, b', same => by
    have rest := fun b b' => searchValue_later (n := n) fs b b' fun g hg => same g (List.mem_cons_of_mem _ hg)
    unfold searchValue
    cases hr : f.names.lookup n with
    | none => exact rest b b'
    | some r =>
      have contains : later'.contains r.id = later.contains r.id := by
        rw [Bool.eq_iff_iff, List.contains_iff_mem, List.contains_iff_mem]
        exact same f List.mem_cons_self (n, r) (mem_of_name hr)
      simp only [List.contains_nil, Bool.false_eq_true, if_false, contains]
      split
      · exact rest _ _
      · rfl

/-- A declaration that the search does not find need not be passed over. -/
theorem searchValue_own {later own : List Nat} {n : String} : ∀ (fs : List Frame) (b b' : Option Pos),
    (∀ r, (searchValue later [] n fs b').toOption = some r → r.id ∉ own) →
    (searchValue later own n fs b).toOption = (searchValue later [] n fs b').toOption
  | [], _, _, _ => rfl
  | f :: fs, b, b', other => by
    unfold searchValue at other ⊢
    cases hr : f.names.lookup n with
    | none =>
      simp only [hr] at other ⊢
      exact searchValue_own fs b b' other
    | some r =>
      simp only [hr, List.contains_nil, Bool.false_eq_true, if_false] at other ⊢
      by_cases late : f.block.isSome && later.contains r.id
      · simp only [late, if_true] at other ⊢
        split <;> exact searchValue_own fs _ _ other
      · simp only [late, Bool.false_eq_true, if_false] at other ⊢
        have absent : own.contains r.id = false := by
          rw [List.contains_eq_mem, decide_eq_false_iff_not]
          exact other r rfl
        simp only [absent, Bool.false_eq_true, if_false]

section Mirrors

variable {s : Scope} {env : Env}

theorem Mirrors.enter (own : s.own = []) (h : s.Mirrors env) (names : Env) : (s.enter names).Mirrors (names ++ env) := by
  intro n
  have search : (s.enter names).value n = searchValue s.later [] n (⟨names, none⟩ :: s.frames) none := by
    rw [← own]
    rfl
  rw [List.lookup_append, ← h n, search, searchValue]
  cases names.lookup n with
  | none =>
    rw [value, own]
    rfl
  | some r => rfl

end Mirrors

/-- Searching `s` finds what `env` says, now and after each of the variables `rest` that are still to be declared. -/
structure Reads (s : Scope) (env : Env) (rest : List LocalVar) : Prop where
  own : s.own = []
  mirrors : ∀ a b, rest = a ++ b → (s.declare a).Mirrors (env.declare a)
  known : ∀ p ∈ env, p.2.id ∈ s.visible
  listed : ∀ v ∈ rest, v.id ∈ s.visible
  fresh : ∀ v ∈ rest, ∀ p ∈ env, p.2.id ≠ v.id
  nodup : (rest.map (·.id)).Nodup

@[simp]
theorem declare_nil (s : Scope) : s.declare [] = s := by
  simp [declare]

theorem declare_append (s : Scope) (a b : List LocalVar) : s.declare (a ++ b) = (s.declare a).declare b := by
  simp only [declare, List.filter_filter, List.any_append, Bool.not_or, Bool.and_comm]

theorem visible_enter (s : Scope) (names : Env) : (s.enter names).visible = names.map (·.2.id) ++ s.visible := rfl

theorem visible_enterBlock (s : Scope) (pos : Pos) (vs : List LocalVar) :
    (s.enterBlock pos vs).visible = vs.map (·.id) ++ s.visible := by
  simp only [visible, enterBlock, List.flatMap_cons, List.map_map]
  rfl

/-- The names of a list of variables in the order of their declarations, or in that of the environment. -/
theorem lookup_entries {vs : List LocalVar} (names : (vs.map (·.name)).Nodup) (n : String) :
    ((vs.map LocalVar.entry).reverse).lookup n = (vs.map LocalVar.entry).lookup n := by
  refine (lookup_perm ?_ (List.reverse_perm _).symm n).symm
  rw [List.map_map]
  exact names

/-- Searching a block where the variables `a` are declared and the variables `b` are not. -/
theorem searchValue_block {later : List Nat} {a b : List LocalVar} {pos : Pos} {fs : List Frame} {env : Env} {n : String}
    (declared : ∀ v ∈ a, v.id ∉ later) (late : ∀ v ∈ b, v.id ∈ later) (names : ((a ++ b).map (·.name)).Nodup)
    (outer : ∀ blamed, (searchValue later [] n fs blamed).toOption = env.lookup n) :
    (searchValue later [] n (⟨(a ++ b).map LocalVar.entry, some pos⟩ :: fs) none).toOption =
      (env.declare a).lookup n := by
  rw [List.map_append] at names
  rw [Env.declare, List.lookup_append, lookup_entries (List.nodup_append.mp names).1, searchValue, List.map_append,
    List.lookup_append]
  cases ha : (a.map LocalVar.entry).lookup n with
  | some r =>
    obtain ⟨v, hv, hr⟩ := List.mem_map.mp (mem_of_name ha)
    cases hr
    have seen : v.ref.id ∉ later := declared v hv
    simp [seen, Except.toOption]
  | none =>
    cases hb : (b.map LocalVar.entry).lookup n with
    | none => simpa using outer none
    | some r =>
      obtain ⟨v, hv, hr⟩ := List.mem_map.mp (mem_of_name hb)
      cases hr
      have unseen : v.ref.id ∈ later := late v hv
      simpa [unseen] using outer (some pos)

namespace Reads

variable {s : Scope} {env : Env} {rest : List LocalVar}

theorem empty : Scope.empty.Reads [] [] where
  own := rfl
  mirrors a b h := by
    obtain ⟨rfl, rfl⟩ := List.append_eq_nil_iff.mp h.symm
    exact fun n => rfl
  known p hp := nomatch hp
  listed v hv := nomatch hv
  fresh v hv := nomatch hv
  nodup := List.nodup_nil

theorem now (h : s.Reads env rest) : s.Mirrors env := by
  simpa using h.mirrors [] rest rfl

/-- Parts of the enclosing block are of no concern inside. -/
theorem enter (h : s.Reads env rest) (names : Env) : (s.enter names).Reads (names ++ env) [] where
  own := h.own
  mirrors a b hab := by
    obtain ⟨rfl, rfl⟩ := List.append_eq_nil_iff.mp hab.symm
    simpa using h.now.enter h.own names
  known p hp := by
    rw [visible_enter]
    rcases List.mem_append.mp hp with hp | hp
    · exact List.mem_append_left _ (List.mem_map.mpr ⟨p, hp, rfl⟩)
    · exact List.mem_append_right _ (h.known p hp)
  listed v hv := nomatch hv
  fresh v hv := nomatch hv
  nodup := List.nodup_nil

theorem declare {a : List LocalVar} (h : s.Reads env (a ++ rest)) : (s.declare a).Reads (env.declare a) rest where
  own := h.own
  mirrors b c hbc := by
    rw [← declare_append, ← Env.declare_append]
    exact h.mirrors (a ++ b) c (by rw [hbc, List.append_assoc])
  known p hp := by
    rcases List.mem_append.mp hp with hp | hp
    · obtain ⟨v, hv, rfl⟩ := List.mem_map.mp (List.mem_reverse.mp hp)
      exact h.listed v (List.mem_append_left _ hv)
    · exact h.known p hp
  listed v hv := h.listed v (List.mem_append_right _ hv)
  fresh v hv p hp := by
    rcases List.mem_append.mp hp with hp | hp
    · obtain ⟨w, hw, rfl⟩ := List.mem_map.mp (List.mem_reverse.mp hp)
      have nodup := h.nodup
      rw [List.map_append, List.nodup_append] at nodup
      exact nodup.2.2 _ (List.mem_map.mpr ⟨w, hw, rfl⟩) _ (List.mem_map.mpr ⟨v, hv, rfl⟩)
    · exact h.fresh v (List.mem_append_right _ hv) p hp
  nodup := by
    have nodup := h.nodup
    rw [List.map_append] at nodup
    exact (List.nodup_append.mp nodup).2.1

/-- In a new block, none of its variables is declared yet, and declaring them adds one after the other. -/
theorem enterBlock (h : s.Reads env rest) (pos : Pos) {vs : List LocalVar} (ids : (vs.map (·.id)).Nodup)
    (names : (vs.map (·.name)).Nodup) (apart : ∀ v ∈ vs, v.id ∉ s.visible) :
    (s.enterBlock pos vs).Reads env vs where
  own := h.own
  mirrors a b hab n := by
    subst hab
    have separate := ids
    rw [List.map_append, List.nodup_append] at separate
    have late (i : Nat) : i ∈ ((s.enterBlock pos (a ++ b)).declare a).later ↔
        (i ∈ (a ++ b).map (·.id) ∨ i ∈ s.later) ∧ i ∉ a.map (·.id) := by
      simp only [Scope.declare, Scope.enterBlock, List.mem_filter, List.mem_append, List.mem_map, Bool.not_eq_true',
        List.any_eq_false, beq_iff_eq, not_exists, not_and]
    have search : ((s.enterBlock pos (a ++ b)).declare a).value n =
        searchValue ((s.enterBlock pos (a ++ b)).declare a).later [] n
          (⟨(a ++ b).map LocalVar.entry, some pos⟩ :: s.frames) none := by
      rw [← h.own]
      rfl
    rw [search]
    refine searchValue_block (fun v hv => ?_) (fun v hv => ?_) names fun blamed => ?_
    · exact fun hl => ((late _).mp hl).2 (List.mem_map.mpr ⟨v, hv, rfl⟩)
    · refine (late _).mpr ⟨.inl (List.mem_map.mpr ⟨v, List.mem_append_right _ hv, rfl⟩), fun ha => ?_⟩
      exact separate.2.2 _ ha _ (List.mem_map.mpr ⟨v, hv, rfl⟩) rfl
    · rw [← h.now n, value, h.own]
      refine searchValue_later s.frames blamed none fun f hf p hp => ?_
      have old : p.2.id ∉ (a ++ b).map (·.id) := by
        intro hm
        obtain ⟨v, hv, same⟩ := List.mem_map.mp hm
        exact apart v hv (same ▸ List.mem_flatMap.mpr ⟨f, hf, List.mem_map.mpr ⟨p, hp, rfl⟩⟩)
      rw [late]
      refine ⟨fun hl => hl.1.resolve_left old, fun hl => ⟨.inr hl, fun ha => old ?_⟩⟩
      rw [List.map_append]
      exact List.mem_append_left _ ha
  known p hp := by
    rw [visible_enterBlock]
    exact List.mem_append_right _ (h.known p hp)
  listed v hv := by
    rw [visible_enterBlock]
    exact List.mem_append_left _ (List.mem_map.mpr ⟨v, hv, rfl⟩)
  fresh v hv p hp same := apart v hv (same ▸ h.known p hp)
  nodup := ids

end Reads

end Scope

end Shroud
