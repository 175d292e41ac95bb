import Mathlib.Logic.Relation
import Shroud.Proofs.Nodes
import Shroud.Proofs.Pointwise

/-!
# Below a node

The list of all nodes of an expression or a statement, and the steps from a node to those directly below it, describe
the same thing: a node is in the list exactly if it stands below. The list is what the analyses look at, the steps are
what is said about paths: what can be reached from a node on some ways and not on others.

**Closures.** `Node.All next P n` says that `P` holds of all nodes that steps with `next` lead to from `n`. With
`Node.parts` these are all nodes below (`Expr.all_nodes`, `Stmt.all_nodes`), with `Node.visited` those that occur in
programs. With `Node.openParts` they are the nodes that a mark on `n` is about: keys of index expressions and public
operands of reclassifications are left out.

**Changes.** A change of all expressions of a statement that keeps their shape goes over to closures
(`Node.Like.all_iff`).
-/

namespace Shroud

/-- The expression is a name or a keyword that stands for an address. -/
def Expr.isName : Expr → Bool
  | .ident .. | .me _ | .all _ => true
  | _ => false

namespace Node

variable {next : Node → List Node} {P Q : Node → Prop} {n m : Node} {ns : List Node}

/-- The nodes directly below that occur in programs: no types of functions and of ciphertexts are written there, and
labels are keywords or names. -/
def visited : Node → List Node
  | .ty (.function ..) | .ty (.cipher ..) | .ty (.publicKey _) | .ty (.randomness _) => []
  | .expr (.reclassify _ _ e p _) => .expr e :: if p.isName then [.expr p] else []
  | n => n.parts

/-- Visited nodes, apart from keys of index expressions and public operands of reclassifications. -/
def openParts : Node → List Node
  | .expr (.index _ e _ _) => [.expr e]
  | .expr (.reclassify _ _ e p _) =>
    (if e.checkedType.isPrivate then [.expr e] else []) ++ if p.isName then [.expr p] else []
  | n => n.visited

/-- Open parts lead from the first node to the second. -/
def Reaches : Node → Node → Prop := Relation.ReflTransGen fun n m => m ∈ n.openParts

/-- The property holds of all nodes that steps with `next` lead to. -/
def All (next : Node → List Node) (P : Node → Prop) (n : Node) : Prop :=
  ∀ m, Relation.ReflTransGen (fun n m => m ∈ next n) n m → P m

theorem all_iff : n.All next P ↔ P n ∧ ∀ m ∈ next n, m.All next P := by
  constructor
  · intro h
    exact ⟨h n .refl, fun m hm x hx => h x (.head hm hx)⟩
  · rintro ⟨self, parts⟩ m hm
    obtain rfl | ⟨c, hc, below⟩ := Relation.ReflTransGen.cases_head_iff.mp hm
    · exact self
    · exact parts c hc m below

theorem All.self (h : n.All next P) : P n := (all_iff.mp h).1

theorem All.part (h : n.All next P) (hm : m ∈ next n) : m.All next P := (all_iff.mp h).2 m hm

theorem All.below (h : n.All next P) (hm : Relation.ReflTransGen (fun n m => m ∈ next n) n m) : m.All next P :=
  fun x hx => h x (hm.trans hx)

/-- Fewer steps lead to fewer nodes. -/
theorem All.mono {fewer : Node → List Node} (sub : ∀ n, fewer n ⊆ next n) (h : n.All next P) : n.All fewer P :=
  fun m hm => h m (Relation.ReflTransGen.mono (fun _ _ step => sub _ step) _ _ hm)

theorem All.imp (h : n.All next P) (f : ∀ m, P m → Q m) : n.All next Q := fun m hm => f m (h m hm)

/-- A property goes over to other nodes whose steps can be followed. -/
theorem All.transfer {S : Node → Node → Prop} (step : ∀ n m, S n m → ∀ y ∈ next m, ∃ x ∈ next n, S x y)
    (keeps : ∀ n m, S n m → P n → Q m) (h : n.All next P) (related : S n m) : m.All next Q := by
  intro y hy
  suffices followed : ∃ x, Relation.ReflTransGen (fun n m => m ∈ next n) n x ∧ S x y by
    obtain ⟨x, hx, hS⟩ := followed
    exact keeps x y hS (h x hx)
  induction hy with
  | refl => exact ⟨n, .refl, related⟩
  | tail _ last ih =>
    obtain ⟨x, hx, hS⟩ := ih
    obtain ⟨x', there, hS'⟩ := step x _ hS _ last
    exact ⟨x', hx.tail there, hS'⟩

theorem visited_subset (n : Node) : n.visited ⊆ n.parts := by
  cases n with
  | ty t =>
    cases t with
    | function | cipher | publicKey | randomness => exact List.nil_subset _
    | _ => exact List.Subset.refl _
  | expr e =>
    cases e with
    | reclassify i m e p h =>
      show (Node.expr e :: if p.isName then [Node.expr p] else []) ⊆ [Node.expr e, Node.expr p]
      split
      · exact List.Subset.refl _
      · exact List.cons_subset_cons _ (List.nil_subset _)
    | _ => exact List.Subset.refl _
  | _ => exact List.Subset.refl _

theorem openParts_subset (n : Node) : n.openParts ⊆ n.visited := by
  cases n with
  | expr e =>
    cases e with
    | index => exact List.cons_subset_cons _ (List.nil_subset _)
    | reclassify i m e p h =>
      show (if e.checkedType.isPrivate then [Node.expr e] else []) ++ _ ⊆ [Node.expr e] ++ _
      refine List.append_subset.mpr ⟨?_, List.subset_append_right _ _⟩
      split
      · exact List.subset_append_left _ _
      · exact List.nil_subset _
    | _ => exact List.Subset.refl _
  | _ => exact List.Subset.refl _

theorem all_leaf (leaf : next n = []) : n.All next P ↔ P n := by
  rw [all_iff, leaf]
  exact and_iff_left (List.forall_mem_nil _)

/-- If a list holds all that is below the parts of a node, the list with the node holds all that is below the node. -/
theorem all_of_parts (h : (∀ m ∈ ns, P m) ↔ ∀ m ∈ n.parts, m.All parts P) :
    (∀ m ∈ n :: ns, P m) ↔ n.All parts P := by
  rw [List.forall_mem_cons, all_iff, h]

end Node

/-! ## The parts of expressions and types -/

theorem forall_mem_some {α : Type} {P : α → Prop} {a : α} : (∀ b ∈ some a, P b) ↔ P a := by simp

namespace Node

variable {P : Node → Prop} {i : Info} {e f k p : Expr} {es : List Expr}

theorem all_name {x : Option String} :
    (∀ m ∈ (x.map Node.name).toList, m.All parts P) ↔ ∀ y ∈ x, P (.name y) := by
  cases x with
  | none => exact iff_of_true (List.forall_mem_nil _) nofun
  | some x =>
    rw [Option.map_some, Option.toList_some, List.forall_mem_singleton, all_leaf (n := .name x) rfl, forall_mem_some]

theorem all_optional {x : Option Expr} :
    (∀ m ∈ (x.map Node.expr).toList, m.All parts P) ↔ ∀ e ∈ x, (Node.expr e).All parts P := by
  cases x with
  | none => exact iff_of_true (List.forall_mem_nil _) nofun
  | some x => rw [Option.map_some, Option.toList_some, List.forall_mem_singleton, forall_mem_some]

theorem all_mapping {id : Nat} {t : Ty} {x : Option String} {v : AnnTy} :
    (Node.ty (.mapping id t x v)).All parts P ↔ P (.ty (.mapping id t x v)) ∧ (Node.ty t).All parts P ∧
      (∀ y ∈ x, P (.name y)) ∧ (Node.annTy v).All parts P := by
  rw [all_iff]
  show _ ∧ (∀ m ∈ Node.ty t :: ((x.map Node.name).toList ++ [.annTy v]), m.All parts P) ↔ _
  rw [List.forall_mem_cons, List.forall_mem_append, List.forall_mem_singleton, all_name]

theorem all_array {v : AnnTy} {x : Option Expr} : (Node.ty (.array v x)).All parts P ↔
    P (.ty (.array v x)) ∧ (Node.annTy v).All parts P ∧ ∀ e ∈ x, (Node.expr e).All parts P := by
  rw [all_iff]
  show _ ∧ (∀ m ∈ Node.annTy v :: (x.map Node.expr).toList, m.All parts P) ↔ _
  rw [List.forall_mem_cons, all_optional]

theorem all_annTy {t : AnnTy} : (Node.annTy t).All parts P ↔
    P (.annTy t) ∧ (Node.ty t.type).All parts P ∧ (Node.expr t.privacy).All parts P := by
  rw [all_iff]
  show _ ∧ (∀ m ∈ [Node.ty t.type, .expr t.privacy], m.All parts P) ↔ _
  rw [List.forall_mem_cons, List.forall_mem_singleton]

theorem all_call {o : Int} {x : Option CircuitVar} : (Node.expr (.call i f es o x)).All parts P ↔
    P (.expr (.call i f es o x)) ∧ (Node.expr f).All parts P ∧ ∀ e ∈ es, (Node.expr e).All parts P := by
  rw [all_iff]
  show _ ∧ (∀ m ∈ Node.expr f :: es.map Node.expr, m.All parts P) ↔ _
  rw [List.forall_mem_cons, List.forall_mem_map]

theorem all_new : (Node.expr (.new i es)).All parts P ↔ P (.expr (.new i es)) ∧
    (∀ t ∈ i.type, (Node.annTy t).All parts P) ∧ ∀ e ∈ es, (Node.expr e).All parts P := by
  rw [all_iff]
  show _ ∧ (∀ m ∈ (i.type.map Node.annTy).toList ++ es.map Node.expr, m.All parts P) ↔ _
  rw [List.forall_mem_append, List.forall_mem_map]
  cases i.type with
  | none => exact and_congr_right fun _ => and_congr_left fun _ => iff_of_true (List.forall_mem_nil _) nofun
  | some t => rw [Option.map_some, Option.toList_some, List.forall_mem_singleton, forall_mem_some]

theorem all_cast {t : Ty} {b : Bool} : (Node.expr (.cast i t e b)).All parts P ↔
    P (.expr (.cast i t e b)) ∧ (Node.ty t).All parts P ∧ (Node.expr e).All parts P := by
  rw [all_iff]
  show _ ∧ (∀ m ∈ [Node.ty t, .expr e], m.All parts P) ↔ _
  rw [List.forall_mem_cons, List.forall_mem_singleton]

theorem all_arrayLit {b : Bool} : (Node.expr (.arrayLit i es b)).All parts P ↔
    P (.expr (.arrayLit i es b)) ∧ ∀ e ∈ es, (Node.expr e).All parts P := by
  rw [all_iff]
  exact and_congr_right fun _ => List.forall_mem_map

theorem all_tuple : (Node.expr (.tuple i es)).All parts P ↔
    P (.expr (.tuple i es)) ∧ ∀ e ∈ es, (Node.expr e).All parts P := by
  rw [all_iff]
  exact and_congr_right fun _ => List.forall_mem_map

theorem all_member {n : Ident} {r : Option Ref} : (Node.expr (.member i e n r)).All parts P ↔
    P (.expr (.member i e n r)) ∧ (Node.expr e).All parts P ∧ P (.ident n) := by
  rw [all_iff]
  show _ ∧ (∀ m ∈ [Node.expr e, .ident n], m.All parts P) ↔ _
  rw [List.forall_mem_cons, List.forall_mem_singleton, all_leaf (n := .ident n) rfl]

theorem all_index {r : Option Ref} : (Node.expr (.index i e k r)).All parts P ↔
    P (.expr (.index i e k r)) ∧ (Node.expr e).All parts P ∧ (Node.expr k).All parts P := by
  rw [all_iff]
  show _ ∧ (∀ m ∈ [Node.expr e, .expr k], m.All parts P) ↔ _
  rw [List.forall_mem_cons, List.forall_mem_singleton]

theorem all_reclassify {m : ReclassifyForm} {h : Option Hom} : (Node.expr (.reclassify i m e p h)).All parts P ↔
    P (.expr (.reclassify i m e p h)) ∧ (Node.expr e).All parts P ∧ (Node.expr p).All parts P := by
  rw [all_iff]
  show _ ∧ (∀ m ∈ [Node.expr e, .expr p], m.All parts P) ↔ _
  rw [List.forall_mem_cons, List.forall_mem_singleton]

theorem all_ident {n : Ident} {r : Option Ref} :
    (Node.expr (.ident i n r)).All parts P ↔ P (.expr (.ident i n r)) ∧ P (.ident n) := by
  rw [all_iff]
  show _ ∧ (∀ m ∈ [Node.ident n], m.All parts P) ↔ _
  rw [List.forall_mem_singleton, all_leaf rfl]

end Node

/-! ## All nodes of an expression -/

section Nodes

variable (P : Node → Prop)

theorem name_nodes {x : Option String} : (∀ m ∈ (x.map Node.name).toList, P m) ↔ ∀ y ∈ x, P (.name y) := by
  cases x with
  | none => exact iff_of_true (List.forall_mem_nil _) nofun
  | some x => rw [Option.map_some, Option.toList_some, List.forall_mem_singleton, forall_mem_some]

theorem cryptoArray_nodes {x : Option Nat} : (∀ m ∈ cryptoArrayNodes x, P m) ↔
    ∀ m ∈ Node.annTy .publicUint :: (x.map fun n => Node.expr (.literal n)).toList, m.All Node.parts P := by
  have element : (∀ m ∈ [Node.annTy .publicUint, .ty AnnTy.uint, .expr .allLabel], P m) ↔
      (Node.annTy .publicUint).All Node.parts P := by
    rw [Node.all_annTy, List.forall_mem_cons, List.forall_mem_cons, List.forall_mem_singleton]
    exact and_congr_right fun _ => and_congr (Node.all_leaf rfl).symm (Node.all_leaf rfl).symm
  refine (List.forall_mem_append.trans (and_congr element ?_)).trans List.forall_mem_cons.symm
  cases x with
  | none => exact iff_of_true (List.forall_mem_nil _) (List.forall_mem_nil _)
  | some n => exact List.forall_mem_singleton.trans ((Node.all_leaf rfl).symm.trans List.forall_mem_singleton.symm)

mutual

theorem Ty.all_nodes : ∀ t : Ty, (∀ m ∈ t.nodes, P m) ↔ (Node.ty t).All Node.parts P
  | .mapping i k l v => by
    rw [Node.all_mapping, Ty.nodes, List.forall_mem_append, List.forall_mem_append, List.forall_mem_cons, k.all_nodes,
      v.all_nodes, name_nodes, and_assoc, and_assoc]
  | .array v none => Node.all_of_parts (v.all_nodes.trans List.forall_mem_singleton.symm)
  | .array v (some n) => by
    rw [Node.all_array, Ty.nodes, List.forall_mem_append, List.forall_mem_cons, v.all_nodes, n.all_nodes,
      and_assoc, forall_mem_some]
  | .function ps ms rs => by
    refine Node.all_of_parts ?_
    show (∀ m ∈ Param.nodesAll ps ++ Param.nodesAll rs, P m) ↔ ∀ m ∈ (ps ++ rs).map Node.param, m.All Node.parts P
    rw [List.forall_mem_append, List.forall_mem_map, List.forall_mem_append, Param.all_nodesAll ps,
      Param.all_nodesAll rs]
  | .cipher _ _ | .publicKey _ | .randomness _ => Node.all_of_parts (cryptoArray_nodes P)
  | .elementary _ | .bool | .boolLit _ | .number | .numLit _ | .integer _ _ | .named _ _ _ | .address _ | .tuple _ => by
    rw [Node.all_leaf rfl]
    exact List.forall_mem_singleton

theorem AnnTy.all_nodes : ∀ t : AnnTy, (∀ m ∈ t.nodes, P m) ↔ (Node.annTy t).All Node.parts P
  | ⟨t, p, h, a, d⟩ => by
    rw [Node.all_annTy, AnnTy.nodes, List.forall_mem_append, List.forall_mem_cons, t.all_nodes, p.all_nodes, and_assoc]

theorem Param.all_nodes : ∀ p : Param, (∀ m ∈ p.nodes, P m) ↔ (Node.param p).All Node.parts P
  | ⟨i, k, t, n, s, o⟩ => by
    refine Node.all_of_parts ?_
    show (∀ m ∈ t.nodes ++ (n.map Node.name).toList, P m) ↔
      ∀ m ∈ Node.annTy t :: (n.map Node.name).toList, m.All Node.parts P
    rw [List.forall_mem_append, List.forall_mem_cons, t.all_nodes, Node.all_name, name_nodes]

theorem Param.all_nodesAll : ∀ ps : List Param,
    (∀ m ∈ Param.nodesAll ps, P m) ↔ ∀ p ∈ ps, (Node.param p).All Node.parts P
  | [] => iff_of_true (List.forall_mem_nil _) (List.forall_mem_nil _)
  | p :: ps => by
    rw [List.forall_mem_cons, Param.nodesAll, List.forall_mem_append, p.all_nodes, Param.all_nodesAll ps]

theorem Info.all_typeNodes : ∀ i : Info,
    (∀ m ∈ i.typeNodes, P m) ↔ ∀ t ∈ i.type, (Node.annTy t).All Node.parts P
  | ⟨_, _, some t, _, _⟩ => t.all_nodes.trans (forall_mem_some (P := fun t => (Node.annTy t).All Node.parts P)).symm
  | ⟨_, _, none, _, _⟩ => iff_of_true (List.forall_mem_nil _) nofun

/-- The list of nodes of an expression holds the nodes below it. -/
theorem Expr.all_nodes : ∀ e : Expr, (∀ m ∈ e.nodes, P m) ↔ (Node.expr e).All Node.parts P
  | .call i f as o k => by
    rw [Node.all_call, Expr.nodes, List.forall_mem_append, List.forall_mem_cons, f.all_nodes, Expr.all_nodesAll as,
      and_assoc]
  | .new i as => by
    rw [Node.all_new, Expr.nodes, List.forall_mem_append, List.forall_mem_cons, i.all_typeNodes, Expr.all_nodesAll as,
      and_assoc]
  | .cast i t e b => by
    rw [Node.all_cast, Expr.nodes, List.forall_mem_append, List.forall_mem_cons, t.all_nodes, e.all_nodes, and_assoc]
  | .arrayLit i es _ | .tuple i es => Node.all_of_parts ((Expr.all_nodesAll es).trans List.forall_mem_map.symm)
  | .member i e n t => by
    rw [Node.all_member, Expr.nodes, List.forall_mem_append, List.forall_mem_cons, List.forall_mem_singleton,
      e.all_nodes, and_assoc]
  | .index i e k t => by
    rw [Node.all_index, Expr.nodes, List.forall_mem_append, List.forall_mem_cons, e.all_nodes, k.all_nodes, and_assoc]
  | .reclassify i m e p h => by
    rw [Node.all_reclassify, Expr.nodes, List.forall_mem_append, List.forall_mem_cons, e.all_nodes, p.all_nodes,
      and_assoc]
  | .ident i n t => by rw [Node.all_ident, Expr.nodes, List.forall_mem_cons, List.forall_mem_singleton]
  | .operator .. | .boolLit .. | .numLit .. | .me _ | .all _ => by
    rw [Node.all_leaf rfl]
    exact List.forall_mem_singleton

theorem Expr.all_nodesAll : ∀ es : List Expr,
    (∀ m ∈ Expr.nodesAll es, P m) ↔ ∀ e ∈ es, (Node.expr e).All Node.parts P
  | [] => iff_of_true (List.forall_mem_nil _) (List.forall_mem_nil _)
  | e :: es => by
    rw [List.forall_mem_cons, Expr.nodesAll, List.forall_mem_append, e.all_nodes, Expr.all_nodesAll es]

end

theorem Expr.all_nodes? (e : Option Expr) :
    (∀ m ∈ Expr.nodes? e, P m) ↔ ∀ m ∈ (e.map Node.expr).toList, m.All Node.parts P := by
  cases e with
  | none => exact iff_of_true (List.forall_mem_nil _) (List.forall_mem_nil _)
  | some e => exact (e.all_nodes P).trans List.forall_mem_singleton.symm

theorem LocalVar.all_nodes (v : LocalVar) : (∀ m ∈ v.nodes, P m) ↔ (Node.localVar v).All Node.parts P := by
  refine Node.all_of_parts ?_
  show (∀ m ∈ v.type.nodes ++ [.name v.name], P m) ↔ ∀ m ∈ [Node.annTy v.type, .name v.name], m.All Node.parts P
  rw [List.forall_mem_append, List.forall_mem_singleton, v.type.all_nodes, List.forall_mem_cons,
    List.forall_mem_singleton, Node.all_leaf (n := .name v.name) rfl]

/-- The list of nodes of a statement holds the nodes below it. -/
theorem Stmt.all_nodes (s : Stmt) : (∀ m ∈ s.nodes, P m) ↔ (Node.stmt s).All Node.parts P := by
  have all (ss : List Stmt) (ih : ∀ s ∈ ss, (∀ m ∈ s.nodes, P m) ↔ (Node.stmt s).All Node.parts P) :
      (∀ m ∈ Stmt.nodesAll ss, P m) ↔ ∀ m ∈ ss.map Node.stmt, m.All Node.parts P := by
    induction ss with
    | nil => exact iff_of_true (List.forall_mem_nil _) (List.forall_mem_nil _)
    | cons s ss hss =>
      rw [Stmt.nodesAll, List.forall_mem_append, List.map_cons, List.forall_mem_cons, ih s List.mem_cons_self,
        hss fun t ht => ih t (List.mem_cons_of_mem _ ht)]
  have body (t : Block) (ih : ∀ s ∈ t.stmts, (∀ m ∈ s.nodes, P m) ↔ (Node.stmt s).All Node.parts P) :
      (∀ m ∈ t.nodes, P m) ↔ (Node.stmt (.block t)).All Node.parts P := by
    obtain ⟨i, ss, x⟩ := t
    exact Node.all_of_parts (all ss ih)
  have optional (a : Option Stmt)
      (ih : ∀ s, a = some s → ((∀ m ∈ s.nodes, P m) ↔ (Node.stmt s).All Node.parts P)) :
      (∀ m ∈ (a.map Stmt.nodes).getD [], P m) ↔ ∀ m ∈ (a.map Node.stmt).toList, m.All Node.parts P := by
    cases a with
    | none => exact iff_of_true (List.forall_mem_nil _) (List.forall_mem_nil _)
    | some s => exact (ih s rfl).trans List.forall_mem_singleton.symm
  induction s using Stmt.inductOn with
  | ifThen i c t e ht he =>
    cases e with
    | none =>
      refine Node.all_of_parts ?_
      show (∀ m ∈ c.nodes ++ t.nodes, P m) ↔ ∀ m ∈ [Node.expr c, .stmt (.block t)], m.All Node.parts P
      rw [List.forall_mem_append, List.forall_mem_cons, List.forall_mem_singleton, c.all_nodes, body t ht]
    | some e =>
      refine Node.all_of_parts ?_
      show (∀ m ∈ c.nodes ++ t.nodes ++ e.nodes, P m) ↔
        ∀ m ∈ [Node.expr c, .stmt (.block t), .stmt (.block e)], m.All Node.parts P
      rw [List.forall_mem_append, List.forall_mem_append, List.forall_mem_cons, List.forall_mem_cons,
        List.forall_mem_singleton, c.all_nodes, body t ht, body e (he e rfl), and_assoc]
  | whileLoop i c t hb =>
    refine Node.all_of_parts ?_
    show (∀ m ∈ c.nodes ++ t.nodes, P m) ↔ ∀ m ∈ [Node.expr c, .stmt (.block t)], m.All Node.parts P
    rw [List.forall_mem_append, List.forall_mem_cons, List.forall_mem_singleton, c.all_nodes, body t hb]
  | doWhile i t c hb =>
    refine Node.all_of_parts ?_
    show (∀ m ∈ t.nodes ++ c.nodes, P m) ↔ ∀ m ∈ [Node.stmt (.block t), .expr c], m.All Node.parts P
    rw [List.forall_mem_append, List.forall_mem_cons, List.forall_mem_singleton, c.all_nodes, body t hb]
  | forLoop i a c u t ha hu hb =>
    rw [Stmt.nodes_forLoop]
    refine Node.all_of_parts ?_
    show _ ↔ ∀ m ∈ (a.map Node.stmt).toList ++ [.expr c] ++ (u.map Node.stmt).toList ++ [.stmt (.block t)],
      m.All Node.parts P
    rw [List.forall_mem_append, List.forall_mem_append, List.forall_mem_append, List.forall_mem_append,
      List.forall_mem_append, List.forall_mem_append, List.forall_mem_singleton, List.forall_mem_singleton,
      c.all_nodes, body t hb, optional a ha, optional u hu]
  | block t hb => exact body t hb
  | seq i ss x hs => exact Node.all_of_parts (all ss hs)
  | simple s hs =>
    cases s with
    | ret i e => exact Node.all_of_parts (Expr.all_nodes? P e)
    | eval i e | require i e => exact Node.all_of_parts ((e.all_nodes P).trans List.forall_mem_singleton.symm)
    | assign i l r o x =>
      refine Node.all_of_parts ?_
      show (∀ m ∈ l.nodes ++ r.nodes, P m) ↔ ∀ m ∈ [Node.expr l, .expr r], m.All Node.parts P
      rw [List.forall_mem_append, List.forall_mem_cons, List.forall_mem_singleton, l.all_nodes, r.all_nodes]
    | declare i v e =>
      refine Node.all_of_parts ?_
      show (∀ m ∈ v.nodes ++ Expr.nodes? e, P m) ↔ ∀ m ∈ Node.localVar v :: (e.map Node.expr).toList, m.All Node.parts P
      rw [List.forall_mem_append, List.forall_mem_cons, v.all_nodes, Expr.all_nodes?]
    | breakLoop | continueLoop | compute | enterKey | comment | blank =>
      rw [Node.all_leaf rfl]
      exact List.forall_mem_singleton
    | ifThen | whileLoop | doWhile | forLoop | block | seq => cases hs

end Nodes

/-! ## Changed expressions -/

namespace Node

/-- The second node is the first, or it is the first with changed expressions. Types within expressions stay. -/
inductive Like (f : Expr → Expr) : Node → Node → Prop
  | same (n : Node) : Like f n n
  | expr (e : Expr) : Like f (.expr e) (.expr (f e))
  | stmt (s : Stmt) : Like f (.stmt s) (.stmt (s.mapExprs f))

namespace Like

variable {f : Expr → Expr} {next : Node → List Node} {P Q : Node → Prop} {n m : Node}

theorem all_same (ns : List Node) : List.Forall₂ (Like f) ns ns := List.forall₂_same.mpr fun _ _ => .same _

theorem exprs (es : List Expr) : List.Forall₂ (Like f) (es.map Node.expr) ((es.map f).map Node.expr) := by
  induction es with
  | nil => exact .nil
  | cons e es ih => exact .cons (.expr e) ih

theorem stmts (ss : List Stmt) :
    List.Forall₂ (Like f) (ss.map Node.stmt) ((ss.map (Stmt.mapExprs f)).map Node.stmt) := by
  induction ss with
  | nil => exact .nil
  | cons s ss ih => exact .cons (.stmt s) ih

theorem optional (s : Option Stmt) :
    List.Forall₂ (Like f) (s.map Node.stmt).toList ((s.map (Stmt.mapExprs f)).map Node.stmt).toList := by
  cases s with
  | none => exact .nil
  | some s => exact .cons (.stmt s) .nil

/-- Steps from nodes that are like each other lead to such nodes, if this is so for expressions. -/
theorem steps (stmt : ∀ s, next (.stmt s) = s.parts)
    (shape : ∀ e, List.Forall₂ (Like f) (next (.expr e)) (next (.expr (f e)))) (h : Like f n m) :
    List.Forall₂ (Like f) (next n) (next m) := by
  have optionalExpr (e : Option Expr) :
      List.Forall₂ (Like f) (e.map Node.expr).toList ((e.map f).map Node.expr).toList := by
    cases e with
    | none => exact .nil
    | some e => exact .cons (.expr e) .nil
  have block (b : Block) : Like f (.stmt (.block b)) (.stmt (.block (b.mapExprs f))) := .stmt (.block b)
  cases h with
  | same => exact all_same _
  | expr e => exact shape e
  | stmt s =>
    rw [stmt, stmt]
    cases s with
    | ifThen i c t e =>
      rw [Stmt.mapExprs_ifThen]
      refine .cons (.expr c) (.cons (block t) ?_)
      cases e with
      | none => exact .nil
      | some e => exact .cons (block e) .nil
    | whileLoop i c b => exact .cons (.expr c) (.cons (block b) .nil)
    | doWhile i b c => exact .cons (block b) (.cons (.expr c) .nil)
    | forLoop i a c u b =>
      rw [Stmt.mapExprs_forLoop]
      exact List.rel_append (List.rel_append (List.rel_append (optional a) (.cons (.expr c) .nil)) (optional u))
        (.cons (block b) .nil)
    | ret i e =>
      rw [Stmt.mapExprs_ret]
      exact optionalExpr e
    | eval i e | require i e => exact .cons (.expr e) .nil
    | assign i l r o x => exact .cons (.expr l) (.cons (.expr r) .nil)
    | declare i v e =>
      rw [Stmt.mapExprs_declare]
      exact .cons (.same _) (optionalExpr e)
    | block b =>
      show List.Forall₂ (Like f) (b.stmts.map Node.stmt) ((b.mapExprs f).stmts.map Node.stmt)
      rw [Block.mapExprs_eq]
      exact stmts b.stmts
    | seq i ss x =>
      have changed : (Stmt.seq i ss x).mapExprs f = .seq i (ss.map (Stmt.mapExprs f)) x :=
        congrArg (Stmt.seq i · x) (Stmt.traverseAll_mapExprs f ss)
      rw [changed]
      exact stmts ss
    | breakLoop | continueLoop | compute | enterKey | comment | blank => exact .nil

/-- What is said of all nodes that are reached can be said before and after the change. -/
theorem all_iff (step : ∀ n m, Like f n m → List.Forall₂ (Like f) (next n) (next m))
    (same : ∀ n m, Like f n m → (P n ↔ Q m)) (h : Like f n m) : n.All next P ↔ m.All next Q := by
  constructor
  · intro all
    exact all.transfer (fun n m hS y hy => exists_mem_of_forall₂_right (step n m hS) hy)
      (fun n m hS => (same n m hS).mp) h
  · intro all
    exact all.transfer (S := fun m n => Like f n m)
      (fun n m hS y hy => exists_mem_of_forall₂_left (step m n hS) hy) (fun n m hS => (same m n hS).mpr) h

end Like

end Node

end Shroud
