import Shroud.Symbol.Table
import Shroud.Syntax.Traverse

/-!
# Nodes of expressions and statements

The analyses look at the list of all nodes below a statement. What it holds follows the statement: below an expression
there are expressions, types and names, but no statements and no declared variables.

**Visits.** Visiting the expressions of a block one by one finds the expressions among its nodes, in the same order.
-/

namespace Shroud

namespace Node

/-- The node is part of an expression or a type. -/
def isInner : Node → Bool
  | .expr _ | .ty _ | .annTy _ | .ident _ | .param _ => true
  | _ => false

/-- All declared variables among the nodes. -/
def locals (ns : List Node) : List LocalVar := ns.filterMap fun
  | .localVar v => some v
  | _ => none

end Node

/-! ## Induction over expressions -/

section Induction

set_option linter.unusedSectionVars false

variable {P : Expr → Prop}
  (call : ∀ i f as o k, P f → (∀ a ∈ as, P a) → P (.call i f as o k))
  (new : ∀ i as, (∀ a ∈ as, P a) → P (.new i as))
  (cast : ∀ i t e b, P e → P (.cast i t e b))
  (arrayLit : ∀ i vs k, (∀ a ∈ vs, P a) → P (.arrayLit i vs k))
  (tuple : ∀ i es, (∀ a ∈ es, P a) → P (.tuple i es))
  (member : ∀ i e n t, P e → P (.member i e n t))
  (index : ∀ i e k t, P e → P k → P (.index i e k t))
  (reclassify : ∀ i m e p h, P e → P p → P (.reclassify i m e p h))
  (leaf : ∀ e, (e matches .operator .. | .boolLit .. | .numLit .. | .ident .. | .me _ | .all _) = true → P e)

include call new cast arrayLit tuple member index reclassify leaf

mutual

/-- Induction over the parts of an expression that are expressions themselves. -/
theorem Expr.inductOn : ∀ e : Expr, P e
  | .call i f as o k => call i f as o k (Expr.inductOn f) (Expr.inductAll as)
  | .new i as => new i as (Expr.inductAll as)
  | .cast i t e b => cast i t e b (Expr.inductOn e)
  | .arrayLit i vs k => arrayLit i vs k (Expr.inductAll vs)
  | .tuple i es => tuple i es (Expr.inductAll es)
  | .member i e n t => member i e n t (Expr.inductOn e)
  | .index i e k t => index i e k t (Expr.inductOn e) (Expr.inductOn k)
  | .reclassify i m e p h => reclassify i m e p h (Expr.inductOn e) (Expr.inductOn p)
  | .operator i o p h r => leaf (.operator i o p h r) rfl
  | .boolLit i v => leaf (.boolLit i v) rfl
  | .numLit i v h => leaf (.numLit i v h) rfl
  | .ident i n t => leaf (.ident i n t) rfl
  | .me i => leaf (.me i) rfl
  | .all i => leaf (.all i) rfl

theorem Expr.inductAll : ∀ es : List Expr, ∀ e ∈ es, P e
  | [] => fun _ h => nomatch h
  | e :: es => fun _ h => (List.mem_cons.mp h).elim (fun h => h ▸ Expr.inductOn e) (Expr.inductAll es _)

end

end Induction

/-! ## Induction over statements -/

section Induction

set_option linter.unusedSectionVars false

variable {P : Stmt → Prop}
  (ifThen : ∀ i c (t : Block) (e : Option Block), (∀ s ∈ t.stmts, P s) → (∀ b, e = some b → ∀ s ∈ b.stmts, P s) →
    P (.ifThen i c t e))
  (whileLoop : ∀ i c (b : Block), (∀ s ∈ b.stmts, P s) → P (.whileLoop i c b))
  (doWhile : ∀ i (b : Block) c, (∀ s ∈ b.stmts, P s) → P (.doWhile i b c))
  (forLoop : ∀ i a c u (b : Block), (∀ s, a = some s → P s) → (∀ s, u = some s → P s) → (∀ s ∈ b.stmts, P s) →
    P (.forLoop i a c u b))
  (block : ∀ b : Block, (∀ s ∈ b.stmts, P s) → P (.block b))
  (seq : ∀ i ss x, (∀ s ∈ ss, P s) → P (.seq i ss x))
  (simple : ∀ s, (s matches .breakLoop _ | .continueLoop _ | .ret .. | .eval .. | .require .. | .assign .. |
    .declare .. | .compute .. | .enterKey .. | .comment _ | .blank) = true → P s)

include ifThen whileLoop doWhile forLoop block seq simple

mutual

/-- Induction over the statements below a statement. -/
theorem Stmt.inductOn : ∀ s : Stmt, P s
  | .ifThen i c ⟨j, ss, x⟩ none => ifThen i c ⟨j, ss, x⟩ none (Stmt.inductAll ss) nofun
  | .ifThen i c ⟨j, ss, x⟩ (some ⟨k, ts, y⟩) =>
    ifThen i c ⟨j, ss, x⟩ (some ⟨k, ts, y⟩) (Stmt.inductAll ss) (by rintro _ ⟨⟩; exact Stmt.inductAll ts)
  | .whileLoop i c ⟨j, ss, x⟩ => whileLoop i c ⟨j, ss, x⟩ (Stmt.inductAll ss)
  | .doWhile i ⟨j, ss, x⟩ c => doWhile i ⟨j, ss, x⟩ c (Stmt.inductAll ss)
  | .forLoop i a c u ⟨j, ss, x⟩ => forLoop i a c u ⟨j, ss, x⟩ (by rintro s rfl; exact Stmt.inductOn s)
      (by rintro s rfl; exact Stmt.inductOn s) (Stmt.inductAll ss)
  | .block ⟨j, ss, x⟩ => block ⟨j, ss, x⟩ (Stmt.inductAll ss)
  | .seq i ss x => seq i ss x (Stmt.inductAll ss)
  | .breakLoop i => simple (.breakLoop i) rfl
  | .continueLoop i => simple (.continueLoop i) rfl
  | .ret i e => simple (.ret i e) rfl
  | .eval i e => simple (.eval i e) rfl
  | .require i e => simple (.require i e) rfl
  | .assign i l r o b => simple (.assign i l r o b) rfl
  | .declare i v e => simple (.declare i v e) rfl
  | .compute i v => simple (.compute i v) rfl
  | .enterKey i b => simple (.enterKey i b) rfl
  | .comment t => simple (.comment t) rfl
  | .blank => simple .blank rfl

theorem Stmt.inductAll : ∀ ss : List Stmt, ∀ s ∈ ss, P s
  | [] => fun _ h => nomatch h
  | s :: ss => fun _ h => (List.mem_cons.mp h).elim (fun h => h ▸ Stmt.inductOn s) (Stmt.inductAll ss _)

end

end Induction

/-! ## Below an expression -/

section Inner

variable {l : Option String} {n : Option Nat}

@[simp]
theorem Node.all_isInner_name : (l.map Node.name).toList.all Node.isInner = true := by
  cases l <;> rfl

@[simp]
theorem cryptoArrayNodes_inner : (cryptoArrayNodes n).all Node.isInner = true := by
  cases n <;> rfl

end Inner

mutual

theorem Ty.nodes_inner : ∀ t : Ty, t.nodes.all Node.isInner = true
  | .mapping i k l v => by
    rw [Ty.nodes, List.all_append, List.all_append, List.all_cons, k.nodes_inner, v.nodes_inner,
      Node.all_isInner_name]
    rfl
  | .array v none => by
    rw [Ty.nodes, List.all_cons, v.nodes_inner]
    rfl
  | .array v (some n) => by
    rw [Ty.nodes, List.all_append, List.all_cons, v.nodes_inner, n.nodes_inner]
    rfl
  | .function ps ms rs => by
    rw [Ty.nodes, List.all_append, List.all_cons, Param.nodesAll_inner ps, Param.nodesAll_inner rs]
    rfl
  | .cipher p b => by
    rw [Ty.nodes, List.all_cons, cryptoArrayNodes_inner]
    rfl
  | .publicKey b => by
    rw [Ty.nodes, List.all_cons, cryptoArrayNodes_inner]
    rfl
  | .randomness b => by
    rw [Ty.nodes, List.all_cons, cryptoArrayNodes_inner]
    rfl
  | .elementary _ | .bool | .boolLit _ | .number | .numLit _ | .integer _ _ | .named _ _ _ | .address _
  | .tuple _ => rfl

theorem AnnTy.nodes_inner : ∀ t : AnnTy, t.nodes.all Node.isInner = true
  | ⟨t, p, h, a, d⟩ => by
    rw [AnnTy.nodes, List.all_append, List.all_cons, t.nodes_inner, p.nodes_inner]
    rfl

theorem Param.nodes_inner : ∀ p : Param, p.nodes.all Node.isInner = true
  | ⟨i, k, t, n, s, o⟩ => by
    rw [Param.nodes, List.all_append, List.all_cons, t.nodes_inner, Node.all_isInner_name]
    rfl

theorem Param.nodesAll_inner : ∀ ps : List Param, (Param.nodesAll ps).all Node.isInner = true
  | [] => rfl
  | p :: ps => by
    rw [Param.nodesAll, List.all_append, p.nodes_inner, Param.nodesAll_inner ps]
    rfl

theorem Info.typeNodes_inner : ∀ i : Info, i.typeNodes.all Node.isInner = true
  | ⟨_, _, some t, _, _⟩ => t.nodes_inner
  | ⟨_, _, none, _, _⟩ => rfl

theorem Expr.nodes_inner : ∀ e : Expr, e.nodes.all Node.isInner = true
  | .call i f as o k => by
    rw [Expr.nodes, List.all_append, List.all_cons, f.nodes_inner, Expr.nodesAll_inner as]
    rfl
  | .new i as => by
    rw [Expr.nodes, List.all_append, List.all_cons, i.typeNodes_inner, Expr.nodesAll_inner as]
    rfl
  | .cast i t e b => by
    rw [Expr.nodes, List.all_append, List.all_cons, t.nodes_inner, e.nodes_inner]
    rfl
  | .arrayLit i vs k => by
    rw [Expr.nodes, List.all_cons, Expr.nodesAll_inner vs]
    rfl
  | .tuple i es => by
    rw [Expr.nodes, List.all_cons, Expr.nodesAll_inner es]
    rfl
  | .member i e n t => by
    rw [Expr.nodes, List.all_append, List.all_cons, e.nodes_inner]
    rfl
  | .index i e k t => by
    rw [Expr.nodes, List.all_append, List.all_cons, e.nodes_inner, k.nodes_inner]
    rfl
  | .reclassify i m e p h => by
    rw [Expr.nodes, List.all_append, List.all_cons, e.nodes_inner, p.nodes_inner]
    rfl
  | .operator .. | .boolLit .. | .numLit .. | .ident .. | .me _ | .all _ => rfl

theorem Expr.nodesAll_inner : ∀ es : List Expr, (Expr.nodesAll es).all Node.isInner = true
  | [] => rfl
  | e :: es => by
    rw [Expr.nodesAll, List.all_append, e.nodes_inner, Expr.nodesAll_inner es]
    rfl

end

namespace Node

theorem stmts_eq_nil {ns : List Node} (h : ns.all isInner = true) : stmts ns = [] := by
  refine List.filterMap_eq_nil_iff.mpr fun n hn => ?_
  have inner := List.all_eq_true.mp h n hn
  cases n with
  | stmt s => cases inner
  | _ => rfl

theorem locals_eq_nil {ns : List Node} (h : ns.all isInner = true) : locals ns = [] := by
  refine List.filterMap_eq_nil_iff.mpr fun n hn => ?_
  have inner := List.all_eq_true.mp h n hn
  cases n with
  | localVar v => cases inner
  | _ => rfl

@[simp]
theorem exprs_append (ns ms : List Node) : exprs (ns ++ ms) = exprs ns ++ exprs ms := List.filterMap_append

@[simp]
theorem stmts_append (ns ms : List Node) : stmts (ns ++ ms) = stmts ns ++ stmts ms := List.filterMap_append

@[simp]
theorem locals_append (ns ms : List Node) : locals (ns ++ ms) = locals ns ++ locals ms := List.filterMap_append

@[simp]
theorem exprs_stmt (s : Stmt) (ns : List Node) : exprs (.stmt s :: ns) = exprs ns := rfl

@[simp]
theorem exprs_localVar (v : LocalVar) (ns : List Node) : exprs (.localVar v :: ns) = exprs ns := rfl

@[simp]
theorem exprs_annTy (t : AnnTy) (ns : List Node) : exprs (.annTy t :: ns) = exprs ns := rfl

@[simp]
theorem exprs_ty (t : Ty) (ns : List Node) : exprs (.ty t :: ns) = exprs ns := rfl

@[simp]
theorem exprs_expr (e : Expr) (ns : List Node) : exprs (.expr e :: ns) = e :: exprs ns := rfl

@[simp]
theorem exprs_ident (n : Ident) (ns : List Node) : exprs (.ident n :: ns) = exprs ns := rfl

theorem mem_stmts_stmt {s t : Stmt} {ns : List Node} (h : t ∈ stmts (.stmt s :: ns)) : t = s ∨ t ∈ stmts ns := by
  cases s with
  | comment | blank => exact .inr h
  | _ => exact List.mem_cons.mp h

@[simp]
theorem stmts_localVar (v : LocalVar) (ns : List Node) : stmts (.localVar v :: ns) = stmts ns := rfl

@[simp]
theorem locals_stmt (s : Stmt) (ns : List Node) : locals (.stmt s :: ns) = locals ns := rfl

@[simp]
theorem locals_localVar (v : LocalVar) (ns : List Node) : locals (.localVar v :: ns) = v :: locals ns := rfl

end Node

@[simp]
theorem Expr.stmts_nodes (e : Expr) : Node.stmts e.nodes = [] := Node.stmts_eq_nil e.nodes_inner

@[simp]
theorem Expr.locals_nodes (e : Expr) : Node.locals e.nodes = [] := Node.locals_eq_nil e.nodes_inner

theorem Expr.stmts_nodes? (e : Option Expr) : Node.stmts (Expr.nodes? e) = [] := by
  cases e with
  | none => rfl
  | some e => exact e.stmts_nodes

@[simp]
theorem Expr.locals_nodes? (e : Option Expr) : Node.locals (Expr.nodes? e) = [] := by
  cases e with
  | none => rfl
  | some e => exact e.locals_nodes

@[simp]
theorem AnnTy.stmts_nodes (t : AnnTy) : Node.stmts t.nodes = [] := Node.stmts_eq_nil t.nodes_inner

@[simp]
theorem AnnTy.locals_nodes (t : AnnTy) : Node.locals t.nodes = [] := Node.locals_eq_nil t.nodes_inner

@[simp]
theorem LocalVar.exprs_nodes (v : LocalVar) : Node.exprs v.nodes = Node.exprs v.type.nodes := by
  rw [LocalVar.nodes, List.cons_append, Node.exprs_localVar, Node.exprs_append]
  exact List.append_nil _

@[simp]
theorem LocalVar.stmts_nodes (v : LocalVar) : Node.stmts v.nodes = [] := by
  rw [LocalVar.nodes, List.cons_append, Node.stmts_localVar, Node.stmts_append, AnnTy.stmts_nodes]
  rfl

/-- The nodes of a loop with a head. -/
theorem Stmt.nodes_forLoop (i : StmtInfo) (a : Option Stmt) (c : Expr) (u : Option Stmt) (b : Block) :
    (Stmt.forLoop i a c u b).nodes =
      .stmt (.forLoop i a c u b) :: ((a.map Stmt.nodes).getD [] ++ c.nodes ++ (u.map Stmt.nodes).getD [] ++ b.nodes) := by
  cases a <;> cases u <;> rfl

/-! ## Visiting the expressions of a block -/

namespace Stmt

/-- Note the expressions below an expression of the statement. -/
def noteExpr (s : Stmt) (e : Expr) : StateM (List (Stmt × Expr)) Expr := do
  modify (· ++ (Node.exprs e.nodes).map fun x => (s, x))
  return e

/-- Note the expressions in a type of the statement. -/
def noteType (s : Stmt) (t : AnnTy) : StateM (List (Stmt × Expr)) AnnTy := do
  modify (· ++ (Node.exprs t.nodes).map fun x => (s, x))
  return t

end Stmt

section Notes

/-- The activity notes these expressions. -/
def Notes {α : Type} (x : StateM (List (Stmt × Expr)) α) (es : List Expr) : Prop :=
  ∀ L, ((x L).2).map Prod.snd = L.map Prod.snd ++ es

variable {α β : Type} {x : StateM (List (Stmt × Expr)) α} {f : α → StateM (List (Stmt × Expr)) β} {es fs : List Expr}

theorem Notes.pure (a : α) : Notes (Pure.pure a) [] := fun _ => (List.append_nil _).symm

theorem Notes.bind (hx : Notes x es) (hf : ∀ a, Notes (f a) fs) : Notes (x >>= f) (es ++ fs) := by
  intro L
  show ((f (x L).1 (x L).2).2).map Prod.snd = _
  rw [hf, hx, List.append_assoc]

/-- An activity followed by one that notes nothing. -/
theorem Notes.andReturn (hx : Notes x es) {g : α → β} : Notes (do return g (← x)) es := by
  have h := hx.bind (f := fun a => Pure.pure (g a)) fun a => .pure (g a)
  rwa [List.append_nil] at h

theorem notes_expr (s : Stmt) (e : Expr) : Notes (s.noteExpr e) (Node.exprs e.nodes) := by
  intro L
  show (L ++ (Node.exprs e.nodes).map fun x => (s, x)).map Prod.snd = _
  rw [List.map_append, List.map_map]
  exact congrArg _ (List.map_id _)

theorem notes_type (s : Stmt) (t : AnnTy) : Notes (s.noteType t) (Node.exprs t.nodes) := by
  intro L
  show (L ++ (Node.exprs t.nodes).map fun x => (s, x)).map Prod.snd = _
  rw [List.map_append, List.map_map]
  exact congrArg _ (List.map_id _)

end Notes

theorem Stmt.traverseAll_notes {ss : List Stmt}
    (h : ∀ s ∈ ss, Notes (s.traverse noteExpr noteType) (Node.exprs s.nodes)) :
    Notes (Stmt.traverseAll noteExpr noteType ss) (Node.exprs (Stmt.nodesAll ss)) := by
  induction ss with
  | nil => exact .pure _
  | cons s ss ih =>
    rw [Stmt.traverseAll, Stmt.nodesAll, Node.exprs_append]
    exact (h s List.mem_cons_self).bind fun _ => (ih fun t ht => h t (List.mem_cons_of_mem _ ht)).andReturn

theorem Stmt.traverse_notes (s : Stmt) : Notes (s.traverse noteExpr noteType) (Node.exprs s.nodes) := by
  have body : ∀ b : Block, (∀ s ∈ b.stmts, Notes (s.traverse noteExpr noteType) (Node.exprs s.nodes)) →
      Notes (b.traverse noteExpr noteType) (Node.exprs b.nodes)
    | ⟨_, _, _⟩, ih => (traverseAll_notes ih).andReturn
  induction s using Stmt.inductOn with
  | ifThen i c t e ht he =>
    cases e with
    | none =>
      rw [Stmt.traverse, Stmt.nodes, List.cons_append, Node.exprs_stmt, Node.exprs_append]
      exact (notes_expr _ c).bind fun _ => (body t ht).andReturn
    | some e =>
      rw [Stmt.traverse, Stmt.nodes, List.cons_append, List.cons_append, Node.exprs_stmt, Node.exprs_append,
        Node.exprs_append, List.append_assoc]
      exact (notes_expr _ c).bind fun _ => (body t ht).bind fun _ => (body e (he e rfl)).andReturn
  | whileLoop i c b hb =>
    rw [Stmt.traverse, Stmt.nodes, List.cons_append, Node.exprs_stmt, Node.exprs_append]
    exact (notes_expr _ c).bind fun _ => (body b hb).andReturn
  | doWhile i b c hb =>
    rw [Stmt.traverse, Stmt.nodes, List.cons_append, Node.exprs_stmt, Node.exprs_append]
    exact (body b hb).bind fun _ => (notes_expr _ c).andReturn
  | forLoop i a c u b ha hu hb =>
    unfold Stmt.traverse Stmt.nodes
    simp only [List.cons_append, Node.exprs_stmt, Node.exprs_append, List.append_assoc]
    refine .bind ?_ fun _ => (notes_expr _ c).bind fun _ => .bind ?_ fun _ => (body b hb).andReturn
    · cases a with
      | none => exact .pure _
      | some a => exact (ha a rfl).andReturn
    · cases u with
      | none => exact .pure _
      | some u => exact (hu u rfl).andReturn
  | block b hb => exact (body b hb).andReturn
  | seq i ss x hs => exact (traverseAll_notes hs).andReturn
  | simple s hs =>
    cases s with
    | ret i e =>
      cases e with
      | none => exact .pure _
      | some e => exact (notes_expr _ e).andReturn
    | eval i e | require i e => exact (notes_expr _ e).andReturn
    | assign i l r o b =>
      rw [Stmt.traverse, Stmt.nodes, List.cons_append, Node.exprs_stmt, Node.exprs_append]
      exact (notes_expr _ l).bind fun _ => (notes_expr _ r).andReturn
    | declare i v e =>
      cases e with
      | none =>
        rw [Stmt.traverse, Stmt.nodes, List.cons_append, Node.exprs_stmt, Node.exprs_append, LocalVar.exprs_nodes]
        exact (notes_type _ v.type).bind fun _ => .pure _
      | some e =>
        rw [Stmt.traverse, Stmt.nodes, List.cons_append, Node.exprs_stmt, Node.exprs_append, LocalVar.exprs_nodes]
        exact (notes_type _ v.type).bind fun _ => (notes_expr _ e).andReturn
    | breakLoop | continueLoop | compute | enterKey | comment | blank => exact .pure _
    | ifThen | whileLoop | doWhile | forLoop | block | seq => cases hs

theorem Block.traverse_notes : ∀ b : Block,
    Notes (b.traverse Stmt.noteExpr Stmt.noteType) (Node.exprs b.nodes)
  | ⟨_, _, _⟩ => (Stmt.traverseAll_notes fun s _ => s.traverse_notes).andReturn

/-- The expressions that are found by visiting a block are those among its nodes. -/
theorem Block.subexprsInPlace_exprs (b : Block) : b.subexprsInPlace.map Prod.snd = Node.exprs b.nodes :=
  b.traverse_notes []

/-! ## Changing the expressions of a block -/

section MapExprs

variable (f : Expr → Expr)

theorem Stmt.traverseAll_mapExprs (ss : List Stmt) :
    Id.run (Stmt.traverseAll (fun _ e => pure (f e)) (fun _ t => pure t) ss) = ss.map (Stmt.mapExprs f) := by
  induction ss with
  | nil => rfl
  | cons s ss ih => exact congrArg (Stmt.mapExprs f s :: ·) ih

theorem Block.mapExprs_eq : ∀ b : Block, b.mapExprs f = { b with stmts := b.stmts.map (Stmt.mapExprs f) }
  | ⟨i, ss, x⟩ => congrArg (Block.mk i · x) (Stmt.traverseAll_mapExprs f ss)

theorem Stmt.mapExprs_ifThen (i : StmtInfo) (c : Expr) (t : Block) (e : Option Block) :
    (Stmt.ifThen i c t e).mapExprs f = .ifThen i (f c) (t.mapExprs f) (e.map (Block.mapExprs f)) := by
  cases e <;> rfl

theorem Stmt.mapExprs_forLoop (i : StmtInfo) (a u : Option Stmt) (c : Expr) (b : Block) :
    (Stmt.forLoop i a c u b).mapExprs f =
      .forLoop i (a.map (Stmt.mapExprs f)) (f c) (u.map (Stmt.mapExprs f)) (b.mapExprs f) := by
  cases a <;> cases u <;> rfl

theorem Stmt.mapExprs_ret (i : StmtInfo) (e : Option Expr) : (Stmt.ret i e).mapExprs f = .ret i (e.map f) := by
  cases e <;> rfl

theorem Stmt.mapExprs_declare (i : StmtInfo) (v : LocalVar) (e : Option Expr) :
    (Stmt.declare i v e).mapExprs f = .declare i v (e.map f) := by
  cases e <;> rfl

variable {γ : Type} {φ ψ : Node → Option γ}

/-- What is read off the nodes once the expressions have been changed, if this is so for each expression. -/
theorem Stmt.filterMap_mapExprs (expr : ∀ e, (f e).nodes.filterMap ψ = e.nodes.filterMap φ)
    (declared : ∀ v : LocalVar, v.nodes.filterMap ψ = v.nodes.filterMap φ)
    (stmt : ∀ s, ψ (.stmt (Stmt.mapExprs f s)) = φ (.stmt s)) (s : Stmt) :
    (s.mapExprs f).nodes.filterMap ψ = s.nodes.filterMap φ := by
  have head {s s' : Stmt} {ns ns' : List Node} (hs : s' = s.mapExprs f) (h : ns'.filterMap ψ = ns.filterMap φ) :
      (Node.stmt s' :: ns').filterMap ψ = (Node.stmt s :: ns).filterMap φ := by
    rw [hs, List.filterMap_cons, List.filterMap_cons, stmt, h]
  have join {ns ns' ms ms' : List Node} (h : ns'.filterMap ψ = ns.filterMap φ) (k : ms'.filterMap ψ = ms.filterMap φ) :
      (ns' ++ ms').filterMap ψ = (ns ++ ms).filterMap φ := by
    rw [List.filterMap_append, List.filterMap_append, h, k]
  have all (ss : List Stmt) (ih : ∀ s ∈ ss, (s.mapExprs f).nodes.filterMap ψ = s.nodes.filterMap φ) :
      (Stmt.nodesAll (ss.map (Stmt.mapExprs f))).filterMap ψ = (Stmt.nodesAll ss).filterMap φ := by
    induction ss with
    | nil => rfl
    | cons s ss hss => exact join (ih s List.mem_cons_self) (hss fun t ht => ih t (List.mem_cons_of_mem _ ht))
  have body : ∀ b : Block, (∀ s ∈ b.stmts, (s.mapExprs f).nodes.filterMap ψ = s.nodes.filterMap φ) →
      (b.mapExprs f).nodes.filterMap ψ = b.nodes.filterMap φ
    | ⟨i, ss, x⟩, ih => by
      have stmts := Block.mapExprs_eq f ⟨i, ss, x⟩
      rw [stmts]
      exact head (congrArg Stmt.block stmts.symm) (all ss ih)
  have optional : ∀ e : Option Expr, (Expr.nodes? (e.map f)).filterMap ψ = (Expr.nodes? e).filterMap φ
    | none => rfl
    | some e => expr e
  induction s using Stmt.inductOn with
  | ifThen i c t e ht he =>
    rw [Stmt.mapExprs_ifThen]
    cases e with
    | none => exact head rfl (join (expr c) (body t ht))
    | some e => exact head rfl (join (join (expr c) (body t ht)) (body e (he e rfl)))
  | whileLoop i c b hb =>
    show (Stmt.whileLoop i (f c) (b.mapExprs f)).nodes.filterMap ψ = _
    exact head rfl (join (expr c) (body b hb))
  | doWhile i b c hb =>
    show (Stmt.doWhile i (b.mapExprs f) (f c)).nodes.filterMap ψ = _
    exact head rfl (join (body b hb) (expr c))
  | forLoop i a c u b ha hu hb =>
    rw [Stmt.mapExprs_forLoop]
    unfold Stmt.nodes
    refine head (Stmt.mapExprs_forLoop f i a u c b).symm (join (join (join ?_ (expr c)) ?_) (body b hb))
    · cases a with
      | none => rfl
      | some a => exact ha a rfl
    · cases u with
      | none => rfl
      | some u => exact hu u rfl
  | block b hb => exact body b hb
  | seq i ss x hs =>
    have stmts : (Stmt.seq i ss x).mapExprs f = .seq i (ss.map (Stmt.mapExprs f)) x :=
      congrArg (Stmt.seq i · x) (Stmt.traverseAll_mapExprs f ss)
    rw [stmts]
    exact head stmts.symm (all ss hs)
  | simple s hs =>
    cases s with
    | ret i e =>
      rw [Stmt.mapExprs_ret]
      exact head (Stmt.mapExprs_ret f i e).symm (optional e)
    | eval i e | require i e => exact head rfl (expr e)
    | assign i l r o b => exact head rfl (join (expr l) (expr r))
    | declare i v e =>
      rw [Stmt.mapExprs_declare]
      exact head (Stmt.mapExprs_declare f i v e).symm (join (declared v) (optional e))
    | breakLoop | continueLoop | compute | enterKey | comment | blank => exact head rfl rfl
    | ifThen | whileLoop | doWhile | forLoop | block | seq => cases hs

theorem Block.filterMap_mapExprs (expr : ∀ e, (f e).nodes.filterMap ψ = e.nodes.filterMap φ)
    (declared : ∀ v : LocalVar, v.nodes.filterMap ψ = v.nodes.filterMap φ)
    (stmt : ∀ s, ψ (.stmt (Stmt.mapExprs f s)) = φ (.stmt s)) (b : Block) :
    (b.mapExprs f).nodes.filterMap ψ = b.nodes.filterMap φ :=
  Stmt.filterMap_mapExprs f expr declared stmt (.block b)

/-- Changing the expressions keeps the declared variables. -/
theorem Stmt.locals_mapExprs (s : Stmt) : Node.locals (s.mapExprs f).nodes = Node.locals s.nodes := by
  refine Stmt.filterMap_mapExprs f (fun e => ?_) (fun _ => rfl) (fun _ => rfl) s
  exact (Expr.locals_nodes (f e)).trans (Expr.locals_nodes e).symm

/-- The statements of a block whose expressions are changed. -/
theorem Block.stmts_mapExprs (b : Block) :
    Node.stmts (b.mapExprs f).nodes = (Node.stmts b.nodes).map (Stmt.mapExprs f) := by
  unfold Node.stmts
  rw [List.map_filterMap]
  refine Block.filterMap_mapExprs f (fun e => ?_) (fun v => ?_) (fun s => ?_) b
  · rw [← List.map_filterMap]
    show Node.stmts (f e).nodes = (Node.stmts e.nodes).map _
    rw [Expr.stmts_nodes, Expr.stmts_nodes]
    rfl
  · rw [← List.map_filterMap]
    show Node.stmts v.nodes = (Node.stmts v.nodes).map _
    rw [LocalVar.stmts_nodes]
    rfl
  · cases s with
    | ifThen i c t e =>
      rw [Stmt.mapExprs_ifThen]
      exact congrArg some (Stmt.mapExprs_ifThen f i c t e).symm
    | forLoop i a c u b =>
      rw [Stmt.mapExprs_forLoop]
      exact congrArg some (Stmt.mapExprs_forLoop f i a u c b).symm
    | ret i e =>
      rw [Stmt.mapExprs_ret]
      exact congrArg some (Stmt.mapExprs_ret f i e).symm
    | declare i v e =>
      rw [Stmt.mapExprs_declare]
      exact congrArg some (Stmt.mapExprs_declare f i v e).symm
    | _ => rfl

end MapExprs

/-! ## Conditions of loops -/

/-- The condition of a loop and all nodes that are repeated. -/
def Stmt.repeated? : Stmt → Option (Expr × List Node)
  | .whileLoop _ c b => some (c, c.nodes ++ b.nodes)
  | .doWhile _ b c => some (c, c.nodes ++ b.nodes)
  | .forLoop _ _ c none b => some (c, c.nodes ++ b.nodes)
  | .forLoop _ _ c (some u) b => some (c, c.nodes ++ b.nodes ++ u.nodes)
  | _ => none

mutual

/-- The conditions of all loops in the statement have a property. -/
def Stmt.Conditions (P : Expr → Prop) : Stmt → Prop
  | .ifThen _ _ t none => t.Conditions P
  | .ifThen _ _ t (some e) => t.Conditions P ∧ e.Conditions P
  | .whileLoop _ c b => P c ∧ b.Conditions P
  | .doWhile _ b c => P c ∧ b.Conditions P
  | .forLoop _ a c u b => P c ∧ Stmt.Conditions? P a ∧ Stmt.Conditions? P u ∧ b.Conditions P
  | .block b => b.Conditions P
  | .seq _ ss _ => Stmt.AllConditions P ss
  | _ => True

def Stmt.Conditions? (P : Expr → Prop) : Option Stmt → Prop
  | none => True
  | some s => s.Conditions P

def Block.Conditions (P : Expr → Prop) : Block → Prop
  | ⟨_, ss, _⟩ => Stmt.AllConditions P ss

def Stmt.AllConditions (P : Expr → Prop) : List Stmt → Prop
  | [] => True
  | s :: ss => s.Conditions P ∧ Stmt.AllConditions P ss

end

section Conditions

variable {P : Expr → Prop}

namespace Node

/-- The conditions of all loops among the nodes have a property. -/
def Conditions (P : Expr → Prop) (ns : List Node) : Prop := ∀ s ∈ stmts ns, ∀ r, s.repeated? = some r → P r.1

variable {s : Stmt} {ns ms : List Node}

theorem Conditions.append (h : Conditions P ns) (h' : Conditions P ms) : Conditions P (ns ++ ms) := by
  unfold Conditions
  rw [stmts_append]
  exact List.forall_mem_append.mpr ⟨h, h'⟩

theorem Conditions.stmt (hs : ∀ r, s.repeated? = some r → P r.1) (h : Conditions P ns) :
    Conditions P (.stmt s :: ns) := by
  intro t ht
  rcases mem_stmts_stmt ht with rfl | ht
  · exact hs
  · exact h t ht

theorem Conditions.inner (h : stmts ns = []) : Conditions P ns := by
  unfold Conditions
  rw [h]
  exact List.forall_mem_nil _

end Node

/-- The conditions that are found among the nodes are those of the loops. -/
theorem Stmt.Conditions.nodes {s : Stmt} (h : s.Conditions P) : Node.Conditions P s.nodes := by
  have all (ss : List Stmt) (ih : ∀ s ∈ ss, s.Conditions P → Node.Conditions P s.nodes)
      (h : AllConditions P ss) : Node.Conditions P (Stmt.nodesAll ss) := by
    induction ss with
    | nil => exact .inner rfl
    | cons s ss hss =>
      exact .append (ih s List.mem_cons_self h.1) (hss (fun t ht => ih t (List.mem_cons_of_mem _ ht)) h.2)
  have body (b : Block) (ih : ∀ s ∈ b.stmts, s.Conditions P → Node.Conditions P s.nodes) (h : b.Conditions P) :
      Node.Conditions P b.nodes := by
    obtain ⟨_, ss, _⟩ := b
    exact .stmt (by rintro _ ⟨⟩) (all ss ih h)
  have expr (e : Expr) : Node.Conditions P e.nodes := .inner e.stmts_nodes
  have optional (e : Option Expr) : Node.Conditions P (Expr.nodes? e) := by
    cases e with
    | none => exact .inner rfl
    | some e => exact expr e
  induction s using Stmt.inductOn with
  | ifThen i c t e ht he =>
    cases e with
    | none => exact .append (.stmt (by rintro _ ⟨⟩) (expr c)) (body t ht h)
    | some e => exact .append (.append (.stmt (by rintro _ ⟨⟩) (expr c)) (body t ht h.1)) (body e (he e rfl) h.2)
  | whileLoop i c b hb => exact .append (.stmt (by rintro _ ⟨⟩; exact h.1) (expr c)) (body b hb h.2)
  | doWhile i b c hb => exact .append (.stmt (by rintro _ ⟨⟩; exact h.1) (body b hb h.2)) (expr c)
  | forLoop i a c u b ha hu hb =>
    unfold Stmt.nodes
    refine .append (.append (.append (.stmt ?_ ?_) (expr c)) ?_) (body b hb h.2.2.2)
    · cases u <;> rintro _ ⟨⟩ <;> exact h.1
    · cases a with
      | none => exact .inner rfl
      | some a => exact ha a rfl h.2.1
    · cases u with
      | none => exact .inner rfl
      | some u => exact hu u rfl h.2.2.1
  | block b hb => exact body b hb h
  | seq i ss x hs => exact .stmt (by rintro _ ⟨⟩) (all ss hs h)
  | simple s hs =>
    cases s with
    | ret i e => exact .stmt (by rintro _ ⟨⟩) (optional e)
    | eval i e | require i e => exact .stmt (by rintro _ ⟨⟩) (expr e)
    | assign i l r o b => exact .append (.stmt (by rintro _ ⟨⟩) (expr l)) (expr r)
    | declare i v e => exact .append (.stmt (by rintro _ ⟨⟩) (.inner v.stmts_nodes)) (optional e)
    | breakLoop | continueLoop | compute | enterKey | comment | blank => exact .stmt (by rintro _ ⟨⟩) (.inner rfl)
    | ifThen | whileLoop | doWhile | forLoop | block | seq => cases hs

end Conditions

end Shroud
