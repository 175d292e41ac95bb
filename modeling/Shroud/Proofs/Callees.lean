import Shroud.Proofs.CircuitMarks
import Shroud.Proofs.Mentions
import Shroud.Proofs.Parallel

/-!
# The call graph and the final bodies

Who calls whom is found out before types are checked. The passes after that change the bodies, so it has to be shown that
the graph still knows all calls.

**Parameters.** The search for calls leaves out the parameters of function types. It does so by skipping as many nodes as
a parameter has, wherever it meets one. Parameters are never cut off, neither by an expression nor by a statement
(`Node.Closed`), so the calls in the expressions of statements are found (`FunctionDef.called_callees`).

**Passes.** Marking accesses, checking types, placing and the marks about proofs keep the place of a function in the graph
and add nothing to what its body mentions (`SourceUnit.Follows`).

**Result.** `SourceUnit.Accepted.graph`: every function of an accepted program has a place in the graph, and all calls in
its body are among those that the graph was made from.
-/

namespace Shroud

open Shroud.Expr

/-! ## Nodes outside of parameters -/

namespace Node

/-- Parameters that begin in the list end there. -/
def Closed (ns : List Node) : Prop := ∀ ms, outsideParams 0 (ns ++ ms) = outsideParams 0 ns ++ outsideParams 0 ms

variable {n : Node} {ns ms : List Node}

theorem outsideParams_skip (ns ms : List Node) : outsideParams ns.length (ns ++ ms) = outsideParams 0 ms := by
  induction ns with
  | nil => rfl
  | cons n ns ih => exact ih

theorem outsideParams_cons (hn : (n matches .param _) = false) : outsideParams 0 (n :: ns) = n :: outsideParams 0 ns := by
  cases n with
  | param => cases hn
  | _ => rfl

theorem outsideParams_param (p : Param) : outsideParams 0 p.nodes = [] := by
  obtain ⟨i, k, t, n, s, o⟩ := p
  have skipped := outsideParams_skip (t.nodes ++ (n.map Node.name).toList) []
  rw [List.append_nil] at skipped
  exact skipped

namespace Closed

theorem nil : Closed [] := fun _ => rfl

theorem append (h : Closed ns) (h' : Closed ms) : Closed (ns ++ ms) := fun ls => by
  rw [List.append_assoc, h, h, h', List.append_assoc]

theorem cons (hn : (n matches .param _) = false) (h : Closed ns) : Closed (n :: ns) := fun ms => by
  rw [List.cons_append, outsideParams_cons hn, outsideParams_cons hn, h, List.cons_append]

theorem param (p : Param) : Closed p.nodes := fun ms => by
  rw [outsideParams_param]
  obtain ⟨i, k, t, n, s, o⟩ := p
  exact outsideParams_skip (t.nodes ++ (n.map Node.name).toList) ms

theorem params (ps : List Param) : Closed (Param.nodesAll ps) := by
  induction ps with
  | nil => exact nil
  | cons p _ ih => exact append (param p) ih

theorem name? (l : Option String) : Closed (l.map Node.name).toList := by
  cases l with
  | none => exact nil
  | some l => exact cons rfl nil

theorem cryptoArray (l : Option Nat) : Closed (cryptoArrayNodes l) := by
  cases l with
  | none => exact cons rfl (cons rfl (cons rfl nil))
  | some l => exact cons rfl (cons rfl (cons rfl (cons rfl nil)))

end Closed

end Node

open Node (Closed outsideParams)

mutual

theorem Ty.closed : ∀ t : Ty, Closed t.nodes
  | .mapping _ k l v => .append (.append (.cons rfl k.closed) (.name? l)) v.closed
  | .array v none => .cons rfl v.closed
  | .array v (some n) => .append (.cons rfl v.closed) n.closed
  | .function ps _ rs => .append (.cons rfl (.params ps)) (.params rs)
  | .cipher _ _ | .publicKey _ | .randomness _ => .cons rfl (.cryptoArray _)
  | .elementary _ | .bool | .boolLit _ | .number | .numLit _ | .integer _ _ | .named _ _ _ | .address _
  | .tuple _ => .cons rfl .nil

theorem AnnTy.closed : ∀ t : AnnTy, Closed t.nodes
  | ⟨t, p, _, _, _⟩ => .append (.cons rfl t.closed) p.closed

theorem Info.typeClosed : ∀ i : Info, Closed i.typeNodes
  | ⟨_, _, some t, _, _⟩ => t.closed
  | ⟨_, _, none, _, _⟩ => .nil

theorem Expr.closed : ∀ e : Expr, Closed e.nodes
  | .call _ f as _ _ => .append (.cons rfl f.closed) (Expr.allClosed as)
  | .new i as => .append (.cons rfl i.typeClosed) (Expr.allClosed as)
  | .cast _ t e _ => .append (.cons rfl t.closed) e.closed
  | .arrayLit _ vs _ => .cons rfl (Expr.allClosed vs)
  | .tuple _ es => .cons rfl (Expr.allClosed es)
  | .member _ e _ _ => .append (.cons rfl e.closed) (.cons rfl .nil)
  | .index _ e k _ => .append (.cons rfl e.closed) k.closed
  | .reclassify _ _ e p _ => .append (.cons rfl e.closed) p.closed
  | .ident _ _ _ => .cons rfl (.cons rfl .nil)
  | .operator .. | .boolLit .. | .numLit .. | .me _ | .all _ => .cons rfl .nil

theorem Expr.allClosed : ∀ es : List Expr, Closed (Expr.nodesAll es)
  | [] => .nil
  | e :: es => .append e.closed (Expr.allClosed es)

end

/-! ## What bodies call -/

/-- What is called at the nodes outside of parameters. -/
def Node.calledOutside (ns : List Node) : List (Option Ref) :=
  (outsideParams 0 ns).filterMap fun n => n.callee?.map Expr.target?

section Outside

variable {n : Node} {ns ms : List Node}

theorem Node.Closed.calledOutside (h : Closed ns) (ms : List Node) :
    Node.calledOutside (ns ++ ms) = Node.calledOutside ns ++ Node.calledOutside ms := by
  unfold Node.calledOutside
  rw [h, List.filterMap_append]

theorem Node.calledOutside_cons (hn : (n matches .param _) = false) :
    Node.calledOutside (n :: ns) = (n.callee?.map Expr.target?).toList ++ Node.calledOutside ns := by
  unfold Node.calledOutside
  rw [outsideParams_cons hn, List.filterMap_cons]
  cases n.callee?.map Expr.target? <;> rfl

mutual

/-- Calls in expressions are outside of parameters. -/
theorem Expr.called_outside : ∀ e : Expr, e.called ⊆ Node.calledOutside e.nodes
  | .call i f as o k => by
    rw [called_call, Expr.nodes, (Closed.cons rfl f.closed).calledOutside, Node.calledOutside_cons rfl]
    exact append_subset_append (append_subset_append (List.Subset.refl _) f.called_outside) (Expr.allCalled_outside as)
  | .new i as => by
    rw [Expr.nodes, (Closed.cons rfl i.typeClosed).calledOutside]
    exact List.subset_append_of_subset_right _ (Expr.allCalled_outside as)
  | .cast i t e b => by
    rw [Expr.nodes, (Closed.cons rfl t.closed).calledOutside]
    exact List.subset_append_of_subset_right _ e.called_outside
  | .arrayLit _ vs _ => Expr.allCalled_outside vs
  | .tuple _ es => Expr.allCalled_outside es
  | .member i e n t => by
    rw [called_member, Expr.nodes, (Closed.cons rfl e.closed).calledOutside]
    exact List.subset_append_of_subset_left _ e.called_outside
  | .index i e k t => by
    rw [called_index, Expr.nodes, (Closed.cons rfl e.closed).calledOutside]
    exact append_subset_append e.called_outside k.called_outside
  | .reclassify i m e p h => by
    rw [called_reclassify, Expr.nodes, (Closed.cons rfl e.closed).calledOutside]
    exact append_subset_append e.called_outside p.called_outside
  | .operator .. | .boolLit .. | .numLit .. | .ident .. | .me _ | .all _ => by
    rw [called_leaf rfl]
    exact List.nil_subset _

theorem Expr.allCalled_outside : ∀ es : List Expr, calledAll es ⊆ Node.calledOutside (Expr.nodesAll es)
  | [] => List.nil_subset _
  | e :: es => by
    rw [calledAll_cons, Expr.nodesAll, e.closed.calledOutside]
    exact append_subset_append e.called_outside (Expr.allCalled_outside es)

end

end Outside

namespace Node

variable {ns ms : List Node} {e : Expr} {s : Stmt}

/-- The expression stands among the nodes, and no parameter begins before it that has not ended. -/
def Holds (ns : List Node) (e : Expr) : Prop := ∃ ls rs, Closed ls ∧ ns = ls ++ e.nodes ++ rs

theorem Holds.self (e : Expr) : Holds e.nodes e := ⟨[], [], .nil, (List.append_nil _).symm⟩

theorem Holds.left (h : Holds ns e) : Holds (ns ++ ms) e := by
  obtain ⟨ls, rs, closed, rfl⟩ := h
  exact ⟨ls, rs ++ ms, closed, List.append_assoc _ _ _⟩

theorem Holds.right (closed : Closed ns) (h : Holds ms e) : Holds (ns ++ ms) e := by
  obtain ⟨ls, rs, closed', rfl⟩ := h
  refine ⟨ns ++ ls, rs, closed.append closed', ?_⟩
  rw [List.append_assoc, List.append_assoc, List.append_assoc]

theorem Holds.called (h : Holds ns e) : e.called ⊆ calledOutside ns := by
  obtain ⟨ls, rs, closed, rfl⟩ := h
  rw [(closed.append e.closed).calledOutside, closed.calledOutside]
  exact List.subset_append_of_subset_left _ (List.subset_append_of_subset_right _ e.called_outside)

/-- The expressions of the statements among the nodes stand among them too. -/
structure Covered (ns : List Node) : Prop where
  closed : Closed ns
  holds : ∀ s ∈ stmts ns, ∀ e ∈ s.exprs, Holds ns e

namespace Covered

theorem nil : Covered [] := ⟨.nil, nofun⟩

theorem append (h : Covered ns) (h' : Covered ms) : Covered (ns ++ ms) := by
  refine ⟨h.closed.append h'.closed, ?_⟩
  rw [stmts_append]
  exact List.forall_mem_append.mpr ⟨fun s hs e he => (h.holds s hs e he).left,
    fun s hs e he => (h'.holds s hs e he).right h.closed⟩

theorem expr (e : Expr) : Covered e.nodes := by
  refine ⟨e.closed, ?_⟩
  rw [e.stmts_nodes]
  nofun

theorem expr? (e : Option Expr) : Covered (Expr.nodes? e) := by
  cases e with
  | none => exact nil
  | some e => exact expr e

theorem localVar (v : LocalVar) : Covered v.nodes := by
  refine ⟨.append (.cons rfl v.type.closed) (.cons rfl .nil), ?_⟩
  rw [v.stmts_nodes]
  nofun

theorem stmt (own : ∀ e ∈ s.exprs, Holds ns e) (h : Covered ns) : Covered (.stmt s :: ns) := by
  have first : Closed [.stmt s] := .cons rfl .nil
  have all : ∀ t ∈ s :: stmts ns, ∀ e ∈ t.exprs, Holds (.stmt s :: ns) e :=
    List.forall_mem_cons.mpr ⟨fun e he => (own e he).right first, fun t ht e he => (h.holds t ht e he).right first⟩
  refine ⟨.cons rfl h.closed, ?_⟩
  cases s with
  | comment | blank => exact (List.forall_mem_cons.mp all).2
  | _ => exact all

end Covered

end Node

theorem Stmt.covered (s : Stmt) : Node.Covered s.nodes := by
  have value (e : Option Expr) : ∀ x ∈ e.toList, Node.Holds (Expr.nodes? e) x := by
    cases e with
    | none => exact nofun
    | some e => exact List.forall_mem_singleton.mpr (.self e)
  have all (ss : List Stmt) (ih : ∀ s ∈ ss, Node.Covered s.nodes) : Node.Covered (Stmt.nodesAll ss) := by
    induction ss with
    | nil => exact .nil
    | cons s ss hss => exact (ih s List.mem_cons_self).append (hss fun t ht => ih t (List.mem_cons_of_mem _ ht))
  have body (b : Block) (ih : ∀ s ∈ b.stmts, Node.Covered s.nodes) : Node.Covered b.nodes := by
    obtain ⟨_, ss, _⟩ := b
    exact .stmt nofun (all ss ih)
  have optional (a : Option Stmt) (ih : ∀ s, a = some s → Node.Covered s.nodes) :
      Node.Covered ((a.map Stmt.nodes).getD []) := by
    cases a with
    | none => exact .nil
    | some s => exact ih s rfl
  induction s using Stmt.inductOn with
  | ifThen i c t e ht he =>
    have first := (Node.Covered.expr c).append (body t ht)
    cases e with
    | none => exact .stmt (List.forall_mem_singleton.mpr (.left (.self c))) first
    | some e => exact .stmt (List.forall_mem_singleton.mpr (.left (.left (.self c)))) (first.append (body e (he e rfl)))
  | whileLoop i c b hb =>
    exact .stmt (List.forall_mem_singleton.mpr (.left (.self c))) ((Node.Covered.expr c).append (body b hb))
  | doWhile i b c hb =>
    have first := body b hb
    exact .stmt (List.forall_mem_singleton.mpr (.right first.closed (.self c))) (first.append (.expr c))
  | forLoop i a c u b ha hu hb =>
    rw [nodes_forLoop]
    have first := optional a ha
    exact .stmt (List.forall_mem_singleton.mpr (.left (.left (.right first.closed (.self c)))))
      (((first.append (.expr c)).append (optional u hu)).append (body b hb))
  | block b hb => exact body b hb
  | seq i ss x hs => exact .stmt nofun (all ss hs)
  | simple s hs =>
    cases s with
    | ret i e => exact .stmt (value e) (.expr? e)
    | eval i e | require i e => exact .stmt (List.forall_mem_singleton.mpr (.self e)) (.expr e)
    | assign i l r o x =>
      exact .stmt (List.forall_mem_cons.mpr ⟨.left (.self l), List.forall_mem_singleton.mpr (.right l.closed (.self r))⟩)
        ((Node.Covered.expr l).append (.expr r))
    | declare i v e =>
      have first := Node.Covered.localVar v
      exact .stmt (fun x hx => .right first.closed (value e x hx)) (first.append (.expr? e))
    | breakLoop | continueLoop | compute | enterKey | comment | blank => exact .stmt nofun .nil
    | ifThen | whileLoop | doWhile | forLoop | block | seq => cases hs

/-- What is called in the statements of the body. -/
def FunctionDef.called (f : FunctionDef) : List (Option Ref) :=
  (Node.stmts f.body.nodes).flatMap fun s => calledAll s.exprs

theorem mem_calledAll {es : List Expr} {r : Option Ref} : r ∈ calledAll es ↔ ∃ e ∈ es, r ∈ e.called := by
  induction es with
  | nil => exact ⟨nofun, nofun⟩
  | cons e es ih => rw [calledAll_cons, List.mem_append, ih, List.exists_mem_cons_iff]

/-- The call graph knows of all calls in statements. -/
theorem FunctionDef.called_callees (f : FunctionDef) : f.called ⊆ f.callees.map Expr.target? := by
  intro r hr
  obtain ⟨s, hs, hr⟩ := List.mem_flatMap.mp hr
  obtain ⟨e, he, hr⟩ := mem_calledAll.mp hr
  unfold FunctionDef.callees
  rw [List.map_filterMap]
  exact ((Stmt.covered (.block f.body)).holds s hs e he).called hr

/-! ## The check of types -/

/-- The second expression mentions nothing that the first one does not mention. -/
abbrev Expr.MentionsWithin (e e' : Expr) : Prop := e'.mentions ⊆ e.mentions

theorem Expr.MentionsWithin.trans (e f g : Expr) (h : e.MentionsWithin f) (h' : f.MentionsWithin g) : e.MentionsWithin g :=
  List.Subset.trans h' h

theorem mentionsAll_subset {es es' : List Expr} (h : List.Forall₂ MentionsWithin es es') :
    mentionsAll es' ⊆ mentionsAll es := by
  induction h with
  | nil => exact List.nil_subset _
  | cons h _ ih =>
    rw [mentionsAll_cons, mentionsAll_cons]
    exact append_subset_append h ih

section Checking

variable {b : BodyContext} {i : StmtInfo}

theorem typeAssign_mentionsWithin {l r : Expr} {o : String} {x : Bool} :
    Ends (fun s' => List.Forall₂ MentionsWithin [l, r] s'.exprs) (typeAssign b i l r o x) :=
  .withSymbols fun _ => .ensure fun _ => .convert fun _ hr => .attempt fun _ _ => .pure <|
    .cons (List.Subset.refl _) (.cons (coerce_mentions hr) .nil)

theorem typeReturn_mentionsWithin {value : Option Expr} :
    Ends (fun s' => List.Forall₂ MentionsWithin value.toList s'.exprs) (typeReturn b i value) := by
  refine .withSymbols fun s => .ensure fun _ => ?_
  split
  · exact .ensure fun _ => .pure .nil
  · rename_i ti es
    exact .convert fun e he => .pure (.cons (coerce_mentions he) .nil)
  · rename_i e _
    refine .ensure fun _ => .convertAll fun es hes => .attempt fun _ _ => .pure (.cons ?_ .nil)
    refine List.Subset.trans (coerceAll_mentions hes) ?_
    rw [mentionsAll_cons]
    exact List.append_subset.mpr ⟨List.Subset.refl _, List.nil_subset _⟩

theorem typeDeclare_mentionsWithin {v : LocalVar} {e : Option Expr} :
    Ends (fun s' => List.Forall₂ MentionsWithin e.toList s'.exprs) (typeDeclare b i v e) := by
  refine .unlessStopped (Ends.bind (P := fun _ => True) ?_ fun v => ?_)
  · exact (v.type.check_ends _ _).bind fun _ => Ends.setType.bind fun _ => .pure fun _ _ => trivial
  · cases e with
    | none => exact .pure fun _ => .nil
    | some e =>
      refine (e.check_mentionsNoMore _).bind fun x => ?_
      refine Ends.imp (P := fun s' => List.Forall₂ MentionsWithin [x] s'.exprs) ?_ fun s' converted checked _ =>
        forall₂_comp MentionsWithin.trans (.cons checked.mentions .nil) converted
      exact .unlessStopped <| .withSymbols fun s => .convert fun y hy =>
        .pure (.cons (coerce_mentions hy) .nil)

/-- Checking a statement adds no mentions. -/
theorem Stmt.check_parallel (b : BodyContext) (s : Stmt) : Ends (s.Parallel MentionsWithin) (s.check b) := by
  have each := s.check_each (I := fun _ => True) (H := True) (N := fun _ => True) (E := MentionsWithin)
    (P := fun t t' => List.Forall₂ MentionsWithin t.exprs t'.exprs) (b := b)
    (fun c e _ => ((e.check_mentionsNoMore c).imp fun _ h => h.mentions).upholds) (fun _ _ _ h => h)
    (fun s simple _ => Ends.upholds ?_) fun _ _ => trivial
  · exact fun st hs => ⟨(each.ends st hs).1, (each.holds trivial st trivial hs).2⟩
  · cases s with
    | ret i e =>
      cases e with
      | none => exact (Ends.unlessStopped typeReturn_mentionsWithin).imp fun _ h _ => h
      | some e =>
        exact (e.check_mentionsNoMore _).bind fun x => (Ends.unlessStopped typeReturn_mentionsWithin).imp
          fun _ returned checked _ => forall₂_comp MentionsWithin.trans (.cons checked.mentions .nil) returned
    | eval i e => exact (e.check_mentionsNoMore _).bind fun x => .pure fun checked _ => .cons checked.mentions .nil
    | require i e =>
      refine (e.check_mentionsNoMore _).bind fun x => ?_
      refine Ends.imp (P := fun s' => List.Forall₂ MentionsWithin [x] s'.exprs) ?_ fun _ h checked _ =>
        forall₂_comp MentionsWithin.trans (.cons checked.mentions .nil) h
      exact .unlessStopped <| .ensure fun _ => .attempt fun _ _ => .pure (.cons (List.Subset.refl _) .nil)
    | assign i l r o x =>
      exact (l.check_mentionsNoMore _).bind fun l' => (r.check_mentionsNoMore _).bind fun r' =>
        (Ends.unlessStopped typeAssign_mentionsWithin).imp fun _ assigned right left _ =>
          forall₂_comp MentionsWithin.trans (.cons left.mentions (.cons right.mentions .nil)) assigned
    | declare i v e => exact typeDeclare_mentionsWithin.imp fun _ h _ => h
    | breakLoop | continueLoop | compute | enterKey | comment | blank => exact .pure fun _ => .nil
    | ifThen | whileLoop | doWhile | forLoop | block | seq => cases simple

end Checking

/-! ## Programs -/

/-- All expressions in the body, those inside others included. -/
def FunctionDef.bodyExprs (f : FunctionDef) : List Expr :=
  (Node.stmts f.body.nodes).flatMap fun s => Expr.subexprsAll s.exprs

theorem FunctionDef.mem_called {f : FunctionDef} {e c : Expr} (he : e ∈ f.bodyExprs)
    (hc : (Node.expr e).callee? = some c) : c.target? ∈ f.called := by
  obtain ⟨s, hs, he⟩ := List.mem_flatMap.mp he
  obtain ⟨x, hx, he⟩ := mem_subexprsAll.mp he
  exact List.mem_flatMap.mpr ⟨s, hs, mem_calledAll.mpr ⟨x, hx, Expr.mem_called.mpr ⟨e, he, congrArg (·.map target?) hc⟩⟩⟩

/-- What is mentioned in the statements of the body. -/
def FunctionDef.mentions (f : FunctionDef) : List Mentioned :=
  (Node.stmts f.body.nodes).flatMap fun s => mentionsAll s.exprs

theorem FunctionDef.called_eq (f : FunctionDef) : f.called = f.mentions.filterMap Mentioned.call? :=
  List.filterMap_flatMap.symm

namespace SourceUnit

variable {u v w : SourceUnit} {next : Nat} {o : Options} {f g k : FunctionDef}

/-- The function has the place in the call graph that it had before, and its body mentions nothing else. -/
structure Follows (f g : FunctionDef) : Prop extends SamePlace f g where
  mentions : g.mentions ⊆ f.mentions

theorem samePlace_coarse : Coarse SamePlace where
  refl _ := ⟨rfl, fun _ => .rfl, rfl, rfl⟩
  trans _ _ _ h₁ h₂ := ⟨h₂.id.trans h₁.id, fun j => (h₂.calls j).trans (h₁.calls j), h₂.recursive.trans h₁.recursive,
    h₂.staticBody.trans h₁.staticBody⟩
  code _ _ _ _ := ⟨rfl, fun _ => .rfl, rfl, rfl⟩
  summary _ _ _ _ := ⟨rfl, fun _ => .rfl, rfl, rfl⟩

namespace Follows

theorem refl (f : FunctionDef) : Follows f f := ⟨samePlace_coarse.refl f, List.Subset.refl _⟩

theorem trans (f g k : FunctionDef) (h : Follows f g) (h' : Follows g k) : Follows f k :=
  ⟨samePlace_coarse.trans _ _ _ h.toSamePlace h'.toSamePlace, List.Subset.trans h'.mentions h.mentions⟩

/-- The body calls nothing else. -/
theorem called (h : Follows f g) : g.called ⊆ f.called := by
  rw [f.called_eq, g.called_eq]
  exact List.filterMap_subset _ h.mentions

/-- A body that is parallel to the one before. -/
theorem parallel (same : SamePlace f g) (h : f.body.Parallel MentionsWithin g.body) : Follows f g := by
  refine ⟨same, ?_⟩
  unfold FunctionDef.mentions
  have each : List.Forall₂ (fun s s' : Stmt => mentionsAll s'.exprs ⊆ mentionsAll s.exprs) (Node.stmts f.body.nodes)
      (Node.stmts g.body.nodes) := List.Forall₂.imp (fun _ _ => mentionsAll_subset) h
  generalize Node.stmts f.body.nodes = ss at each
  generalize Node.stmts g.body.nodes = ss' at each
  induction each with
  | nil => exact List.nil_subset _
  | cons hs _ ih => exact append_subset_append hs ih

theorem code (f : FunctionDef) {params returns : List Param} {body : Block} (h : f.body.Parallel MentionsWithin body) :
    Follows f { f with params, returns, body } := parallel (samePlace_coarse.code f _ _ _) h

theorem summarize (f : FunctionDef) {body : Block} (h : f.body.Parallel MentionsWithin body) :
    Follows f (f.summarize body) :=
  parallel (samePlace_coarse.summary f _ _ _) h

end Follows

theorem markAccesses_follows (h : v.markAccesses = .ok w) : v.Pointwise Follows w := by
  have within (e : Expr) : e.MentionsWithin e := List.Subset.refl _
  have called (n : Nat) (u : SourceUnit) : u.Pointwise Follows (u.markCalled n) := by
    induction n generalizing u with
    | zero => exact .refl .refl u
    | succ n ih =>
      have once : u.Pointwise Follows u.markCalledOnce :=
        mapFunctions_pointwise (fun _ f s => .summarize f (f.body.markCalled_parallel within s)) u _
      unfold markCalled
      dsimp only
      split
      · exact once
      · exact once.trans Follows.trans (ih _)
  obtain ⟨x, hx, hw⟩ := except_bind_ok h
  cases hw
  obtain ⟨contracts, hm, hx⟩ := except_bind_ok hx
  cases hx
  have own : v.Pointwise Follows { v with contracts } := by
    refine visit_pointwise (fun c f g hg => ?_) hm
    obtain ⟨body, hb, hg⟩ := except_bind_ok hg
    cases hg
    exact .summarize f (f.body.markOwn_parallel within _ body hb)
  exact own.trans Follows.trans (called _ _)

end SourceUnit

theorem FunctionDef.check_follows (site : Site) (f : FunctionDef) : Ends (SourceUnit.Follows f) (f.check site) := by
  have body (b : BodyContext) : Ends (f.body.Parallel MentionsWithin) (f.body.check b) := fun s hs =>
    Stmt.check_parallel b (.block f.body) s hs
  refine .unlessStopped <| (Param.checkAll_ends none _ [] f.params).bind fun _ =>
    (Param.checkAll_ends none _ [] f.returns).bind fun _ => Ends.setFunction.bind fun _ => (body _).bind fun t =>
      Ends.setFunction.bind fun _ => ?_
  exact (Ends.unlessStopped (P := fun g => f.body.Parallel MentionsWithin t → SourceUnit.Follows f g)
    (.ensure fun _ => .ensure fun _ => .pure fun h => .code f h)).imp fun _ h _ hb _ _ _ => h hb

theorem Contract.check_follows (text : List String) (c : Contract) :
    Ends (c.Pointwise SourceUnit.Follows) (c.check text) := by
  refine (ends_mapM (R := fun _ _ => True) (EnumDef.check_ends _) c.enums).bind fun _ => ?_
  refine (ends_mapM (R := fun _ _ => True) (StructDef.check_ends _) c.structs).bind fun _ => ?_
  refine (ends_mapM (R := fun _ _ => True) (StateItem.check_ends _) c.state).bind fun _ => ?_
  refine (ends_mapM (FunctionDef.check_follows _) c.constructors).bind fun _ => ?_
  refine (ends_mapM (FunctionDef.check_follows _) c.functions).bind fun _ => .pure fun functions constructors _ _ _ => ?_
  exact ⟨rfl, rfl, constructors, functions⟩

theorem FunctionDef.settle_follows (symbols : Symbols) (f : FunctionDef) : SourceUnit.Follows f (f.settle symbols) :=
  .code f (f.body.mapExprs_parallel fun e => (e.settle_mentionsNoMore symbols).mentions)

namespace SourceUnit

variable {u v w : SourceUnit} {next : Nat} {o : Options} {f g : FunctionDef}

theorem check_follows (h : v.check.failure = none) : v.Pointwise Follows v.check.unit := by
  unfold check at h ⊢
  split at h
  · cases h
  · have checked := (ends_mapM (Contract.check_follows v.text) v.contracts _ h).2
    show List.Forall₂ _ _ (ite _ _ _)
    split
    · refine List.forall₂_map_right_iff.mpr (checked.imp fun c d h => ?_)
      have settled {fs gs : List FunctionDef} (h : List.Forall₂ Follows fs gs) (s : Symbols) :
          List.Forall₂ Follows fs (gs.map (FunctionDef.settle s)) :=
        List.forall₂_map_right_iff.mpr (h.imp fun f g hg => hg.trans _ _ _ (g.settle_follows s))
      exact ⟨h.id, h.name, settled h.constructors _, settled h.functions _⟩
    · exact checked

theorem place_follows {b : Bool} (h : v.place b = (w, none)) : v.Pointwise Follows w := by
  refine place_related (fun f t => ?_) h
  have placed : Always (f.body.Parallel MentionsWithin) (f.body.place t false) :=
    f.body.place_parallel MentionsWithin.trans (fun b e => (e.marked_mentionsNoMore b).mentions)
      (fun site e s => (e.moveIn_mentionsNoMore site s).mentions) (fun c cur e s => (e.place_mentionsNoMore c cur s).mentions)
      t false
  exact ((f.body.place_agrees t false).and_always placed).imp fun _ h => .code f h.2

theorem markCapable_follows (u : SourceUnit) : u.Pointwise Follows u.markCapable := by
  refine .trans Follows.trans (mapFacts_pointwise (fun _ g => ?_) _) (mapFacts_pointwise (fun _ g => ?_) _) <;>
    exact ⟨⟨rfl, fun _ => .rfl, rfl, rfl⟩, List.Subset.refl _⟩

theorem markProofs_follows (u : SourceUnit) : u.Pointwise Follows u.markProofs := by
  refine .trans Follows.trans (mapFacts_pointwise (fun _ _ => ⟨⟨rfl, fun _ => .rfl, rfl, rfl⟩, List.Subset.refl _⟩) u)
    (mapFacts_pointwise (fun s f => ?_) _)
  dsimp only
  split <;> exact ⟨⟨rfl, fun _ => .rfl, rfl, rfl⟩, List.Subset.refl _⟩

theorem markInlined_follows (u : SourceUnit) : u.Pointwise Follows u.markInlined := by
  have bodies := mapFunctions_pointwise (R := Follows) (σ := Unit)
    (f := fun _ f _ => ({ f with body := f.body.mapExprs (Expr.markInlined u.symbols) }, ()))
    (fun _ f _ => .code f (f.body.mapExprs_parallel fun e => (e.markInlined_mentionsNoMore _).mentions)) u ()
  refine List.forall₂_map_right_iff.mpr (bodies.imp fun c d h => ?_)
  exact ⟨h.id, h.name, h.constructors, h.functions⟩

/-- Functions are marked with what they reach before types are checked; the later passes neither change these marks nor
add to what bodies mention. -/
theorem Accepted.marked (h : u.Accepted next o v) : ∃ linked aliased called n, u.link next = .ok (linked, n) ∧
    linked.markAliases = .ok aliased ∧ aliased.markCalls = .ok called ∧ called.Pointwise Follows v := by
  cases h with
  | @intro linked aliased called accessed placed n link _ aliases calls accesses _ types places =>
  have checked : called.Pointwise Follows accessed.check.unit.markCapable :=
    ((markAccesses_follows accesses).trans Follows.trans (check_follows types)).trans Follows.trans
      (markCapable_follows _)
  have proved : placed.Pointwise Follows placed.markProofs.markInlined :=
    (markProofs_follows placed).trans Follows.trans (markInlined_follows _)
  exact ⟨linked, aliased, called, n, link, aliases, calls,
    (checked.trans Follows.trans (place_follows places)).trans Follows.trans proved⟩

/-- The call graph is found in a program with the same places. -/
theorem Accepted.follows (h : u.Accepted next o v) : ∃ linked called, linked.numbers = u.numbers ∧
    u.Pointwise SamePlace linked ∧ linked.markCalls = .ok called ∧ called.Pointwise Follows v := by
  obtain ⟨linked, aliased, called, n, link, aliases, calls, follows⟩ := h.marked
  refine ⟨aliased, called, ?_, ?_, calls, follows⟩
  · rw [markAliases_numbers aliases, link_numbers link]
  · exact (link_pointwise samePlace_coarse link).trans samePlace_coarse.trans
      (markAliases_pointwise samePlace_coarse aliases)

theorem Unvisited.of_samePlace (h : u.Unvisited) (same : u.Pointwise SamePlace v) : v.Unvisited := by
  intro k hk
  obtain ⟨f, hf, sf⟩ := exists_mem_of_forall₂_right (allFunctions_pointwise same) hk
  obtain ⟨calls, recursive, static⟩ := h f hf
  refine ⟨List.eq_nil_iff_forall_not_mem.mpr fun j hj => ?_, sf.recursive.trans recursive, sf.staticBody.trans static⟩
  have listed := (sf.calls j).mp hj
  rw [calls] at listed
  cases listed

theorem markCalls_called (h : u.markCalls = .ok v) : u.Pointwise (fun f g => g.id = f.id ∧ g.called = f.called) v :=
  markCalls_pointwise (fun _ _ _ h h' => ⟨h'.1.trans h.1, h'.2.trans h.2⟩) (fun _ _ _ _ => ⟨rfl, rfl⟩) h

/-- Every function in an accepted program is placed by a call graph that knows all calls in its body. -/
theorem Accepted.graph (distinct : u.numbers.Nodup) (fresh : u.Unvisited) (h : u.Accepted next o v) :
    ∃ linked : SourceUnit, linked.numbers = u.numbers ∧
      ∀ k ∈ v.allFunctions, ∃ f ∈ linked.allFunctions, linked.Placed f k ∧ k.called ⊆ f.callees.map Expr.target? := by
  obtain ⟨linked, called, numbers, before, calls, after⟩ := h.follows
  have distinct' : linked.numbers.Nodup := numbers ▸ distinct
  have placed := markCalls_placed distinct' (fresh.of_samePlace before) calls
  have bodies := allFunctions_pointwise (markCalls_called calls)
  refine ⟨linked, numbers, fun k hk => ?_⟩
  obtain ⟨g, hg, follows⟩ := exists_mem_of_forall₂_right (allFunctions_pointwise after) hk
  obtain ⟨f, hf, pf⟩ := exists_mem_of_forall₂_right placed hg
  obtain ⟨f', hf', id, body⟩ := exists_mem_of_forall₂_right bodies hg
  obtain rfl : f = f' := eq_of_id distinct' hf hf' (pf.id.symm.trans id)
  refine ⟨f, hf, ⟨follows.id.trans pf.id, fun j => (follows.calls j).trans (pf.calls j), ?_, ?_⟩, ?_⟩
  · rw [follows.recursive, pf.recursive]
  · rw [follows.staticBody, pf.staticBody]
  · exact List.Subset.trans follows.called (body ▸ f.called_callees)

end SourceUnit

end Shroud
