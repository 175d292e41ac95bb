import Shroud.Proofs.Callees
import Shroud.Proofs.Run

/-!
# Calls inside a circuit

A call that is evaluated in the circuit is replaced by the body of the called function, and so are the calls in this body.
The check before that asks only for a static body of the function that is called first.

**Depth.** A function has a static body if neither it nor anything it reaches has a loop or calls itself. What is reached is
found out before types are checked, and the later passes add no calls (`SourceUnit.Accepted.graph`). So a body never
appears inside of itself, however the calls follow each other. Calls in the branches of an if statement with a private
condition are marked as well and need no treatment of their own.

**What never ends.** A public call that looks like a cast, the conversion of a number to an enum, is evaluated in the
circuit if its argument is. The circuit needs its value as an input, and for this it is transformed again
(`Expr.endless_circular`). Casts ask for their own mark and stay outside.

**Results.**

* `process_inlining_bounded`: the bodies that a call in an accepted program leads into, one inside the other, belong to
  different functions with static bodies, so there are no more of them than functions.
* `picking_endless`: an accepted program with an expression in the circuit that cannot be transformed, however deep the
  activities may refer to each other.
-/

namespace Shroud

/-! ## Calls in the circuit -/

section Marks

variable {σ : Symbols} {e c : Expr} {g : FunctionDef}

theorem Node.callee?_call (h : (Node.expr e).callee? = some c) :
    ∃ i as o k, e = .call i c as o k ∧ (Expr.call i c as o k).isCastCall = false ∧ c.op? = none := by
  cases e with
  | call i f as o k =>
    unfold Node.callee? at h
    dsimp only at h
    cases cast : (Expr.call i f as o k).isCastCall with
    | true =>
      rw [cast] at h
      cases f <;> cases h
    | false =>
      rw [cast] at h
      cases f with
      | operator => cases h
      | _ =>
        cases h
        exact ⟨i, as, o, k, rfl, cast, rfl⟩
  | _ => cases h

/-- A call in the circuit that passes the check is one of a function with a static body. -/
theorem Expr.inlineFault?_static (h : e.inlineFault? σ = none) (marked : e.info.privately = true)
    (called : (Node.expr e).callee? = some c) (found : σ.callee? c = some g) : g.facts.staticBody = true := by
  obtain ⟨i, as, o, k, rfl, cast, op⟩ := Node.callee?_call called
  have marked : i.privately = true := marked
  unfold inlineFault? at h
  dsimp only at h
  rw [marked, cast, if_neg (by decide)] at h
  cases c with
  | operator => cases op
  | _ =>
    dsimp only at h
    rw [found] at h
    dsimp only at h
    cases static : g.facts.staticBody with
    | true => rfl
    | false =>
      rw [static] at h
      cases h

end Marks

mutual

theorem Expr.subexprs_nodes : ∀ e : Expr, e.subexprs ⊆ Node.exprs e.nodes
  | .call i f as o k => by
    rw [Expr.nodes, Node.exprs_append, Node.exprs_expr]
    exact append_subset_append (List.cons_subset_cons _ f.subexprs_nodes) (Expr.subexprsAll_nodes as)
  | .new i as => by
    rw [Expr.nodes, Node.exprs_append, Node.exprs_expr]
    exact List.cons_subset_cons _ (List.subset_append_of_subset_right _ (Expr.subexprsAll_nodes as))
  | .cast i t e b => by
    rw [Expr.nodes, Node.exprs_append, Node.exprs_expr]
    exact List.cons_subset_cons _ (List.subset_append_of_subset_right _ e.subexprs_nodes)
  | .arrayLit i vs k => List.cons_subset_cons _ (Expr.subexprsAll_nodes vs)
  | .tuple i es => List.cons_subset_cons _ (Expr.subexprsAll_nodes es)
  | .member i e n t => by
    rw [Expr.nodes, Node.exprs_append, Node.exprs_expr]
    exact List.subset_append_of_subset_left _ (List.cons_subset_cons _ e.subexprs_nodes)
  | .index i e k t => by
    rw [Expr.nodes, Node.exprs_append, Node.exprs_expr]
    exact append_subset_append (List.cons_subset_cons _ e.subexprs_nodes) k.subexprs_nodes
  | .reclassify i m e p h => by
    rw [Expr.nodes, Node.exprs_append, Node.exprs_expr]
    exact append_subset_append (List.cons_subset_cons _ e.subexprs_nodes) p.subexprs_nodes
  | .operator .. | .boolLit .. | .numLit .. | .ident .. | .me _ | .all _ => List.Subset.refl _

theorem Expr.subexprsAll_nodes : ∀ es : List Expr, Expr.subexprsAll es ⊆ Node.exprs (Expr.nodesAll es)
  | [] => List.nil_subset _
  | e :: es => by
    rw [Expr.nodesAll, Node.exprs_append]
    exact append_subset_append e.subexprs_nodes (Expr.subexprsAll_nodes es)

end

mutual

theorem Expr.subexprs_markInlined (s : Symbols) : ∀ e : Expr,
    (e.markInlined s).subexprs = e.subexprs.map (Expr.markInlined s)
  | .call i f as o k => by
    rw [subexprs, List.map_append, List.map_cons, ← f.subexprs_markInlined, ← Expr.subexprsAll_markInlined s as]
    rfl
  | .new i as => congrArg (_ :: ·) (Expr.subexprsAll_markInlined s as)
  | .cast i t e b => congrArg (_ :: ·) (e.subexprs_markInlined s)
  | .arrayLit i vs k => congrArg (_ :: ·) (Expr.subexprsAll_markInlined s vs)
  | .tuple i es => congrArg (_ :: ·) (Expr.subexprsAll_markInlined s es)
  | .member i e n t => congrArg (_ :: ·) (e.subexprs_markInlined s)
  | .index i e k t => by
    rw [subexprs, List.map_append, List.map_cons, ← e.subexprs_markInlined, ← k.subexprs_markInlined]
    rfl
  | .reclassify i m e p h => by
    rw [subexprs, List.map_append, List.map_cons, ← e.subexprs_markInlined, ← p.subexprs_markInlined]
    rfl
  | .operator .. | .boolLit .. | .numLit .. | .ident .. | .me _ | .all _ => rfl

theorem Expr.subexprsAll_markInlined (s : Symbols) : ∀ es : List Expr,
    Expr.subexprsAll (Expr.markAllInlined s es) = (Expr.subexprsAll es).map (Expr.markInlined s)
  | [] => rfl
  | e :: es => by
    rw [Expr.markAllInlined, subexprsAll, subexprsAll, List.map_append, e.subexprs_markInlined,
      Expr.subexprsAll_markInlined s es]

end

theorem FunctionDef.bodyExprs_nodes (f : FunctionDef) : f.bodyExprs ⊆ Node.exprs f.body.nodes := by
  intro x hx
  obtain ⟨s, hs, hx⟩ := List.mem_flatMap.mp hx
  obtain ⟨e, he, hx⟩ := Expr.mem_subexprsAll.mp hx
  obtain ⟨ls, rs, -, nodes⟩ := (Stmt.covered (.block f.body)).holds s hs e he
  replace nodes : f.body.nodes = ls ++ e.nodes ++ rs := nodes
  rw [nodes, Node.exprs_append, Node.exprs_append]
  exact List.mem_append_left _ (List.mem_append_right _ (e.subexprs_nodes hx))

/-- The expressions of a body after marking what is proved along. -/
theorem FunctionDef.mem_bodyExprs_markInlined {f g : FunctionDef} {σ : Symbols}
    (body : g.body = f.body.mapExprs (Expr.markInlined σ)) {x : Expr} (hx : x ∈ g.bodyExprs) :
    ∃ e ∈ f.bodyExprs, e.markInlined σ = x := by
  obtain ⟨s, hs, hx⟩ := List.mem_flatMap.mp hx
  rw [body, Block.stmts_mapExprs] at hs
  obtain ⟨t, ht, rfl⟩ := List.mem_map.mp hs
  rw [Stmt.exprs_mapExprs] at hx
  obtain ⟨y, hy, hx⟩ := Expr.mem_subexprsAll.mp hx
  obtain ⟨z, hz, rfl⟩ := List.mem_map.mp hy
  rw [Expr.subexprs_markInlined] at hx
  obtain ⟨e, he, rfl⟩ := List.mem_map.mp hx
  exact ⟨e, List.mem_flatMap.mpr ⟨t, ht, Expr.mem_subexprsAll.mpr ⟨z, hz, he⟩⟩, rfl⟩

theorem Expr.ownCall?_markInlined (e : Expr) (σ : Symbols) : (e.markInlined σ).ownCall? = e.ownCall? := by
  cases e with
  | call i f as o k => exact (f.markInlined_mentionsNoMore σ).ownCall?
  | _ => rfl

theorem Expr.privately_markInlined (e : Expr) (σ : Symbols) : (e.markInlined σ).info.privately = e.info.privately := by
  cases e <;> rfl

/-- The function that the expression calls. -/
def Symbols.calleeOf? (σ : Symbols) (e : Expr) : Option FunctionDef := (Node.expr e).callee?.bind σ.callee?

/-- Functions are called by their numbers. -/
theorem Symbols.calleeOf?_eq (e : Expr) : ∃ i : Option Nat, ∀ σ : Symbols, σ.calleeOf? e = i.bind σ.function? := by
  unfold calleeOf?
  cases (Node.expr e).callee? with
  | none => exact ⟨none, fun _ => rfl⟩
  | some c => exact Symbols.callee?_eq c

theorem Symbols.calleeOf?_congr {σ : Symbols} {e e' : Expr} (h : e'.ownCall? = e.ownCall?) :
    σ.calleeOf? e' = σ.calleeOf? e := by
  have named (e : Expr) : σ.calleeOf? e = e.ownCall?.bind fun r => (r.bind σ.decl?).bind Decl.function? := by
    unfold calleeOf? Expr.ownCall?
    cases (Node.expr e).callee? <;> rfl
  rw [named, named, h]

/-- A loop that succeeds has passed all steps. -/
theorem except_for_each {α ε : Type} {P : α → Prop} {step : α → Except ε (ForInStep Unit)} {xs : List α}
    (each : ∀ x r, step x = .ok r → r = .yield () ∧ P x) (h : (forIn xs () fun x _ => step x) = .ok ()) :
    ∀ x ∈ xs, P x := by
  induction xs with
  | nil => exact List.forall_mem_nil _
  | cons y ys ih =>
    rw [List.forIn_cons] at h
    obtain ⟨r, hr, h⟩ := except_bind_ok h
    obtain ⟨rfl, hy⟩ := each y r hr
    exact List.forall_mem_cons.mpr ⟨hy, ih h⟩

namespace SourceUnit

variable {u v : SourceUnit} {next : Nat} {o : Options}

theorem checkInlineable_ok (h : u.checkInlineable = .ok ()) :
    ∀ f ∈ u.allFunctions, ∀ e ∈ f.bodyExprs, e.inlineFault? u.symbols = none := by
  intro f hf e he
  obtain ⟨c, hc, hf⟩ := List.mem_flatMap.mp hf
  have listed := f.bodyExprs_nodes he
  rw [← Block.subexprsInPlace_exprs] at listed
  obtain ⟨p, hp, rfl⟩ := List.mem_map.mp listed
  unfold checkInlineable at h
  dsimp only at h
  obtain ⟨_, h, _⟩ := except_bind_ok h
  refine except_for_each (P := fun p => p.2.inlineFault? u.symbols = none) (fun p r hr => ?_)
    (except_for_ok (except_for_ok h c hc) f hf) p hp
  cases found : p.2.inlineFault? u.symbols with
  | none =>
    rw [found] at hr
    cases hr
    exact ⟨rfl, rfl⟩
  | some fault =>
    rw [found] at hr
    cases hr

/-- What a function was before a pass that keeps numbers. -/
theorem function?_before {R : FunctionDef → FunctionDef → Prop} (h : u.Pointwise R v)
    (same : ∀ f g, R f g → g.id = f.id) (distinct : u.numbers.Nodup) {i : Nat} {g : FunctionDef}
    (found : v.symbols.function? i = some g) :
    ∃ f, u.symbols.function? i = some f ∧ (R f g ∨ f = g ∧ f ∈ Builtin.methods) := by
  obtain ⟨own | builtin, rfl⟩ := function?_found found
  · obtain ⟨f, hf, related⟩ := exists_mem_of_forall₂_right (allFunctions_pointwise h) own
    exact ⟨f, (function?_iff distinct).mpr ⟨.inl hf, (same f g related).symm⟩, .inl related⟩
  · exact ⟨g, (function?_iff distinct).mpr ⟨.inr builtin, rfl⟩, .inr ⟨rfl, builtin⟩⟩

/-- In an accepted program, calls that are evaluated in the circuit lead to functions with static bodies. -/
theorem Accepted.static_callee (distinct : u.numbers.Nodup) (h : u.Accepted next o v) {f g : FunctionDef}
    (hf : f ∈ v.allFunctions) {e : Expr} (he : e ∈ f.bodyExprs) (marked : e.info.privately = true)
    (called : v.symbols.calleeOf? e = some g) : g.facts.staticBody = true := by
  have numbers := h.numbers
  cases h with
  | @intro _ _ _ _ placed _ _ _ _ _ _ _ _ _ inlineable =>
  have after : placed.Pointwise Follows placed.markProofs.markInlined :=
    (markProofs_follows placed).trans Follows.trans (markInlined_follows _)
  have bodies := Pointwise.trans (T := fun f g => g.body = f.body.mapExprs (Expr.markInlined placed.markProofs.symbols))
    (fun f g k hg hk => hk.trans (by rw [hg])) placed.markProofs_facts (markInlined_body _)
  have distinct' : placed.numbers.Nodup := by
    rw [← markProofs_numbers, ← markInlined_numbers, numbers]
    exact distinct
  -- The check looked at the same call when it was not yet marked as one that is proved along.
  obtain ⟨k, hk, body⟩ := exists_mem_of_forall₂_right (allFunctions_pointwise bodies) hf
  obtain ⟨x, hx, rfl⟩ := FunctionDef.mem_bodyExprs_markInlined body he
  rw [Symbols.calleeOf?_congr (x.ownCall?_markInlined _)] at called
  obtain ⟨i, named⟩ := Symbols.calleeOf?_eq x
  rw [named] at called
  obtain ⟨i, rfl, found⟩ := Option.bind_eq_some_iff.mp called
  obtain ⟨j, found, same⟩ := function?_before after (fun _ _ h => h.id) distinct' found
  obtain ⟨c, hc, hj⟩ := Option.bind_eq_some_iff.mp ((named placed.symbols).trans found)
  have static := Expr.inlineFault?_static (checkInlineable_ok inlineable k hk x hx)
    ((x.privately_markInlined _).symm.trans marked) hc hj
  rcases same with follows | ⟨rfl, -⟩
  · rw [follows.staticBody]
    exact static
  · exact static

/-! ## Calls inside calls -/

/-- Carrying out the expression in the circuit leads into the bodies of these functions, each one inside the last. -/
inductive Nests (u : SourceUnit) : Expr → List FunctionDef → Prop
  | call {e : Expr} {f : FunctionDef} (called : u.symbols.calleeOf? e = some f) : Nests u e [f]
  | inside {e x : Expr} {f : FunctionDef} {fs : List FunctionDef} (called : u.symbols.calleeOf? e = some f)
      (body : x ∈ f.bodyExprs) (rest : Nests u x fs) : Nests u e (f :: fs)

theorem Builtin.bodyExprs_methods {f : FunctionDef} (h : f ∈ Builtin.methods) : f.bodyExprs = [] := by
  simp only [Builtin.methods, List.mem_cons, List.not_mem_nil, or_false] at h
  rcases h with rfl | rfl <;> rfl

/-- What is known of the functions of an accepted program from the graph of the calls before types are checked. -/
structure Layered (g v : SourceUnit) : Prop where
  distinct : g.numbers.Nodup
  placed : ∀ k ∈ v.allFunctions, ∃ f ∈ g.allFunctions, g.Placed f k ∧ k.called ⊆ f.callees.map Expr.target?

theorem Accepted.layered (distinct : u.numbers.Nodup) (fresh : u.Unvisited) (h : u.Accepted next o v) :
    ∃ g, Layered g v := by
  obtain ⟨g, numbers, placed⟩ := h.graph distinct fresh
  exact ⟨g, numbers ▸ distinct, placed⟩

namespace Layered

variable {g : SourceUnit} {f k : FunctionDef} {e : Expr}

/-- Functions that can be called are known to the graph. -/
theorem function? (h : Layered g v) {i : Nat} (found : v.symbols.function? i = some f) :
    ∃ l, g.symbols.function? i = some l ∧ l.id = f.id := by
  obtain ⟨own | builtin, rfl⟩ := function?_found found
  · obtain ⟨l, hl, placed, -⟩ := h.placed f own
    exact ⟨l, (function?_iff h.distinct).mpr ⟨.inl hl, placed.id.symm⟩, placed.id.symm⟩
  · exact ⟨f, (function?_iff h.distinct).mpr ⟨.inr builtin, rfl⟩, rfl⟩

/-- Calls in bodies are calls in the graph. -/
theorem invokes (h : Layered g v) (hk : k ∈ v.allFunctions) (he : e ∈ k.bodyExprs)
    (called : v.symbols.calleeOf? e = some f) : g.Invokes k.id f.id := by
  obtain ⟨l, hl, placed, within⟩ := h.placed k hk
  obtain ⟨c, hc, found⟩ := Option.bind_eq_some_iff.mp called
  obtain ⟨d, hd, same⟩ := List.mem_map.mp (within (FunctionDef.mem_called he hc))
  obtain ⟨i, named⟩ := Symbols.callee?_eq c
  rw [named] at found
  obtain ⟨i, rfl, found⟩ := Option.bind_eq_some_iff.mp found
  obtain ⟨x, hx, id⟩ := h.function? found
  have before : g.symbols.callee? d = g.symbols.callee? c := by
    unfold Symbols.callee?
    rw [same]
  exact .single ⟨l, hl, placed.id.symm, d, hd, x, (before.trans (named _)).trans hx, id⟩

/-- Static functions do not reach themselves. -/
theorem acyclic (h : Layered g v) (hf : f ∈ v.allFunctions) (static : f.facts.staticBody = true) :
    ¬ g.Invokes f.id f.id := by
  obtain ⟨l, hl, placed, -⟩ := h.placed f hf
  rw [placed.id]
  exact (placed.staticBody.mp static l hl (.inl rfl)).2

/-- What static functions reach is static. -/
theorem static_of_invokes (h : Layered g v) (hk : k ∈ v.allFunctions) (static : k.facts.staticBody = true)
    (hf : f ∈ v.allFunctions ∨ f ∈ Builtin.methods) (reached : g.Invokes k.id f.id) : f.facts.staticBody = true := by
  rcases hf with hf | hf
  · obtain ⟨l, hl, pk, -⟩ := h.placed k hk
    obtain ⟨m, hm, pf, -⟩ := h.placed f hf
    rw [pk.id, pf.id] at reached
    exact pf.staticBody.mpr fun x hx below => pk.staticBody.mp static x hx
      (.inr (below.elim (fun same => same ▸ reached) reached.trans))
  · exact Builtin.methods_static hf

/-- Functions whose bodies are carried out one inside the other, from the first one on. -/
structure Chain (g v : SourceUnit) (f : FunctionDef) (fs : List FunctionDef) : Prop where
  reached : ∀ k ∈ fs, g.Invokes f.id k.id
  known : ∀ k ∈ f :: fs, k ∈ v.allFunctions ∨ k ∈ Builtin.methods
  static : ∀ k ∈ f :: fs, k.facts.staticBody = true
  distinct : ((f :: fs).map FunctionDef.id).Nodup

/-- From a static function on, each body belongs to another function. -/
theorem chain (h : Layered g v) {fs : List FunctionDef} (nests : v.Nests e fs)
    (static : ∀ f, v.symbols.calleeOf? e = some f → f.facts.staticBody = true) :
    ∃ f rest, fs = f :: rest ∧ v.symbols.calleeOf? e = some f ∧ Chain g v f rest := by
  have known {e : Expr} {f : FunctionDef} (called : v.symbols.calleeOf? e = some f) :
      f ∈ v.allFunctions ∨ f ∈ Builtin.methods := by
    obtain ⟨i, named⟩ := Symbols.calleeOf?_eq e
    rw [named] at called
    obtain ⟨i, rfl, found⟩ := Option.bind_eq_some_iff.mp called
    exact (function?_found found).1
  induction nests with
  | @call e f called =>
    exact ⟨f, [], rfl, called, nofun, List.forall_mem_singleton.mpr (known called),
      List.forall_mem_singleton.mpr (static f called), List.nodup_singleton _⟩
  | @inside e x f fs called body _ ih =>
    have own : f ∈ v.allFunctions := by
      refine (known called).resolve_right fun builtin => ?_
      rw [Builtin.bodyExprs_methods builtin] at body
      cases body
    have first := static f called
    obtain ⟨k, rest, rfl, inner, deeper⟩ := ih fun k hk =>
      h.static_of_invokes own first (known hk) (h.invokes own body hk)
    have step := h.invokes own body inner
    have reached : ∀ l ∈ k :: rest, g.Invokes f.id l.id :=
      List.forall_mem_cons.mpr ⟨step, fun l hl => step.trans (deeper.reached l hl)⟩
    refine ⟨f, k :: rest, rfl, called, reached, List.forall_mem_cons.mpr ⟨.inl own, deeper.known⟩,
      List.forall_mem_cons.mpr ⟨first, deeper.static⟩, List.nodup_cons.mpr ⟨fun again => ?_, deeper.distinct⟩⟩
    obtain ⟨l, hl, same⟩ := List.mem_map.mp again
    exact h.acyclic own first (same ▸ reached l hl)

end Layered

/-- How deep calls in the circuit lead into other functions. -/
theorem Accepted.nests (distinct : u.numbers.Nodup) (fresh : u.Unvisited) (h : u.Accepted next o v) {f : FunctionDef}
    (hf : f ∈ v.allFunctions) {e : Expr} (he : e ∈ f.bodyExprs) (marked : e.info.privately = true) {fs : List FunctionDef}
    (nests : v.Nests e fs) : (∀ k ∈ fs, k.facts.staticBody = true) ∧ (fs.map FunctionDef.id).Nodup ∧
      fs.length ≤ v.allFunctions.length + Builtin.methods.length := by
  obtain ⟨g, layered⟩ := h.layered distinct fresh
  obtain ⟨k, rest, rfl, -, chain⟩ := layered.chain nests fun k hk => h.static_callee distinct hf he marked hk
  refine ⟨chain.static, chain.distinct, ?_⟩
  have listed : (k :: rest).map FunctionDef.id ⊆ (v.allFunctions ++ Builtin.methods).map FunctionDef.id :=
    List.map_subset _ fun l hl => List.mem_append.mpr (chain.known l hl)
  have short := (List.subperm_of_subset chain.distinct listed).length_le
  rwa [List.length_map, List.length_map, List.length_append] at short

end SourceUnit

/-- In an accepted program, calls in the circuit lead no deeper than there are functions. -/
theorem process_inlining_bounded {u : SourceUnit} {next : Nat} {o : Options} {t : Transcript} {p : Progress}
    (distinct : u.numbers.Nodup) (fresh : u.Unvisited) (h : (u.process next o .all t).2 = .ok p) :
    ∀ f ∈ p.unit.allFunctions, ∀ e ∈ f.bodyExprs, e.info.privately = true → ∀ fs, p.unit.Nests e fs →
      (∀ k ∈ fs, k.facts.staticBody = true) ∧ (fs.map FunctionDef.id).Nodup ∧
        fs.length ≤ p.unit.allFunctions.length + Builtin.methods.length :=
  fun _ hf _ he marked _ nests => (SourceUnit.process_accepted h).nests distinct fresh hf he marked nests

/-! ## Calls that look like casts -/

open SplitM

section Failing

variable {α β : Type} {k : SplitContext} {w : Workspace} {err : Error}

/-- The activity ends with the error, wherever it starts. -/
def SplitM.Fails (err : Error) (x : SplitM α) : Prop := ∀ k w, (outcome k x w).1 = .error err

theorem SplitM.Fails.throw : Fails err (throw err : SplitM α) := fun _ _ => rfl

theorem SplitM.Fails.bind {x : SplitM α} {f : α → SplitM β} (h : Fails err x) : Fails err (x >>= f) := by
  intro k w
  have failed := h k w
  rw [outcome_bind]
  generalize outcome k x w = r at failed ⊢
  obtain ⟨_, v⟩ := r
  cases failed
  rfl

theorem SplitM.Fails.after {x : SplitM α} {f : α → SplitM β} (ends : ∀ k w, ∃ a v, Runs k x w a v)
    (h : ∀ a, Fails err (f a)) : Fails err (x >>= f) := by
  intro k w
  obtain ⟨a, v, run⟩ := ends k w
  rw [outcome_bind, run]
  exact h a k v

theorem SplitM.Fails.indented {name : String} {x : SplitM α} (h : Fails err x) : Fails err (indented name x) :=
  .after (fun _ w => ⟨_, w, runs_circuit.mpr ⟨rfl, rfl⟩⟩) fun _ => h.bind

end Failing

namespace Splitter

/-- The activities that refer to these. -/
def deeper (t : Splitter) : Splitter :=
  ⟨t.publicStep, t.privateStep, fun results c b => b.carryOut t results c none false⟩

/-- Activities that may refer to each other so deep and fail with the error where they have to go deeper. -/
def failing (err : Error) : Nat → Splitter
  | 0 => ⟨fun _ => throw err, fun _ => throw err, fun _ _ _ => throw err⟩
  | n + 1 => (failing err n).deeper

theorem bounded_eq (n : Nat) : bounded n = failing .undefinedState n := by
  induction n with
  | zero => rfl
  | succ n ih => rw [bounded, failing, ih]; rfl

/-- The activity never ends: however deep the activities may refer to each other, they have to go deeper. -/
def Endless {α : Type} (activity : Splitter → SplitM α) : Prop := ∀ err n, Fails err (activity (failing err n))

end Splitter

namespace Expr

open Splitter

variable {i : Info} {e : Expr}

/-- A public call that looks like a cast and has an argument that is evaluated in the circuit. -/
def isCircular : Expr → Bool
  | .call i f as o k => (Expr.call i f as o k).isCastCall && !i.privately &&
    (Expr.call i f as o k).checkedType.isPublic && ((as.head?).map (·.info.privately)).getD false
  | _ => false

theorem endless_circular (h : e.isCircular = true) : Endless (·.publicly e) := by
  cases e with
  | call i f as o k =>
    simp only [isCircular, Bool.and_eq_true, Bool.not_eq_true'] at h
    obtain ⟨⟨⟨cast, outside⟩, shown⟩, inside⟩ := h
    generalize whole : Expr.call i f as o k = e at cast shown
    have everybody : e.checkedType.privacy.label? = some .all := by
      unfold AnnTy.isPublic at shown
      cases hp : e.checkedType.privacy with
      | all => rfl
      | _ => rw [hp] at shown; cases shown
    intro err n
    induction n with
    | zero => exact .throw
    | succ n ih =>
      have input : Fails err ((failing err n).input e) := ih.bind
      have output : Fails err ((failing err n).output e .all e.checkedType.hom) := by
        unfold output
        have visible : (e.circuitValue?.isSome || e.checkedType.isPrivate || e.info.privately) = false := by
          subst whole
          simp [circuitValue?, AnnTy.isPrivate, shown, info, outside]
        rw [visible]
        exact input.bind
      have evaluated : Fails err ((failing err n).evaluateOwned e e.checkedType.hom) := by
        unfold evaluateOwned
        rw [everybody]
        exact output.indented
      show Fails err ((failing err n).publicStep e)
      subst whole
      unfold publicStep
      cases f with
      | operator => cases cast
      | _ =>
        dsimp only
        rw [if_pos cast, if_pos inside]
        exact evaluated
  | _ => cases h

theorem endless_cast {t : Ty} {b : Bool} (outside : i.privately = false) (h : Endless (·.publicly e)) :
    Endless (·.publicly (.cast i t e b)) := by
  intro err n
  cases n with
  | zero => exact .throw
  | succ n =>
    show Fails err ((failing err n).publicStep _)
    unfold publicStep
    dsimp only
    rw [outside, if_neg Bool.false_ne_true]
    exact (h err n).bind

/-- A public value that enters the circuit. -/
theorem endless_reclassify {m : ReclassifyForm} {p : Expr} {hom : Option Hom}
    (plain : (Expr.reclassify i m e p hom).checkedType.isCipher = false) (outside : e.info.privately = false)
    (shown : e.checkedType.isPublic = true) (h : Endless (·.publicly e)) :
    Endless (·.privately (.reclassify i m e p hom)) := by
  intro err n
  cases n with
  | zero => exact .throw
  | succ n =>
    show Fails err ((failing err n).privateStep _)
    unfold privateStep privateReclassify
    dsimp only
    rw [plain, outside, shown, if_neg Bool.false_ne_true, if_neg Bool.false_ne_true, Bool.not_true,
      if_neg Bool.false_ne_true]
    have input : Fails err ((failing err n).input e) := (h err n).bind
    exact input.bind

end Expr

/-- A public value enters the circuit that is a cast of such a call. -/
def Expr.admitsCircular : Expr → Bool
  | .reclassify i m (.cast j t e b) p h =>
    !(Expr.reclassify i m (.cast j t e b) p h).checkedType.isCipher && !j.privately &&
      (Expr.cast j t e b).checkedType.isPublic && e.isCircular
  | _ => false

theorem Expr.endless_of_admitsCircular {e : Expr} (h : e.admitsCircular = true) : Splitter.Endless (·.privately e) := by
  unfold admitsCircular at h
  split at h
  · simp only [Bool.and_eq_true, Bool.not_eq_true'] at h
    obtain ⟨⟨⟨plain, outside⟩, shown⟩, circular⟩ := h
    exact endless_reclassify plain outside shown (endless_cast outside (endless_circular circular))
  · cases h

/-- A number is added to itself, but the second time it is shown to everybody first and converted to an enum and back. -/
def picking : SourceUnit :=
  let word : AnnTy := (Ty.integer false (.ofBits 8)).mine
  let revealed : Expr := .reclassify (.numbered 130) .reveal (.nameAt 131 "a") (.all (.numbered 132)) none
  let number : Expr :=
    .cast (.numbered 133) (.integer false (.ofBits 8)) (.callAt 134 (.nameAt 135 "E") [revealed]) false
  let sum : Expr := .applyAt 120 .add
    [.nameAt 122 "a", .reclassify (.numbered 123) .reveal number (.me (.numbered 124)) none]
  let u := SourceUnit.sketch 100 "Picking" [] [
    .sketch 101 "run" "public" [.sketch 102 word "x"] [
      .declareAt 103 word "y" (.applyAt 110 .add [.callAt 112 (.nameAt 113 "pick") [.nameAt 114 "x"], .literalAt 115 1])],
    { FunctionDef.sketch 104 "pick" "internal" [.sketch 105 word "a"] [.ret default (some sum)] with
      returns := [⟨106, [], word, none, none, none⟩], modifiers := ["internal", "pure"] }]
  { u with contracts := u.contracts.map fun c =>
    { c with enums := [⟨107, "E", [⟨108, "A", none⟩, ⟨109, "B", none⟩], none⟩] } }

/-- The sum is computed by a call in the circuit. -/
theorem picking_inlining_bounded : ∃ p, (picking.process 140 .default .all .empty).2 = .ok p ∧
    (∃ f ∈ p.unit.allFunctions, ∃ e ∈ f.bodyExprs, e.info.privately = true ∧ ∃ k, p.unit.Nests e [k]) ∧
    ∀ f ∈ p.unit.allFunctions, ∀ e ∈ f.bodyExprs, e.info.privately = true → ∀ fs, p.unit.Nests e fs →
      (∀ k ∈ fs, k.facts.staticBody = true) ∧ (fs.map FunctionDef.id).Nodup ∧
        fs.length ≤ p.unit.allFunctions.length + Builtin.methods.length := by
  obtain ⟨p, hp, calls⟩ := exists_ok_of_any (x := (picking.process 140 .default .all .empty).2)
    (p := fun p => p.unit.allFunctions.any fun f => f.bodyExprs.any fun e =>
      e.info.privately && (p.unit.symbols.calleeOf? e).isSome) (by decide +kernel)
  obtain ⟨f, hf, calls⟩ := List.any_eq_true.mp calls
  obtain ⟨e, he, call⟩ := List.any_eq_true.mp calls
  obtain ⟨marked, found⟩ := (Bool.and_eq_true _ _).mp call
  obtain ⟨k, hk⟩ := Option.isSome_iff_exists.mp found
  exact ⟨p, hp, ⟨f, hf, e, he, marked, k, .call hk⟩, process_inlining_bounded (by decide) (by decide) hp⟩

/-- The operation has no meaning on its input, or the activities would have to refer to each other too deep. -/
def Error.isUndefined : Error → Bool
  | .undefinedState => true
  | .fault .. | .staged .. | .defect _ | .assertion | .divisionByZero | .badValue _ | .missing _ | .unwritten _
  | .noSourceUnit => false

/-- The program is accepted, but the result of the called function cannot be computed in a circuit: its value is asked for
without end. The compiler gives up. -/
theorem picking_endless : (∃ p, (picking.process 140 .default .all .empty).2 = .ok p ∧
    ∃ f ∈ p.unit.allFunctions, ∃ e ∈ f.bodyExprs, e.info.privately = true ∧ Splitter.Endless (·.privately e)) ∧
    (picking.compile 140 .default .empty).2 = .error .undefinedState := by
  obtain ⟨p, hp, circular⟩ := exists_ok_of_any (x := (picking.process 140 .default .all .empty).2)
    (p := fun p => p.unit.allFunctions.any fun f => f.bodyExprs.any fun e => e.info.privately && e.admitsCircular)
    (by decide +kernel)
  obtain ⟨f, hf, circular⟩ := List.any_eq_true.mp circular
  obtain ⟨e, he, circular⟩ := List.any_eq_true.mp circular
  obtain ⟨marked, admits⟩ := (Bool.and_eq_true _ _).mp circular
  refine ⟨⟨p, hp, f, hf, e, he, marked, Expr.endless_of_admitsCircular admits⟩, ?_⟩
  have stopped : (tryCatch ((picking.compile 140 .default .empty).2.map fun _ => false) fun e =>
      .ok e.isUndefined).toOption = some true := by decide +kernel
  cases result : (picking.compile 140 .default .empty).2 with
  | ok =>
    rw [result] at stopped
    cases stopped
  | error e =>
    rw [result] at stopped
    cases e <;> first | rfl | cases stopped

end Shroud
