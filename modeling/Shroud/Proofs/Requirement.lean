import Shroud.Proofs.CallGraph
import Shroud.Proofs.Marking
import Shroud.Proofs.Sketch

/-!
# Functions that need a proof

A function needs a proof if private code stands in its body or in the body of a function that it reaches. Two passes
decide about this, each on its own: placing marks the expressions that are evaluated in the circuit, and the search for
private code decides which functions need a proof.

**Overlooked.** The search knows nothing of if statements with a private condition and of conversions to a private
enum, which placing moves into the circuit. The two passes agree on a function exactly if it needs a proof wherever
such code is reached (`process_provedAsMarked_iff`).
-/

namespace Shroud

/-! ## What the passes see of a node -/

/-- The expression converts a value to a private enum. -/
def Expr.convertsPrivately (e : Expr) : Bool := e.isCastCall && e.checkedType.isPrivate

namespace Node

/-- The search for private code finds the node. -/
def isPrivateCode : Node → Bool
  | .expr e => e.isPrivateCode
  | _ => false

/-- The node is moved into the circuit, but the search for private code does not find it. -/
def isOverlooked : Node → Bool
  | .expr e => e.convertsPrivately
  | .stmt s => s.forces
  | _ => false

theorem forces_eq (n : Node) : n.forces = (n.isPrivateCode || n.isOverlooked) := by
  cases n <;> rfl

theorem forcing_eq (ns : List Node) : forcing ns = (ns.any isPrivateCode || ns.any isOverlooked) := by
  unfold forcing
  induction ns with
  | nil => rfl
  | cons n ns ih =>
    rw [List.any_cons, List.any_cons, List.any_cons, ih, forces_eq]
    ac_rfl

theorem any_isPrivateCode (ns : List Node) : ns.any isPrivateCode = (exprs ns).any Expr.isPrivateCode := by
  induction ns with
  | nil => rfl
  | cons n ns ih => cases n <;> simp_all [isPrivateCode, exprs]

/-- All that the passes see of a node. -/
def look (n : Node) : Bool × Bool × Bool × Bool := (n.isMarked, n.isPrivateCode, n.isOverlooked, n.isParam)

end Node

theorem Block.hasPrivateCode_eq (b : Block) : b.hasPrivateCode = b.nodes.any Node.isPrivateCode := by
  have visited : b.hasPrivateCode = (b.subexprsInPlace.map Prod.snd).any Expr.isPrivateCode := by
    rw [List.any_map]
    rfl
  rw [visited, Block.subexprsInPlace_exprs, Node.any_isPrivateCode]

/-! ## Inlining changes nothing of it -/

section Inlining

variable (s : Symbols)

theorem Expr.markInlined_alike (e : Expr) : e.Alike (e.markInlined s) := by
  cases e <;> exact ⟨rfl, rfl, rfl, rfl, rfl, rfl⟩

theorem Expr.isPrivateCode_call (i : Info) (f : Expr) (as : List Expr) (o : Int) (k : Option CircuitVar) :
    (Expr.call i f as o k).isPrivateCode = f.isPrivateOp := by
  cases f <;> rfl

theorem Expr.look_markInlined (e : Expr) : (Node.expr (e.markInlined s)).look = (Node.expr e).look := by
  cases e with
  | call i f as o k =>
    have alike := f.markInlined_alike s
    have cast : (Expr.call i (f.markInlined s) as o k).isCastCall = (Expr.call i f as o k).isCastCall := by
      simp only [Expr.isCastCall, alike.isLocation, alike.target?]
    refine Prod.ext rfl (Prod.ext ?_ (Prod.ext (congrArg (· && _) cast) rfl))
    show ((Expr.call i f as o k).markInlined s).isPrivateCode = _
    rw [Expr.markInlined, Expr.isPrivateCode_call, alike.isPrivateOp, ← Expr.isPrivateCode_call i f as o k]
    rfl
  | cast i t e b => exact Prod.ext rfl (Prod.ext (e.markInlined_alike s).isPrivate rfl)
  | _ => rfl

theorem Info.typeNodes_inlined (i : Info) (as : List Expr) :
    ({ i with inlined := as.any (·.info.inlined) } : Info).typeNodes = i.typeNodes := by
  obtain ⟨_, _, t, _, _⟩ := i
  cases t <;> rfl

mutual

theorem Expr.looks_markInlined : ∀ e : Expr, (e.markInlined s).nodes.map Node.look = e.nodes.map Node.look
  | .call i f as o k => by
    rw [Expr.nodes, List.map_append, List.map_cons, ← Expr.look_markInlined s, ← f.looks_markInlined,
      ← Expr.allLooks_markInlined as]
    rw [← List.map_cons, ← List.map_append]
    rfl
  | .new i as => by
    rw [Expr.nodes, List.map_append, List.map_cons, ← Expr.look_markInlined s, ← Expr.allLooks_markInlined as]
    rw [← List.map_cons, ← List.map_append, ← Info.typeNodes_inlined i (Expr.markAllInlined s as)]
    rfl
  | .cast i t e b => by
    rw [Expr.nodes, List.map_append, List.map_cons, ← Expr.look_markInlined s, ← e.looks_markInlined]
    rw [← List.map_cons, ← List.map_append]
    rfl
  | .arrayLit i vs k => by
    rw [Expr.nodes, List.map_cons, ← Expr.look_markInlined s, ← Expr.allLooks_markInlined vs, ← List.map_cons]
    rfl
  | .tuple i es => by
    rw [Expr.nodes, List.map_cons, ← Expr.look_markInlined s, ← Expr.allLooks_markInlined es, ← List.map_cons]
    rfl
  | .member i e n t => by
    rw [Expr.nodes, List.map_append, List.map_cons, ← Expr.look_markInlined s, ← e.looks_markInlined]
    rw [← List.map_cons, ← List.map_append]
    rfl
  | .index i e k t => by
    rw [Expr.nodes, List.map_append, List.map_cons, ← Expr.look_markInlined s, ← e.looks_markInlined,
      ← k.looks_markInlined]
    rw [← List.map_cons, ← List.map_append]
    rfl
  | .reclassify i m e p h => by
    rw [Expr.nodes, List.map_append, List.map_cons, ← Expr.look_markInlined s, ← e.looks_markInlined,
      ← p.looks_markInlined]
    rw [← List.map_cons, ← List.map_append]
    rfl
  | .operator .. | .boolLit .. | .numLit .. | .ident .. | .me _ | .all _ => rfl

theorem Expr.allLooks_markInlined : ∀ es : List Expr,
    (Expr.nodesAll (Expr.markAllInlined s es)).map Node.look = (Expr.nodesAll es).map Node.look
  | [] => rfl
  | e :: es => by
    rw [Expr.nodesAll, List.map_append, ← e.looks_markInlined, ← Expr.allLooks_markInlined es, ← List.map_append]
    rfl

end

theorem Stmt.forces_markInlined (t : Stmt) : (t.mapExprs (Expr.markInlined s)).forces = t.forces := by
  cases t with
  | ifThen i c t e =>
    rw [Stmt.mapExprs_ifThen]
    exact (c.markInlined_alike s).isPrivate
  | forLoop i a c u b =>
    rw [Stmt.mapExprs_forLoop]
    rfl
  | ret i e =>
    rw [Stmt.mapExprs_ret]
    rfl
  | declare i v e =>
    rw [Stmt.mapExprs_declare]
    rfl
  | _ => rfl

theorem Expr.forces_markInlined (e : Expr) : (e.markInlined s).forces = e.forces := by
  have look := e.look_markInlined s
  have code : (Node.expr (e.markInlined s)).isPrivateCode = (Node.expr e).isPrivateCode := congrArg (·.2.1) look
  have overlooked : (Node.expr (e.markInlined s)).isOverlooked = (Node.expr e).isOverlooked := congrArg (·.2.2.1) look
  show (Node.expr (e.markInlined s)).forces = (Node.expr e).forces
  rw [Node.forces_eq, Node.forces_eq, code, overlooked]

theorem Block.looks_markInlined (b : Block) :
    (b.mapExprs (Expr.markInlined s)).nodes.map Node.look = b.nodes.map Node.look := by
  rw [← List.filterMap_eq_map]
  refine Block.filterMap_mapExprs _ (fun e => ?_) (fun _ => rfl) (fun t => ?_) b
  · rw [List.filterMap_eq_map, Expr.looks_markInlined]
  · show some (false, false, (t.mapExprs (Expr.markInlined s)).forces, false) = _
    rw [t.forces_markInlined]
    rfl

end Inlining

/-! ## Marks agree in accepted programs -/

namespace FunctionDef

/-- Some expression of the function is evaluated in the circuit. -/
def evaluatesPrivately (f : FunctionDef) : Bool := Node.marked f.body.nodes

/-- The function has private code that the search for private code does not find. -/
def hasOverlookedCode (f : FunctionDef) : Bool := f.body.nodes.any Node.isOverlooked

/-- No types of functions are written in the body. -/
def isFirstOrder (f : FunctionDef) : Bool := Node.firstOrder f.body.nodes

/-- If no types of functions are written in the body, expressions are marked where the passes see private code. -/
def MarkedWell (f : FunctionDef) : Prop :=
  f.isFirstOrder = true → (f.evaluatesPrivately = true ↔ f.body.hasPrivateCode = true ∨ f.hasOverlookedCode = true)

theorem markedWell_of_agree {f : FunctionDef} (h : Node.Agree false f.body.nodes) : f.MarkedWell := by
  intro hf
  have forced : Node.forcing f.body.nodes = true ↔ f.body.hasPrivateCode = true ∨ f.hasOverlookedCode = true := by
    rw [Node.forcing_eq, ← Block.hasPrivateCode_eq, Bool.or_eq_true]
    rfl
  rw [← forced]
  exact ⟨h.forced hf rfl, h.marks hf⟩

/-- What the passes see of a function depends on the looks of its nodes. -/
theorem MarkedWell.of_looks {f g : FunctionDef} (h : g.body.nodes.map Node.look = f.body.nodes.map Node.look)
    (hf : f.MarkedWell) : g.MarkedWell ∧ g.body.hasPrivateCode = f.body.hasPrivateCode := by
  have see (p : Bool × Bool × Bool × Bool → Bool) :
      (g.body.nodes.any fun n => p n.look) = f.body.nodes.any fun n => p n.look := by
    have mapped := congrArg (List.any · p) h
    rwa [List.any_map, List.any_map] at mapped
  have code : g.body.hasPrivateCode = f.body.hasPrivateCode := by
    rw [Block.hasPrivateCode_eq, Block.hasPrivateCode_eq]
    exact see (·.2.1)
  refine ⟨fun hg => ?_, code⟩
  have first : g.isFirstOrder = f.isFirstOrder := congrArg not (see (·.2.2.2))
  have marks : g.evaluatesPrivately = f.evaluatesPrivately := see (·.1)
  have overlooked : g.hasOverlookedCode = f.hasOverlookedCode := see (·.2.2.1)
  rw [marks, code, overlooked]
  exact hf (first ▸ hg)

end FunctionDef

namespace SourceUnit

theorem place_markedWell {u v : SourceUnit} {b : Bool} (h : u.place b = (v, none)) :
    ∀ f ∈ v.allFunctions, f.MarkedWell := by
  have related := place_related (R := fun _ g => g.MarkedWell)
    (fun f t => (f.body.place_agrees t false).imp fun body =>
      FunctionDef.markedWell_of_agree (f := { f with body := body })) h
  intro f hf
  obtain ⟨_, _, well⟩ := exists_mem_of_forall₂_right (allFunctions_pointwise related) hf
  exact well

end SourceUnit

/-! ## The search for private code -/

/-- A function is marked as needing a proof. -/
def Symbols.needs (s : Symbols) (i : Nat) : Bool := ((s.function? i).map (·.facts.needsProof)).getD false

theorem Builtin.methods_needsProof {f : FunctionDef} (h : f ∈ Builtin.methods) : f.facts.needsProof = false := by
  simp only [Builtin.methods, List.mem_cons, List.not_mem_nil, or_false] at h
  rcases h with rfl | rfl <;> rfl

namespace SourceUnit

/-- The function and the functions that it reaches. -/
def reached (u : SourceUnit) (f : FunctionDef) : List FunctionDef :=
  f :: u.allFunctions.filter fun g => f.facts.calls.contains g.id

theorem mem_reached {u : SourceUnit} {f g : FunctionDef} :
    g ∈ u.reached f ↔ g = f ∨ g ∈ u.allFunctions ∧ g.id ∈ f.facts.calls := by
  simp [reached]

/-- The function or one that it reaches is marked as needing a proof. -/
def ReachesNeed (u : SourceUnit) (f : FunctionDef) : Prop := ∃ g ∈ u.reached f, g.facts.needsProof = true

/-- The marks lie between those of the functions themselves and those of all functions that they reach. -/
structure BetweenNeeds (u : SourceUnit) (s : Symbols) : Prop where
  own : ∀ g ∈ u.allFunctions, g.facts.needsProof = true → s.needs g.id = true
  reached : ∀ i, s.needs i = true → ∃ g ∈ u.allFunctions, g.id = i ∧ u.ReachesNeed g

theorem betweenNeeds_symbols {u : SourceUnit} (distinct : u.numbers.Nodup) : u.BetweenNeeds u.symbols := by
  constructor
  · intro g hg needs
    unfold Symbols.needs
    rw [function?_own distinct hg]
    exact needs
  · intro i hi
    unfold Symbols.needs at hi
    cases hg : u.symbols.function? i with
    | none =>
      rw [hg] at hi
      cases hi
    | some g =>
      rw [hg] at hi
      obtain ⟨own | builtin, rfl⟩ := function?_found hg
      · exact ⟨g, own, rfl, g, mem_reached.mpr (.inl rfl), hi⟩
      · rw [Option.map_some, Option.getD_some, Builtin.methods_needsProof builtin] at hi
        cases hi

/-- From such marks, one look at the functions that a function reaches is enough. -/
theorem BetweenNeeds.any_calls {u : SourceUnit} {s : Symbols} (h : u.BetweenNeeds s) (closed : u.CallsClosed)
    {f : FunctionDef} (hf : f ∈ u.allFunctions) :
    f.facts.needsProof = true ∨ (f.facts.calls.any s.needs) = true ↔ u.ReachesNeed f := by
  constructor
  · rintro (needs | called)
    · exact ⟨f, mem_reached.mpr (.inl rfl), needs⟩
    · obtain ⟨i, hi, needs⟩ := List.any_eq_true.mp called
      obtain ⟨g, hg, rfl, k, hk, needs⟩ := h.reached i needs
      refine ⟨k, mem_reached.mpr ?_, needs⟩
      rcases mem_reached.mp hk with rfl | ⟨hk, called⟩
      · exact .inr ⟨hg, hi⟩
      · exact .inr ⟨hk, closed f hf g hg hi called⟩
  · rintro ⟨g, hg, needs⟩
    rcases mem_reached.mp hg with rfl | ⟨hg, called⟩
    · exact .inl needs
    · exact .inr (List.any_eq_true.mpr ⟨g.id, called, h.own g hg needs⟩)

theorem BetweenNeeds.setFunction {u : SourceUnit} {s : Symbols} (h : u.BetweenNeeds s) (distinct : u.numbers.Nodup)
    {f : FunctionDef} {facts : FunctionFacts} (hf : f ∈ u.allFunctions) (needs : facts.needsProof = true ↔ u.ReachesNeed f) :
    u.BetweenNeeds (s.setFunction { f with facts := facts }) := by
  have cases (i : Nat) : (s.setFunction { f with facts := facts }).needs i = s.needs i ∨
      i = f.id ∧ (s.setFunction { f with facts := facts }).needs i = facts.needsProof := by
    unfold Symbols.needs
    rw [Symbols.function?_setFunction]
    split
    · rename_i hi
      cases s.function? i with
      | none => exact .inl rfl
      | some g => exact .inr ⟨hi, rfl⟩
    · exact .inl rfl
  constructor
  · intro g hg own
    rcases cases g.id with same | ⟨hi, new⟩
    · rw [same]
      exact h.own g hg own
    · rw [new, needs, ← eq_of_id distinct hg hf hi]
      exact ⟨g, mem_reached.mpr (.inl rfl), own⟩
  · intro i hi
    rcases cases i with same | ⟨rfl, new⟩
    · rw [same] at hi
      exact h.reached i hi
    · rw [new] at hi
      exact ⟨f, hf, rfl, needs.mp hi⟩

/-- A relation between functions and their places goes over to what they reach. -/
theorem exists_reached_iff {R : FunctionDef → FunctionDef → Prop} {u v : SourceUnit}
    (h : List.Forall₂ R u.allFunctions v.allFunctions) (same : ∀ f g, R f g → SameCalls f g)
    {P Q : FunctionDef → Prop} (hPQ : ∀ f ∈ u.allFunctions, ∀ g, R f g → (P f ↔ Q g)) {f g : FunctionDef}
    (hf : f ∈ u.allFunctions) (hfg : R f g) : (∃ k ∈ u.reached f, P k) ↔ ∃ k ∈ v.reached g, Q k := by
  have calls := (same f g hfg).calls
  constructor
  · rintro ⟨k, hk, hP⟩
    rcases mem_reached.mp hk with rfl | ⟨hk, called⟩
    · exact ⟨g, mem_reached.mpr (.inl rfl), (hPQ k hf g hfg).mp hP⟩
    · obtain ⟨k', hk', hR⟩ := exists_mem_of_forall₂_left h hk
      refine ⟨k', mem_reached.mpr (.inr ⟨hk', ?_⟩), (hPQ k hk k' hR).mp hP⟩
      rwa [(same k k' hR).id, calls]
  · rintro ⟨k, hk, hQ⟩
    rcases mem_reached.mp hk with rfl | ⟨hk, called⟩
    · exact ⟨f, mem_reached.mpr (.inl rfl), (hPQ f hf k hfg).mpr hQ⟩
    · obtain ⟨k', hk', hR⟩ := exists_mem_of_forall₂_right h hk
      refine ⟨k', mem_reached.mpr (.inr ⟨hk', ?_⟩), (hPQ k' hk' k hR).mpr hQ⟩
      rwa [(same k' k hR).id, calls] at called

/-- The second function differs from the first in its facts, but not in its calls. -/
structure Refined (f g : FunctionDef) : Prop where
  code : g = { f with facts := g.facts }
  calls : g.facts.calls = f.facts.calls

theorem Refined.sameCalls {f g : FunctionDef} (h : Refined f g) : SameCalls f g :=
  ⟨by rw [h.code], h.calls⟩

theorem Refined.trans {f g k : FunctionDef} (h₁ : Refined f g) (h₂ : Refined g k) : Refined f k :=
  ⟨by rw [h₂.code, h₁.code], h₂.calls.trans h₁.calls⟩

/-- After the search, a function needs a proof exactly if it reaches private code. -/
theorem markProofs_needsProof {u : SourceUnit} (distinct : u.numbers.Nodup) (closed : u.CallsClosed)
    (fresh : ∀ f ∈ u.allFunctions, f.facts.needsProof = false) :
    List.Forall₂ (fun f g => Refined f g ∧
      (g.facts.needsProof = true ↔ ∃ k ∈ u.reached f, k.body.hasPrivateCode = true))
      u.allFunctions u.markProofs.allFunctions := by
  unfold markProofs
  extract_lets own
  -- at first a function needs a proof for its own code
  have first : u.Pointwise (fun f g => Refined f g ∧
      g.facts.needsProof = (f.facts.needsProof || f.body.hasPrivateCode)) own :=
    mapFacts_pointwise (fun _ f => ⟨⟨rfl, rfl⟩, rfl⟩) u
  have distinct' : own.numbers.Nodup := (mapFacts_numbers u).numbers ▸ distinct
  have closed' : own.CallsClosed := closed.of_sameCalls (first.mono fun _ _ h => h.1.sameCalls)
  -- then also for the functions that it reaches
  have second : own.Pointwise (fun g k => k = { g with facts := k.facts } ∧ k.facts.calls = g.facts.calls ∧
      (k.facts.needsProof = true ↔ own.ReachesNeed g)) _ := mapFacts_keeping
    (R := fun g facts => facts.calls = g.facts.calls ∧ (facts.needsProof = true ↔ own.ReachesNeed g))
    (I := own.BetweenNeeds) (F := fun symbols f => if !f.facts.needsProof && f.facts.calls.any symbols.needs then
      { f.facts with needsProof := true, needsProofExternally := true } else f.facts) (fun g hg s hs => by
      have needs := hs.any_calls closed' hg
      have marked : (if !g.facts.needsProof && g.facts.calls.any s.needs then
          { g.facts with needsProof := true, needsProofExternally := true } else g.facts).needsProof = true ↔
          own.ReachesNeed g := by
        rw [← needs]
        cases own : g.facts.needsProof <;> cases called : g.facts.calls.any s.needs <;> simp [own]
      refine ⟨⟨?_, marked⟩, hs.setFunction distinct' hg marked⟩
      split <;> rfl) (betweenNeeds_symbols distinct')
  have placed := (List.forall₂_and_left _ _).mpr ⟨fun f hf => hf, allFunctions_pointwise first⟩
  refine forall₂_comp (fun f g k h₁ h₂ => ?_) placed (allFunctions_pointwise second)
  obtain ⟨hf, hfg⟩ := h₁
  refine ⟨hfg.1.trans ⟨h₂.1, h₂.2.1⟩, h₂.2.2.trans ?_⟩
  refine (exists_reached_iff (allFunctions_pointwise first) (fun _ _ h => h.1.sameCalls) (fun x hx y hxy => ?_) hf
    hfg).symm
  rw [hxy.2, fresh x hx, Bool.false_or]

end SourceUnit

/-! ## Accepted programs -/

namespace SourceUnit

/-- Nothing is known about the functions yet. -/
structure Fresh (u : SourceUnit) : Prop where
  distinct : u.numbers.Nodup
  uncalled : u.Uncalled
  unproved : ∀ f ∈ u.allFunctions, f.facts.needsProof = false

/-- The second function is the first with calls that are proved along marked. -/
structure Inlined (f g : FunctionDef) : Prop where
  id : g.id = f.id
  facts : g.facts = f.facts
  looks : g.body.nodes.map Node.look = f.body.nodes.map Node.look

theorem markInlined_inlined (u : SourceUnit) : u.Pointwise Inlined u.markInlined := by
  have bodies := mapFunctions_pointwise (R := Inlined) (σ := Unit)
    (f := fun _ f _ => ({ f with body := f.body.mapExprs (Expr.markInlined u.symbols) }, ()))
    (fun _ f _ => ⟨rfl, rfl, f.body.looks_markInlined u.symbols⟩) u ()
  refine List.forall₂_map_right_iff.mpr (bodies.imp fun c d h => ?_)
  exact ⟨h.id, h.name, h.constructors, h.functions⟩

/-- Accepted programs just before the search for private code. -/
theorem Accepted.placed {u v : SourceUnit} {next : Nat} {o : Options} (fresh : u.Fresh) (h : u.Accepted next o v) :
    ∃ w : SourceUnit, w.numbers.Nodup ∧ w.CallsClosed ∧ (∀ f ∈ w.allFunctions, f.facts.needsProof = false) ∧
      (∀ f ∈ w.allFunctions, f.MarkedWell) ∧ v = w.markProofs.markInlined := by
  have numbers := h.numbers
  cases h with
  | @intro linked aliased called accessed placed n link _ aliases calls accesses _ _ places =>
  rw [markInlined_numbers, markProofs_numbers] at numbers
  have last : (accessed.check.unit.markCapable.place o.foldConstants.holds).1 = placed := congrArg Prod.fst places
  have earlier {R : FunctionDef → FunctionDef → Prop} (hR : Coarse R) : u.Pointwise R aliased :=
    (link_pointwise hR link).trans hR.trans (markAliases_pointwise hR aliases)
  have later {R : FunctionDef → FunctionDef → Prop} (hR : Coarse R)
      (capable : ∀ (f : FunctionDef) b, R f { f with facts := { f.facts with canBePrivate := b } }) :
      called.Pointwise R placed := by
    rw [← last]
    exact (((markAccesses_pointwise hR accesses).trans hR.trans (check_pointwise hR _)).trans hR.trans
      (markCapable_pointwise hR capable _)).trans hR.trans (place_pointwise hR _ _)
  refine ⟨placed, numbers ▸ fresh.distinct, ?_, ?_, place_markedWell places, rfl⟩
  · have distinct : aliased.numbers.Nodup := by
      rw [markAliases_numbers aliases, link_numbers link]
      exact fresh.distinct
    exact (markCalls_closed distinct (fresh.uncalled.of_sameCalls (earlier sameCalls_coarse)) calls).of_sameCalls
      (later sameCalls_coarse fun _ _ => ⟨rfl, rfl⟩)
  · have keeps : u.Keeps placed :=
      ((earlier FunctionDef.sameMarks_coarse).trans (fun _ _ _ => .trans) (markCalls_keeps calls)).trans
        (fun _ _ _ => .trans) (later FunctionDef.sameMarks_coarse fun _ _ => ⟨⟨rfl, rfl, rfl⟩, rfl, rfl⟩)
    intro f hf
    obtain ⟨g, hg, same⟩ := exists_mem_of_forall₂_right (allFunctions_pointwise keeps) hf
    rw [same.needsProof, fresh.unproved g hg]

/-- In an accepted program marks agree with private code, and a function needs a proof exactly if it reaches private
code that the search finds. -/
theorem Accepted.needsProof_iff {u v : SourceUnit} {next : Nat} {o : Options} (fresh : u.Fresh)
    (h : u.Accepted next o v) : ∀ f ∈ v.allFunctions, f.MarkedWell ∧
      (f.facts.needsProof = true ↔ ∃ g ∈ v.reached f, g.body.hasPrivateCode = true) := by
  obtain ⟨w, distinct, closed, unproved, well, rfl⟩ := h.placed fresh
  have proved := markProofs_needsProof distinct closed unproved
  have inlined := allFunctions_pointwise w.markProofs.markInlined_inlined
  have whole : List.Forall₂ (fun f g => SameCalls f g ∧ g.body.nodes.map Node.look = f.body.nodes.map Node.look ∧
      (g.facts.needsProof = true ↔ ∃ k ∈ w.reached f, k.body.hasPrivateCode = true))
      w.allFunctions w.markProofs.markInlined.allFunctions := by
    refine forall₂_comp (fun f g k hg hk => ⟨⟨?_, ?_⟩, ?_, ?_⟩) proved inlined
    · rw [hk.id, hg.1.code]
    · rw [hk.facts, hg.1.calls]
    · rw [hk.looks, hg.1.code]
    · rw [hk.facts, hg.2]
  intro f hf
  obtain ⟨g, hg, same, looks, needs⟩ := exists_mem_of_forall₂_right whole hf
  refine ⟨((well g hg).of_looks looks).1, needs.trans ?_⟩
  refine exists_reached_iff whole (fun _ _ h => h.1) (fun x hx y hxy => ?_) hg ⟨same, looks, needs⟩
  rw [((well x hx).of_looks hxy.2.1).2]

end SourceUnit

/-- The function needs a proof exactly if something that it reaches is evaluated in the circuit. -/
def FunctionDef.ProvedAsMarked (u : SourceUnit) (f : FunctionDef) : Prop :=
  f.facts.needsProof = true ↔ ∃ g ∈ u.reached f, g.evaluatesPrivately = true

/-- Which functions of an accepted program need a proof: those that reach private code that the search for it finds. So
the marks on expressions say the same as the mark on a function exactly if it needs a proof wherever it reaches code
that the search overlooks. -/
theorem process_provedAsMarked_iff {u : SourceUnit} {next : Nat} {o : Options} {t : Transcript} {p : Progress}
    (fresh : u.Fresh) (h : (u.process next o .all t).2 = .ok p)
    (firstOrder : ∀ f ∈ p.unit.allFunctions, f.isFirstOrder = true) : ∀ f ∈ p.unit.allFunctions,
    (f.facts.needsProof = true ↔ ∃ g ∈ p.unit.reached f, g.body.hasPrivateCode = true) ∧
    (f.ProvedAsMarked p.unit ↔ ((∃ g ∈ p.unit.reached f, g.hasOverlookedCode = true) → f.facts.needsProof = true)) := by
  intro f hf
  have all := (SourceUnit.process_accepted h).needsProof_iff fresh
  have marks {g : FunctionDef} (hg : g ∈ p.unit.reached f) :
      g.evaluatesPrivately = true ↔ g.body.hasPrivateCode = true ∨ g.hasOverlookedCode = true := by
    have own : g ∈ p.unit.allFunctions := (SourceUnit.mem_reached.mp hg).elim (fun e => e ▸ hf) And.left
    exact (all g own).1 (firstOrder g own)
  refine ⟨(all f hf).2, ?_⟩
  unfold FunctionDef.ProvedAsMarked
  rw [(all f hf).2]
  constructor
  · rintro same ⟨g, hg, overlooked⟩
    exact same.mpr ⟨g, hg, (marks hg).mpr (.inr overlooked)⟩
  · intro needs
    refine ⟨fun ⟨g, hg, code⟩ => ⟨g, hg, (marks hg).mpr (.inl code)⟩, fun ⟨g, hg, marked⟩ => ?_⟩
    rcases (marks hg).mp marked with code | overlooked
    · exact ⟨g, hg, code⟩
    · exact needs ⟨g, hg, overlooked⟩

/-- An internal function that stores a number if a private condition holds. -/
def branching : SourceUnit :=
  let store := Stmt.assign default (.nameAt 110 "x") (.nameAt 111 "y") "" false
  .sketch 100 "Store" [] [.sketch 101 "f" "internal"
    [.sketch 102 Ty.bool.mine "b", .sketch 103 AnnTy.uint.mine "x", .sketch 104 AnnTy.uint.mine "y"]
    [.ifThen default (.nameAt 112 "b") (.ofStmts [store]) none]]

theorem branching_provedAsMarked_iff : ∃ p, (branching.process 120 .default .all .empty).2 = .ok p ∧
    ∀ f ∈ p.unit.allFunctions,
      (f.facts.needsProof = true ↔ ∃ g ∈ p.unit.reached f, g.body.hasPrivateCode = true) ∧
      (f.ProvedAsMarked p.unit ↔
        ((∃ g ∈ p.unit.reached f, g.hasOverlookedCode = true) → f.facts.needsProof = true)) := by
  obtain ⟨p, hp, firstOrder⟩ := exists_ok_of_any (x := (branching.process 120 .default .all .empty).2)
    (p := fun p => p.unit.allFunctions.all FunctionDef.isFirstOrder) (by decide +kernel)
  have fresh : branching.Fresh := ⟨by decide +kernel, by decide, by decide⟩
  exact ⟨p, hp, process_provedAsMarked_iff fresh hp (List.all_eq_true.mp firstOrder)⟩

/-- The branch is evaluated in the circuit, but the function needs no proof. -/
theorem branching_not_provedAsMarked : ∃ p, (branching.process 120 .default .all .empty).2 = .ok p ∧
    ∃ f ∈ p.unit.allFunctions, ¬ f.ProvedAsMarked p.unit := by
  obtain ⟨p, hp, h⟩ := exists_ok_of_any (x := (branching.process 120 .default .all .empty).2)
    (p := fun p => p.unit.allFunctions.any fun f => f.evaluatesPrivately && !f.facts.needsProof) (by decide +kernel)
  obtain ⟨f, hf, marks⟩ := List.any_eq_true.mp h
  rw [Bool.and_eq_true, Bool.not_eq_true'] at marks
  refine ⟨p, hp, f, hf, fun same => ?_⟩
  have needs := same.mpr ⟨f, SourceUnit.mem_reached.mpr (.inl rfl), marks.1⟩
  rw [marks.2] at needs
  cases needs

end Shroud
