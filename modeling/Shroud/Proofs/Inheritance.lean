import Shroud.Proofs.Below
import Shroud.Proofs.Invariants
import Shroud.Proofs.Marking

/-!
# What a mark says about the nodes below

An expression that is evaluated in the circuit takes everything below it along, apart from the keys of index expressions
and public operands of reclassifications. `Node.Inside` says so of a node.

**Moving.** An expression that has to be evaluated in the circuit is moved in with all that is below. This fails at the
first call with side effects, so if it ends well, everything has the mark and no such call is left (`Node.Moved`).

**Halted marks.** The public operand of a reclassification may have side effects. Then it stays outside, and so does the
label, although the reclassification has the mark (`Expr.IsHalted`). Elsewhere a mark is inherited (`Expr.Situated`).

**Triples.** Placing is followed with `Upholds`: the declarations do not change, and nothing is claimed about what
happens after a failure. Whatever is told to be in the circuit must not have side effects; this is the assumption of
`Expr.place_becomes`.
-/

namespace Shroud

/-! ## Calls with side effects -/

theorem Symbols.isEffectful_call (σ : Symbols) (i : Info) (f : Expr) (as : List Expr) (o : Int) (k : Option CircuitVar) :
    σ.isEffectful (.call i f as o k) = (f.isLocation && !(Expr.call i f as o k).isCastCall &&
      ((σ.callee? f).map FunctionDef.hasSideEffects).getD false) := by
  unfold isEffectful callHasEffects
  dsimp only
  cases located : f.isLocation <;> cases cast : (Expr.call i f as o k).isCastCall
  case true.false =>
    cases target : f.target? with
    | none =>
      have missing : σ.callee? f = none := by
        unfold callee?
        rw [target]
        rfl
      rw [missing]
      rfl
    | some r =>
      cases callee : σ.callee? f with
      | some g => rfl
      | none => cases type : σ.type? r with
        | none => simp [type]
        | some t => cases function : t.type.isFunction <;> simp [type, function]
  all_goals rfl

/-- Calls of functions that look alike have the same side effects. -/
theorem Expr.Alike.isEffectful_call (σ : Symbols) {i j : Info} {f g : Expr} {as bs : List Expr} {o p : Int}
    {k l : Option CircuitVar} (h : f.Alike g) :
    σ.isEffectful (.call j g bs p l) = σ.isEffectful (.call i f as o k) := by
  have callee : σ.callee? g = σ.callee? f := by
    unfold Symbols.callee?
    rw [h.target?]
  have cast : (Expr.call j g bs p l).isCastCall = (Expr.call i f as o k).isCastCall := by
    simp only [Expr.isCastCall, h.isLocation, h.target?]
  rw [Symbols.isEffectful_call, Symbols.isEffectful_call, h.isLocation, callee, cast]

namespace Node

/-- The node is no call with side effects. -/
def isHarmless (σ : Symbols) : Node → Bool
  | .expr e => !σ.isEffectful e
  | _ => true

/-- No call below the node has side effects. -/
def Harmless (σ : Symbols) (n : Node) : Prop := n.All parts fun m => m.isHarmless σ = true

/-- The node is an expression that is not evaluated in the circuit. -/
def isOutside : Node → Bool
  | .expr e => !e.info.privately
  | _ => false

/-- Everything that is reached from the node is evaluated in the circuit. -/
def Inside (n : Node) : Prop := n.All openParts fun m => m.isOutside = false

theorem inside_iff {n : Node} : n.Inside ↔ ∀ e, n.Reaches (.expr e) → e.info.privately = true := by
  constructor
  · intro h e he
    simpa [isOutside] using h _ he
  · intro h m hm
    cases m with
    | expr e => simpa [isOutside] using h e hm
    | _ => rfl

end Node

theorem Node.all_exprs {σ : Symbols} {ns : List Node} :
    ((exprs ns).all fun e => !σ.isEffectful e) = true ↔ ∀ n ∈ ns, n.isHarmless σ = true := by
  unfold exprs
  rw [List.all_eq_true]
  constructor
  · intro h n hn
    cases n with
    | expr x => exact h x (List.mem_filterMap.mpr ⟨_, hn, rfl⟩)
    | _ => rfl
  · intro h x hx
    obtain ⟨n, hn, found⟩ := List.mem_filterMap.mp hx
    cases n with
    | expr y =>
      cases found
      exact h _ hn
    | _ => cases found

theorem Expr.isMovable_iff {σ : Symbols} {e : Expr} : e.isMovable σ = true ↔ (Node.expr e).Harmless σ := by
  unfold Node.Harmless
  rw [← Expr.all_nodes]
  exact Node.all_exprs

theorem Block.isMovable_iff {σ : Symbols} {t : Block} :
    t.isMovable σ = true ↔ (Node.stmt (.block t)).Harmless σ := by
  have visited : t.isMovable σ = (Node.exprs t.nodes).all fun e => !σ.isEffectful e := by
    rw [← Block.subexprsInPlace_exprs, List.all_map]
    rfl
  unfold Node.Harmless
  rw [visited, ← Stmt.all_nodes]
  exact Node.all_exprs

/-! ## Marks have no effects -/

namespace Node

variable {σ : Symbols}

/-- Calls with side effects stay such calls when they are marked. -/
theorem harmless_marked (b : Bool) {e : Expr} :
    (Node.expr (e.marked b)).Harmless σ ↔ (Node.expr e).Harmless σ := by
  have all (es : List Expr) :
      Id.run (Expr.bottomUpAll (fun x => pure (x.mapInfo fun i => { i with privately := b })) es) =
        es.map (Expr.marked b) := by
    induction es with
    | nil => rfl
    | cons e es ih => exact congrArg (Expr.marked b e :: ·) ih
  have exprs (es : List Expr) : List.Forall₂ (Like (Expr.marked b)) (es.map Node.expr)
      ((Id.run (Expr.bottomUpAll (fun x => pure (x.mapInfo fun i => { i with privately := b })) es)).map Node.expr) := by
    rw [all]
    exact Like.exprs es
  have shape (e : Expr) :
      List.Forall₂ (Like (Expr.marked b)) (Node.expr e).parts (Node.expr (e.marked b)).parts := by
    cases e with
    | call i f as o k => exact .cons (.expr f) (exprs as)
    | new i as => exact List.rel_append (Like.all_same _) (exprs as)
    | cast i t e c => exact .cons (.same _) (.cons (.expr e) .nil)
    | arrayLit i es c | tuple i es => exact exprs es
    | member i e n r => exact .cons (.expr e) (.cons (.same _) .nil)
    | index i e k r => exact .cons (.expr e) (.cons (.expr k) .nil)
    | reclassify i m e p h => exact .cons (.expr e) (.cons (.expr p) .nil)
    | ident => exact .cons (.same _) .nil
    | _ => exact .nil
  have effects (e : Expr) : σ.isEffectful (e.marked b) = σ.isEffectful e := by
    cases e with
    | call i f as o k => exact (f.marked_alike b).isEffectful_call σ
    | _ => rfl
  refine (Like.all_iff (f := Expr.marked b) (fun n m h => h.steps (fun _ => rfl) shape) (fun n m h => ?_) (.expr e)).symm
  cases h with
  | same | stmt => exact Iff.rfl
  | expr e =>
    show (!σ.isEffectful e) = true ↔ (!σ.isEffectful (e.marked b)) = true
    rw [effects]

end Node

/-! ## What is moved in -/

namespace Node

/-- An expression that is evaluated in the circuit and is no call with side effects. -/
def Drawn (σ : Symbols) : Node → Prop
  | .expr e => e.info.privately = true ∧ σ.isEffectful e = false
  | _ => True

/-- The second node is what moving makes of the first: everything in it is evaluated in the circuit, and all calls with
side effects of the first can be found in it. -/
structure Moved (σ : Symbols) (n m : Node) : Prop where
  drawn : m.All visited (Drawn σ)
  harmless : m.Harmless σ → n.Harmless σ

variable {σ : Symbols} {n m : Node}

theorem Moved.of_parts (self : m.Drawn σ) (effects : m.isHarmless σ = true → n.isHarmless σ = true)
    (parts : List.Forall₂ (Moved σ) n.parts m.parts) : Moved σ n m := by
  constructor
  · refine all_iff.mpr ⟨self, fun y hy => ?_⟩
    obtain ⟨_, -, moved⟩ := exists_mem_of_forall₂_right parts (visited_subset m hy)
    exact moved.drawn
  · intro h
    refine all_iff.mpr ⟨effects h.self, fun x hx => ?_⟩
    obtain ⟨y, hy, moved⟩ := exists_mem_of_forall₂_left parts hx
    exact moved.harmless (h.part hy)

/-- Nodes that are not looked into. -/
theorem Moved.same (leaf : n.visited = []) (self : n.Drawn σ) : Moved σ n n := ⟨(all_leaf leaf).mpr self, id⟩

/-- An expression that is no call. -/
theorem Moved.expr {e e' : Expr} (marked : e'.info.privately = true) (effects : σ.isEffectful e' = false)
    (same : σ.isEffectful e = false) (parts : List.Forall₂ (Moved σ) (Node.expr e).parts (Node.expr e').parts) :
    Moved σ (.expr e) (.expr e') :=
  .of_parts ⟨marked, effects⟩ (fun _ => by simp [isHarmless, same]) parts

theorem moved_name (x : Option String) :
    List.Forall₂ (Moved σ) (x.map Node.name).toList (x.map Node.name).toList := by
  cases x with
  | none => exact .nil
  | some x => exact .cons (.same rfl trivial) .nil

end Node

namespace Upholds

variable {α : Type} {I : Symbols → Prop} {H : Prop} {P R : α → Prop} {x : CheckM α}

theorem and_always (hx : Upholds I H P x) (h : Always R x) : Upholds I H (fun a => P a ∧ R a) x :=
  hx.and_ends ((hx.ends.and_always h).imp fun _ h => h.2)

end Upholds

section Moving

variable {σ : Symbols} (site : Site)

mutual

theorem Ty.moveIn_moved : ∀ t : Ty,
    Upholds (· = σ) True (fun t' => Node.Moved σ (.ty t) (.ty t')) (t.moveIn site)
  | .mapping _ k l v => k.moveIn_moved.bind fun _ => (v.moveIn_moved.assuming fun _ => trivial).bind fun _ =>
    .pure fun h => .of_parts trivial id (.cons h.1.2 (List.rel_append (Node.moved_name l) (.cons h.2 .nil)))
  | .array v none => v.moveIn_moved.bind fun _ => .pure fun h => .of_parts trivial id (.cons h.2 .nil)
  | .array v (some n) => v.moveIn_moved.bind fun _ => (n.moveIn_moved.assuming fun _ => trivial).bind fun _ =>
    .pure fun h => .of_parts trivial id (.cons h.1.2 (.cons h.2 .nil))
  | .elementary _ | .bool | .boolLit _ | .number | .numLit _ | .integer _ _ | .named _ _ _ | .address _ | .cipher _ _
  | .publicKey _ | .randomness _ | .tuple _ | .function _ _ _ => .pure fun _ => .same rfl trivial

theorem AnnTy.moveIn_moved : ∀ t : AnnTy,
    Upholds (· = σ) True (fun t' => Node.Moved σ (.annTy t) (.annTy t')) (t.moveIn site)
  | ⟨t, p, _, _, _⟩ => t.moveIn_moved.bind fun _ => (p.moveIn_moved.assuming fun _ => trivial).bind fun _ =>
    .pure fun h => .of_parts trivial id (.cons h.1.2 (.cons h.2 .nil))

theorem Info.moveTypeIn_moved : ∀ i : Info, Upholds (· = σ) True (fun j => List.Forall₂ (Node.Moved σ)
    (i.type.map Node.annTy).toList (j.type.map Node.annTy).toList) (i.moveTypeIn site)
  | ⟨_, _, some t, _, _⟩ => t.moveIn_moved.bind fun _ => .pure fun h => .cons h.2 .nil
  | ⟨_, _, none, _, _⟩ => .pure fun _ => .nil

/-- Moving an expression marks all of it, or it fails at a call with side effects. -/
theorem Expr.moveIn_moved : ∀ e : Expr,
    Upholds (· = σ) True (fun e' => Node.Moved σ (.expr e) (.expr e')) (e.moveIn site)
  | .call i f as o k => by
    refine .unlessStopped (.withSymbols fun s => ?_)
    split
    · exact .fail
    · rename_i harmless
      refine ((f.moveIn_moved.and_always (f.moveIn_alike site)).assuming fun _ => trivial).bind fun f' =>
        ((Expr.moveAllIn_moved as).assuming fun _ => trivial).bind fun as' => .pure fun h => ?_
      obtain ⟨⟨⟨-, rfl⟩, func, alike⟩, args⟩ := h
      have before : s.isEffectful (.call i f as o k) = false := by simpa using harmless
      exact .expr rfl ((alike.isEffectful_call s).trans before) before (.cons func args)
  | .new i as => .unlessStopped <| i.moveTypeIn_moved.bind fun _ =>
    ((Expr.moveAllIn_moved as).assuming fun _ => trivial).bind fun _ => .pure fun h =>
      .expr rfl rfl rfl (List.rel_append h.1.2 h.2)
  | .cast i t e b => .unlessStopped <| t.moveIn_moved.bind fun _ => (e.moveIn_moved.assuming fun _ => trivial).bind fun _ =>
    .pure fun h => .expr rfl rfl rfl (.cons h.1.2 (.cons h.2 .nil))
  | .arrayLit i vs k => .unlessStopped <| (Expr.moveAllIn_moved vs).bind fun _ => .pure fun h => .expr rfl rfl rfl h.2
  | .tuple i es => .unlessStopped <| (Expr.moveAllIn_moved es).bind fun _ => .pure fun h => .expr rfl rfl rfl h.2
  | .member i e n t => .unlessStopped <| e.moveIn_moved.bind fun _ => .pure fun h =>
    .expr rfl rfl rfl (.cons h.2 (.cons (.same rfl trivial) .nil))
  | .index i e k t => .unlessStopped <| e.moveIn_moved.bind fun _ => (k.moveIn_moved.assuming fun _ => trivial).bind fun _ =>
    .pure fun h => .expr rfl rfl rfl (.cons h.1.2 (.cons h.2 .nil))
  | .reclassify i m e p h => .unlessStopped <| e.moveIn_moved.bind fun _ =>
    (p.moveIn_moved.assuming fun _ => trivial).bind fun _ => .pure fun h =>
      .expr rfl rfl rfl (.cons h.1.2 (.cons h.2 .nil))
  | .ident .. => .unlessStopped (.pure fun _ => .expr rfl rfl rfl (.cons (.same rfl trivial) .nil))
  | .operator .. | .boolLit .. | .numLit .. | .me _ | .all _ => .unlessStopped (.pure fun _ => .expr rfl rfl rfl .nil)

theorem Expr.moveAllIn_moved : ∀ es : List Expr, Upholds (· = σ) True
    (fun es' => List.Forall₂ (Node.Moved σ) (es.map Node.expr) (es'.map Node.expr)) (Expr.moveAllIn site es)
  | [] => .pure fun _ => .nil
  | e :: es => e.moveIn_moved.bind fun _ => ((Expr.moveAllIn_moved es).assuming fun _ => trivial).bind fun _ =>
    .pure fun h => .cons h.1.2 h.2

end

end Moving

/-! ## What is placed -/

/-- The expression reclassifies a public value. -/
def Expr.isOffer : Expr → Bool
  | .reclassify _ _ e _ _ => !e.checkedType.isPrivate
  | _ => false

/-- The value that is offered has side effects, so it cannot move in. -/
def Expr.IsHalted (σ : Symbols) (e : Expr) : Prop := e.isOffer = true ∧ ¬ (Node.expr e).Harmless σ

/-- The marks around the expression are right. -/
structure Expr.Situated (σ : Symbols) (e : Expr) : Prop where
  forced : e.forces = true → e.info.privately = true
  effects : e.info.privately = true → σ.isEffectful e = false
  inherited : e.info.privately = true → (Node.expr e).Inside ∨ e.IsHalted σ

namespace Node

def Situated (σ : Symbols) : Node → Prop
  | .expr e => e.Situated σ
  | .stmt s => s.forces = true → (Node.stmt s).Inside
  | _ => True

/-- What placing makes of a node that stands inside of the circuit if `cur` says so. -/
structure Placed (σ : Symbols) (cur : Bool) (m : Node) : Prop where
  settled : m.All visited (Situated σ)
  inside : cur = true → m.Inside

/-- The second node is what placing makes of the first. All calls with side effects of the first can be found in it. -/
structure Becomes (σ : Symbols) (cur : Bool) (n m : Node) : Prop extends Placed σ cur m where
  harmless : m.Harmless σ → n.Harmless σ

variable {σ : Symbols} {cur : Bool} {n m : Node}

theorem Placed.weaken (h : Placed σ true n) : Placed σ cur n := ⟨h.settled, fun _ => h.inside rfl⟩

theorem Placed.outside (h : Placed σ cur n) : Placed σ false n := ⟨h.settled, nofun⟩

/-- A node is placed if the nodes below it are. -/
theorem Placed.of_parts (self : (cur = true → m.Inside) → m.Situated σ) (marked : cur = true → m.isOutside = false)
    (settled : ∀ y ∈ m.visited, y.All visited (Situated σ)) (inside : cur = true → ∀ y ∈ m.openParts, y.Inside) :
    Placed σ cur m := by
  have all (h : cur = true) : m.Inside := all_iff.mpr ⟨marked h, inside h⟩
  exact ⟨all_iff.mpr ⟨self all, settled⟩, all⟩

/-- What has been moved in is placed. -/
theorem Moved.placed (h : Moved σ n m) : Becomes σ cur n m := by
  have inside {x : Node} (drawn : x.All visited (Drawn σ)) : x.Inside :=
    (drawn.mono openParts_subset).imp fun y hy => by
      cases y with
      | expr e => simp [isOutside, hy.1]
      | _ => rfl
  refine ⟨⟨fun y hy => ?_, fun _ => inside h.drawn⟩, h.harmless⟩
  have drawn := h.drawn.below hy
  cases y with
  | expr e => exact ⟨fun _ => drawn.self.1, fun _ => drawn.self.2, fun _ => .inl (inside drawn)⟩
  | stmt s => exact fun _ => inside drawn
  | _ => trivial

/-- Nodes below expressions and statements. -/
theorem Becomes.inner (hn : (n matches .expr _ | .stmt _) = false) (hm : (m matches .expr _ | .stmt _) = false)
    (parts : List.Forall₂ (Becomes σ cur) n.parts m.parts) : Becomes σ cur n m := by
  have below {y : Node} (hy : y ∈ m.parts) : Placed σ cur y := by
    obtain ⟨_, -, h⟩ := exists_mem_of_forall₂_right parts hy
    exact h.toPlaced
  refine ⟨.of_parts (fun _ => ?_) (fun _ => ?_) (fun y hy => (below (visited_subset m hy)).settled)
    fun h y hy => (below (visited_subset m (openParts_subset m hy))).inside h, fun h => all_iff.mpr ⟨?_, fun x hx => ?_⟩⟩
  · cases m with
    | expr | stmt => cases hm
    | _ => trivial
  · cases m with
    | expr | stmt => cases hm
    | _ => rfl
  · cases n with
    | expr | stmt => cases hn
    | _ => rfl
  · obtain ⟨y, hy, becomes⟩ := exists_mem_of_forall₂_left parts hx
    exact becomes.harmless (h.part hy)

/-- An expression that gets the mark of its surroundings. -/
theorem Becomes.expr {e e' : Expr} (forced : e'.forces = true → cur = true) (mark : e'.info.privately = cur)
    (effects : σ.isEffectful e' = σ.isEffectful e)
    (settled : ∀ y ∈ (Node.expr e').visited, y.All visited (Situated σ))
    (inside : cur = true → ∀ y ∈ (Node.expr e').openParts, y.Inside)
    (parts : (∀ y ∈ (Node.expr e').parts, y.Harmless σ) → ∀ x ∈ (Node.expr e).parts, x.Harmless σ)
    (movable : cur = true → (Node.expr e).Harmless σ) : Becomes σ cur (.expr e) (.expr e') := by
  subst mark
  refine ⟨.of_parts (fun all => ⟨forced, fun h => ?_, fun h => .inl (all h)⟩) (fun h => ?_) settled inside, fun h => ?_⟩
  · rw [effects]
    simpa [isHarmless] using (movable h).self
  · simp [isOutside, h]
  · have self := h.self
    refine all_iff.mpr ⟨?_, parts fun y hy => h.part hy⟩
    simpa [isHarmless, effects] using self

/-- An expression all of whose parts are placed alike. -/
theorem Becomes.uniform {e e' : Expr} (parts : List.Forall₂ (Becomes σ cur) (Node.expr e).parts (Node.expr e').parts)
    (forced : e'.forces = true → cur = true) (mark : e'.info.privately = cur)
    (effects : σ.isEffectful e' = σ.isEffectful e) (movable : cur = true → (Node.expr e).Harmless σ) :
    Becomes σ cur (.expr e) (.expr e') := by
  have below {y : Node} (hy : y ∈ (Node.expr e').parts) : Placed σ cur y := by
    obtain ⟨_, -, h⟩ := exists_mem_of_forall₂_right parts hy
    exact h.toPlaced
  refine .expr forced mark effects (fun y hy => (below (visited_subset _ hy)).settled)
    (fun h y hy => (below (visited_subset _ (openParts_subset _ hy))).inside h) (fun h x hx => ?_) movable
  obtain ⟨y, hy, becomes⟩ := exists_mem_of_forall₂_left parts hx
  exact becomes.harmless (h y hy)

/-- Nodes that are not looked into. -/
theorem Becomes.same (leaf : n.visited = []) (self : n.Situated σ) (marked : cur = true → n.isOutside = false) :
    Becomes σ cur n n := by
  have none {y : Node} (hy : y ∈ n.visited) : False := by
    rw [leaf] at hy
    cases hy
  exact ⟨.of_parts (fun _ => self) marked (fun y hy => (none hy).elim)
    fun _ y hy => (none (openParts_subset n hy)).elim, id⟩

theorem becomes_name (x : Option String) :
    List.Forall₂ (Becomes σ cur) (x.map Node.name).toList (x.map Node.name).toList := by
  cases x with
  | none => exact .nil
  | some x => exact .cons (.same rfl trivial fun _ => rfl) .nil

/-- Names look the same wherever they stand. -/
theorem becomes_isName {e : Expr} (h : e.isName = true) (b : Bool) : Becomes σ b (.expr e) (.expr (e.marked b)) := by
  cases e with
  | ident i n r =>
    refine .uniform (.cons (.same rfl trivial fun _ => rfl) .nil) nofun rfl rfl fun _ => all_iff.mpr ⟨rfl, ?_⟩
    exact List.forall_mem_singleton.mpr ((all_leaf (n := .ident n) rfl).mpr rfl)
  | me | all => exact .uniform .nil nofun rfl rfl fun _ => (all_leaf rfl).mpr rfl
  | _ => cases h

section Reclassified

variable {i : Info} {f : ReclassifyForm} {e e' p : Expr} {h : Option Hom} {b : Bool}

theorem placed_label : ∀ y ∈ (if (p.marked b).isName then [Node.expr (p.marked b)] else []), Placed σ b y := by
  intro y hy
  split at hy
  · rename_i name
    cases List.mem_singleton.mp hy
    refine (becomes_isName ?_ b).toPlaced
    cases p with
    | ident | me | all => rfl
    | _ => cases name
  · cases hy

/-- Calls with side effects of a reclassification can be found in its operand and its label. -/
theorem harmless_reclassified (operand : (Node.expr e').Harmless σ → (Node.expr e).Harmless σ)
    (known : ∀ y ∈ [Node.expr e', .expr (p.marked b)], y.Harmless σ) :
    ∀ y ∈ [Node.expr e, .expr p], y.Harmless σ :=
  List.forall_mem_cons.mpr ⟨operand (known _ List.mem_cons_self), List.forall_mem_singleton.mpr
    ((harmless_marked b).mp (known _ (List.mem_cons_of_mem _ List.mem_cons_self)))⟩

/-- A reclassified private value is in the circuit. -/
theorem Becomes.secret (operand : Becomes σ true (.expr e) (.expr e'))
    (movable : true = true → (Node.expr (.reclassify i f e p h)).Harmless σ) :
    Becomes σ true (.expr (.reclassify i f e p h)) (.expr (.reclassify i.inCircuit f e' (p.marked true) h)) := by
  refine .expr (fun _ => rfl) rfl rfl (List.forall_mem_cons.mpr ⟨operand.settled, fun y hy => (placed_label y hy).settled⟩)
    (fun hc => ?_) (harmless_reclassified operand.harmless) movable
  refine List.forall_mem_append.mpr ⟨?_, fun y hy => (placed_label (σ := σ) y hy).inside hc⟩
  split
  · exact List.forall_mem_singleton.mpr (operand.inside hc)
  · exact List.forall_mem_nil _

/-- A public value that is reclassified enters the circuit, and the label goes along unless there are side effects. -/
theorem Becomes.offer {k : Bool} (shown : e'.checkedType.isPrivate = false)
    (operand : Becomes σ k (.expr e) (.expr e')) :
    Becomes σ cur (.expr (.reclassify i f e p h))
      (.expr (.reclassify i.inCircuit f e' (p.marked ((Expr.reclassify i f e p h).isMovable σ || cur)) h)) := by
  generalize hb : ((Expr.reclassify i f e p h).isMovable σ || cur) = b
  have harmless (known : (Node.expr (.reclassify i.inCircuit f e' (p.marked b) h)).Harmless σ) :
      (Node.expr (.reclassify i f e p h)).Harmless σ :=
    all_iff.mpr ⟨rfl, harmless_reclassified operand.harmless fun y hy => known.part hy⟩
  have inside (h : b = true) {y : Node}
      (hy : y ∈ (if e'.checkedType.isPrivate then [Node.expr e'] else []) ++
        if (p.marked b).isName then [Node.expr (p.marked b)] else []) : y.Inside := by
    rw [shown, if_neg Bool.false_ne_true, List.nil_append] at hy
    exact (placed_label (σ := σ) y hy).inside h
  refine ⟨.of_parts (fun _ => ⟨fun _ => rfl, fun _ => rfl, fun _ => ?_⟩) (fun _ => rfl)
    (List.forall_mem_cons.mpr ⟨operand.settled, fun y hy => (placed_label y hy).settled⟩)
    fun hc _ hy => inside (by rw [← hb, hc, Bool.or_true]) hy, harmless⟩
  cases b with
  | true => exact .inl (all_iff.mpr ⟨rfl, fun _ hy => inside rfl hy⟩)
  | false =>
    refine .inr ⟨by simp [Expr.isOffer, shown], fun known => ?_⟩
    rw [Expr.isMovable_iff.mpr (harmless known)] at hb
    cases hb

end Reclassified

end Node

section Placing

open Node (Becomes Placed)

variable {σ : Symbols} (c : PlaceContext)

theorem upholds_placing {cur force : Bool} {e : Expr} {next : Bool → CheckM Expr}
    (h : ∀ b, (force = true → b = true) → Upholds (· = σ) (b = true → (Node.expr e).Harmless σ)
      (fun e' => Becomes σ b (.expr e) (.expr e')) (next b)) :
    Upholds (· = σ) (cur = true → (Node.expr e).Harmless σ) (fun e' => Becomes σ cur (.expr e) (.expr e'))
      (placing c cur force e next) := by
  refine .unlessStopped ?_
  cases force with
  | false => exact h cur nofun
  | true =>
    refine .withSymbols fun s => ?_
    split
    · rename_i movable
      refine ((h true fun _ => rfl).assuming fun known _ => ?_).imp fun e' _ placed => ⟨placed.weaken, placed.harmless⟩
      rw [known.2] at movable
      exact Expr.isMovable_iff.mp movable
    · refine (((e.marked cur).moveIn_moved c.site).assuming fun _ => trivial).imp fun e' _ moved => ?_
      exact ⟨moved.placed.toPlaced, fun h => (Node.harmless_marked cur).mp (moved.harmless h)⟩

mutual

theorem Ty.place_becomes (cur : Bool) : ∀ t : Ty, Upholds (· = σ) (cur = true → (Node.ty t).Harmless σ)
    (fun t' => Becomes σ cur (.ty t) (.ty t')) (t.place c cur)
  | .mapping _ k l v => by
    have value : Node.annTy v ∈ Node.ty k :: ((l.map Node.name).toList ++ [Node.annTy v]) :=
      List.mem_cons_of_mem _ (List.mem_append_right _ (List.mem_singleton_self _))
    exact ((k.place_becomes cur).assuming fun h hc => (h hc).part List.mem_cons_self).bind fun _ =>
      ((v.place_becomes cur).assuming fun h hc => (h.1 hc).part value).bind fun _ => .pure fun h =>
        .inner rfl rfl (.cons h.1.2 (List.rel_append (Node.becomes_name l) (.cons h.2 .nil)))
  | .array v none => ((v.place_becomes cur).assuming fun h hc => (h hc).part List.mem_cons_self).bind fun _ =>
    .pure fun h => .inner rfl rfl (.cons h.2 .nil)
  | .array v (some n) => ((v.place_becomes cur).assuming fun h hc => (h hc).part List.mem_cons_self).bind fun _ =>
    ((n.place_becomes cur).assuming fun h hc => (h.1 hc).part (List.mem_cons_of_mem _ List.mem_cons_self)).bind fun _ =>
      .pure fun h => .inner rfl rfl (.cons h.1.2 (.cons h.2 .nil))
  | .elementary _ | .bool | .boolLit _ | .number | .numLit _ | .integer _ _ | .named _ _ _ | .address _ | .cipher _ _
  | .publicKey _ | .randomness _ | .tuple _ | .function _ _ _ => .pure fun _ => .same rfl trivial fun _ => rfl

theorem AnnTy.place_becomes (cur : Bool) : ∀ t : AnnTy, Upholds (· = σ) (cur = true → (Node.annTy t).Harmless σ)
    (fun t' => Becomes σ cur (.annTy t) (.annTy t')) (t.place c cur)
  | ⟨t, p, _, _, _⟩ => ((t.place_becomes cur).assuming fun h hc => (h hc).part List.mem_cons_self).bind fun _ =>
    ((p.place_becomes cur).assuming fun h hc => (h.1 hc).part (List.mem_cons_of_mem _ List.mem_cons_self)).bind fun _ =>
      .pure fun h => .inner rfl rfl (.cons h.1.2 (.cons h.2 .nil))

theorem Info.placeType_becomes (cur : Bool) : ∀ i : Info,
    Upholds (· = σ) (cur = true → ∀ t ∈ i.type, (Node.annTy t).Harmless σ)
      (fun j => List.Forall₂ (Becomes σ cur) (i.type.map Node.annTy).toList (j.type.map Node.annTy).toList)
      (i.placeType c cur)
  | ⟨_, _, some t, _, _⟩ => ((t.place_becomes cur).assuming fun h hc => h hc t rfl).bind fun _ =>
    .pure fun h => .cons h.2 .nil
  | ⟨_, _, none, _, _⟩ => .pure fun _ => .nil

/-- Placing settles an expression, and inside of the circuit it marks all of it. -/
theorem Expr.place_becomes (cur : Bool) : ∀ e : Expr, Upholds (· = σ) (cur = true → (Node.expr e).Harmless σ)
    (fun e' => Becomes σ cur (.expr e) (.expr e')) (e.place c cur)
  | .call i f as o k => by
    rw [Expr.place_call]
    refine upholds_placing c fun b force => ?_
    refine (((f.place_becomes b).assuming fun h hc => (h hc).part List.mem_cons_self).and_always
      (f.place_alike c b)).bind fun f' => ((Expr.placeAll_becomes b as).assuming fun h hc a ha =>
        (h.1 hc).part (List.mem_cons_of_mem _ (List.mem_map_of_mem ha))).bind fun as' => .pure fun h => ?_
    obtain ⟨⟨movable, func, alike⟩, args⟩ := h
    refine .uniform (.cons func args) (fun forces => force ?_) rfl (alike.isEffectful_call σ) movable
    rwa [alike.forces_call (i := i) (j := i.mark b) rfl] at forces
  | .new i as => upholds_placing c fun b _ => ((i.placeType_becomes b).assuming fun h hc t ht =>
      (h hc).part (List.mem_append_left _ (Option.mem_toList.mpr (Option.mem_map_of_mem _ ht)))).bind fun _ =>
    ((Expr.placeAll_becomes b as).assuming fun h hc a ha =>
      (h.1 hc).part (List.mem_append_right _ (List.mem_map_of_mem ha))).bind fun _ =>
        .pure fun h => .uniform (List.rel_append h.1.2 h.2) nofun rfl rfl h.1.1
  | .cast i t e x => by
    rw [Expr.place_cast]
    refine upholds_placing c fun b force => ?_
    refine ((t.place_becomes b).assuming fun h hc => (h hc).part List.mem_cons_self).bind fun t' =>
      (((e.place_becomes b).assuming fun h hc => (h.1 hc).part (List.mem_cons_of_mem _ List.mem_cons_self)).and_always
        (e.place_alike c b)).bind fun e' => .pure fun h => ?_
    obtain ⟨⟨movable, type⟩, arg, alike⟩ := h
    refine .uniform (.cons type (.cons arg .nil)) (fun forces => force ?_) rfl rfl movable
    rwa [Expr.forces_cast, alike.isPrivate, ← Expr.forces_cast i t e x] at forces
  | .arrayLit i es _ | .tuple i es => upholds_placing c fun b _ =>
    ((Expr.placeAll_becomes b es).assuming fun h hc a ha => (h hc).part (List.mem_map_of_mem ha)).bind fun _ =>
      .pure fun h => .uniform h.2 nofun rfl rfl h.1
  | .member i e n r => upholds_placing c fun b _ =>
    ((e.place_becomes b).assuming fun h hc => (h hc).part List.mem_cons_self).bind fun _ =>
      .pure fun h => .uniform (.cons h.2 (.cons (.same rfl trivial fun _ => rfl) .nil)) nofun rfl rfl h.1
  | .index i e k r => upholds_placing c fun b _ =>
    ((e.place_becomes b).assuming fun h hc => (h hc).part List.mem_cons_self).bind fun _ =>
    ((k.place_becomes false).assuming fun _ => nofun).bind fun _ => .pure fun h =>
      .expr nofun rfl rfl (List.forall_mem_cons.mpr ⟨h.1.2.settled, List.forall_mem_singleton.mpr h.2.settled⟩)
        (fun hc => List.forall_mem_singleton.mpr (h.1.2.inside hc))
        (fun known => List.forall_mem_cons.mpr ⟨h.1.2.harmless (known _ List.mem_cons_self),
          List.forall_mem_singleton.mpr (h.2.harmless (known _ (List.mem_cons_of_mem _ List.mem_cons_self)))⟩) h.1.1
  | .reclassify i m e p x => by
    refine .unlessStopped ?_
    split
    · exact .fail
    · split
      · rename_i secret
        refine upholds_placing c fun b force => ?_
        obtain rfl := force rfl
        refine (((e.place_becomes true).assuming fun h hc => (h hc).part List.mem_cons_self).and_always
          (e.place_alike c true)).bind fun e' => .pure fun h => ?_
        obtain ⟨movable, operand, alike⟩ := h
        exact .secret operand movable
      · rename_i shown
        refine .withSymbols fun s => ?_
        refine (((e.place_becomes _).assuming fun known hc => ?_).and_always (e.place_alike c _)).bind fun e' =>
          .pure fun h => ?_
        · rw [known.2, Bool.and_eq_true, Bool.and_eq_true, Bool.and_eq_true] at hc
          exact (Expr.isMovable_iff.mp hc.1.1.1).part List.mem_cons_self
        · obtain ⟨⟨-, rfl⟩, operand, alike⟩ := h
          exact .offer (by simpa [alike.isPrivate] using shown) operand
  | .ident i n r => .pure fun h => .uniform (.cons (.same rfl trivial fun _ => rfl) .nil) nofun rfl rfl h
  | .operator .. | .boolLit .. | .numLit .. | .me _ | .all _ => .pure fun h => .uniform .nil nofun rfl rfl h

theorem Expr.placeAll_becomes (cur : Bool) : ∀ es : List Expr,
    Upholds (· = σ) (cur = true → ∀ e ∈ es, (Node.expr e).Harmless σ)
      (fun es' => List.Forall₂ (Becomes σ cur) (es.map Node.expr) (es'.map Node.expr)) (Expr.placeAll c cur es)
  | [] => .pure fun _ => .nil
  | e :: es => ((e.place_becomes cur).assuming fun h hc => h hc e List.mem_cons_self).bind fun _ =>
    ((Expr.placeAll_becomes cur es).assuming fun h hc a ha => h.1 hc a (List.mem_cons_of_mem _ ha)).bind fun _ =>
      .pure fun h => .cons h.1.2 h.2

end

end Placing

end Shroud
