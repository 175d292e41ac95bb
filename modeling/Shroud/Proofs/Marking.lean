import Shroud.Proofs.Nodes
import Shroud.Proofs.Pointwise

/-!
# Which expressions are marked

Placing marks the expressions that are evaluated in the circuit. What forces an expression into the circuit is one of
these: it is a reclassification, a private operation, a cast of a private value or the conversion of a value to a
private enum; or it stands below an if statement with a private condition.

**Agreement.** If placing does not fail, a statement has a marked expression exactly if something in it forces an
expression into the circuit (`Stmt.place_agrees`). Types of functions are left out of this: placing does not look at
the types of their parameters.
-/

namespace Shroud

/-! ## Activities that do not fail -/

section Ending

/-- If the checker has not failed in the end, it had not failed before, and the result has the property. -/
def Ends {α : Type} (P : α → Prop) (x : CheckM α) : Prop :=
  ∀ s, (x s).2.failure = none → s.failure = none ∧ P (x s).1

variable {α β : Type} {P P' : α → Prop} {Q : β → Prop} {x : CheckM α} {f : α → CheckM β}

namespace Ends

theorem pure {a : α} (h : P a) : Ends P (Pure.pure a) := fun _ hs => ⟨hs, h⟩

/-- What the first activity tells is only known once the second one has not failed either. -/
theorem bind (hx : Ends P x) (hf : ∀ a, Ends (fun b => P a → Q b) (f a)) : Ends Q (x >>= f) := by
  intro s hs
  obtain ⟨between, result⟩ := hf (x s).1 (x s).2 hs
  obtain ⟨start, first⟩ := hx s between
  exact ⟨start, result first⟩

theorem imp (hx : Ends P x) (h : ∀ a, P a → P' a) : Ends P' x := fun s hs => (hx s hs).imp_right (h _)

theorem and_always (hx : Ends P x) (h : Always P' x) : Ends (fun a => P a ∧ P' a) x :=
  fun s hs => ⟨(hx s hs).1, (hx s hs).2, h s⟩

theorem fail {e : Error} {a : α} : Ends P (CheckM.fail e a) := by
  intro s hs
  replace hs : s.failure.or (some e) = none := hs
  cases h : s.failure <;> rw [h] at hs <;> cases hs

theorem stopped : Ends (· = false) CheckM.stopped := by
  intro s hs
  replace hs : s.failure = none := hs
  refine ⟨hs, ?_⟩
  show s.failure.isSome = false
  rw [hs]
  rfl

theorem symbols : Ends (fun _ => True) CheckM.symbols := fun _ hs => ⟨hs, trivial⟩

theorem warn {w : Warning} : Ends (fun _ => True) (CheckM.warn w) := fun _ hs => ⟨hs, trivial⟩

theorem setType {id : Nat} {t : AnnTy} : Ends (fun _ => True) (CheckM.setType id t) := fun _ hs => ⟨hs, trivial⟩

theorem setFunction {g : FunctionDef} : Ends (fun _ => True) (CheckM.setFunction g) := fun _ hs => ⟨hs, trivial⟩

theorem attempt {ε : Except Error β} {a : α} {g : β → CheckM α} (h : ∀ b, ε = .ok b → Ends P (g b)) :
    Ends P (CheckM.attempt ε a g) := by
  cases ε with
  | error e => exact fail
  | ok b => exact h b rfl

theorem ensure {b : Bool} {e : Error} {a : α} (h : b = true → Ends P x) : Ends P (CheckM.ensure b e a x) := by
  cases b with
  | false => exact fail
  | true => exact h rfl

theorem convert {c : Conversion} {put : Expr → α} {g : Expr → CheckM α} (h : ∀ e, c.result = .ok e → Ends P (g e)) :
    Ends P (CheckM.convert c put g) := by
  unfold CheckM.convert
  split
  · exact h _ ‹_›
  · exact fail

theorem convertAll {c : List Expr × Except Error (List Expr)} {put : List Expr → α} {g : List Expr → CheckM α}
    (h : ∀ es, c.2 = .ok es → Ends P (g es)) : Ends P (CheckM.convertAll c put g) := by
  unfold CheckM.convertAll
  split
  · exact h _ ‹_›
  · exact fail

/-- An activity that does nothing once the checker has failed. -/
theorem unlessStopped {a : α} (hx : Ends P x) : Ends P (do if ← CheckM.stopped then return a else x) := by
  refine stopped.bind fun stop => ?_
  cases stop with
  | true => exact .pure nofun
  | false => exact hx.imp fun _ h _ => h

/-- An activity that needs the declarations. -/
theorem withSymbols {g : Symbols → CheckM α} (h : ∀ s, Ends P (g s)) : Ends P (do g (← CheckM.symbols)) :=
  symbols.bind fun s => (h s).imp fun _ h _ => h

end Ends

end Ending

/-! ## What placing keeps -/

/-- The expression is a private operator. -/
def Expr.isPrivateOp : Expr → Bool
  | .operator _ _ isPrivate _ _ => isPrivate
  | _ => false

/-- The operator, if the expression is one. -/
def Expr.op? : Expr → Option Op
  | .operator _ op _ _ _ => some op
  | _ => none

/-- The second expression looks like the first from above: whoever asks what it leads to, whether it is private or
whether it is an operator gets the same answer. -/
structure Expr.Alike (e e' : Expr) : Prop where
  isAll : e'.isAll = e.isAll
  isLocation : e'.isLocation = e.isLocation
  target? : e'.target? = e.target?
  op? : e'.op? = e.op?
  isPrivateOp : e'.isPrivateOp = e.isPrivateOp
  isPrivate : e'.checkedType.isPrivate = e.checkedType.isPrivate

namespace Expr

theorem Alike.refl (e : Expr) : e.Alike e := ⟨rfl, rfl, rfl, rfl, rfl, rfl⟩

theorem Alike.trans {e f g : Expr} (h₁ : e.Alike f) (h₂ : f.Alike g) : e.Alike g :=
  ⟨h₂.isAll.trans h₁.isAll, h₂.isLocation.trans h₁.isLocation, h₂.target?.trans h₁.target?, h₂.op?.trans h₁.op?,
    h₂.isPrivateOp.trans h₁.isPrivateOp, h₂.isPrivate.trans h₁.isPrivate⟩

theorem marked_alike (b : Bool) (e : Expr) : e.Alike (e.marked b) := by
  cases e <;> exact ⟨rfl, rfl, rfl, rfl, rfl, rfl⟩

end Expr

open CheckM in
theorem Expr.moveIn_isAll (site : Site) (e : Expr) : Always (fun e' => e'.isAll = e.isAll) (e.moveIn site) := by
  cases e with
  | call =>
    refine always_unlessStopped rfl (.after fun s => ?_)
    split
    · exact always_fail rfl
    · exact .after fun _ => .after fun _ => .pure rfl
  | new | cast | index | reclassify => exact always_unlessStopped rfl (.after fun _ => .after fun _ => .pure rfl)
  | arrayLit | tuple | member => exact always_unlessStopped rfl (.after fun _ => .pure rfl)
  | operator | boolLit | numLit | ident | me | all => exact always_unlessStopped rfl (.pure rfl)

/-- The type that an expression is written with stays private or public. -/
def Info.SameOwner (i j : Info) : Prop := (j.type.getD default).isPrivate = (i.type.getD default).isPrivate

theorem Info.moveTypeIn_sameOwner (site : Site) : ∀ i : Info, Always i.SameOwner (i.moveTypeIn site)
  | ⟨_, _, some ⟨_, p, _, _, _⟩, _, _⟩ =>
    .bind (P := fun u : AnnTy => u.isPrivate = (!p.isAll)) (.after fun _ => .bind (p.moveIn_isAll site) fun _ h =>
      .pure (congrArg not h)) fun _ h => .pure h
  | ⟨_, _, none, _, _⟩ => .pure rfl

open CheckM in
theorem Expr.moveIn_alike (site : Site) (e : Expr) : Always e.Alike (e.moveIn site) := by
  cases e with
  | call =>
    refine always_unlessStopped (.refl _) (.after fun s => ?_)
    split
    · exact always_fail (.refl _)
    · exact .after fun _ => .after fun _ => .pure ⟨rfl, rfl, rfl, rfl, rfl, rfl⟩
  | new i as =>
    exact always_unlessStopped (.refl _) <| (i.moveTypeIn_sameOwner site).bind fun j h =>
      .after fun _ => .pure ⟨rfl, rfl, rfl, rfl, rfl, h⟩
  | cast | index | reclassify =>
    exact always_unlessStopped (.refl _) (.after fun _ => .after fun _ => .pure ⟨rfl, rfl, rfl, rfl, rfl, rfl⟩)
  | arrayLit | tuple | member =>
    exact always_unlessStopped (.refl _) (.after fun _ => .pure ⟨rfl, rfl, rfl, rfl, rfl, rfl⟩)
  | operator | boolLit | numLit | ident | me | all =>
    exact always_unlessStopped (.refl _) (.pure ⟨rfl, rfl, rfl, rfl, rfl, rfl⟩)

section Placing

open CheckM

variable (c : PlaceContext) (cur : Bool)

theorem always_placing {c : PlaceContext} {cur force : Bool} {e : Expr} {next : Bool → CheckM Expr}
    {P : Expr → Prop} (marked : P (e.marked cur)) (moved : Always P ((e.marked cur).moveIn c.site))
    (h : ∀ cur, Always P (next cur)) : Always P (placing c cur force e next) := by
  refine always_unlessStopped marked ?_
  split
  · exact h cur
  · refine .after fun s => ?_
    split
    · exact h true
    · exact moved

theorem Expr.place_isAll (e : Expr) : Always (fun e' => e'.isAll = e.isAll) (e.place c cur) := by
  have marked (b : Bool) : (e.marked b).isAll = e.isAll := (e.marked_alike b).isAll
  have moved (b : Bool) : Always (fun e' => e'.isAll = e.isAll) ((e.marked b).moveIn c.site) :=
    fun s => ((e.marked b).moveIn_isAll c.site s).trans (marked b)
  cases e with
  | call | new | cast | index =>
    exact always_placing (marked _) (moved _) fun _ => .after fun _ => .after fun _ => .pure rfl
  | arrayLit | tuple | member => exact always_placing (marked _) (moved _) fun _ => .after fun _ => .pure rfl
  | reclassify i m e p h =>
    refine always_unlessStopped rfl ?_
    split
    · exact always_fail rfl
    · split
      · exact always_placing (marked _) (moved _) fun _ => .after fun _ => .pure rfl
      · exact .after fun _ => .after fun _ => .pure rfl
  | operator | boolLit | numLit | ident | me | all => exact .pure rfl

theorem Info.placeType_sameOwner : ∀ i : Info, Always i.SameOwner (i.placeType c cur)
  | ⟨_, _, some ⟨_, p, _, _, _⟩, _, _⟩ =>
    .bind (P := fun u : AnnTy => u.isPrivate = (!p.isAll)) (.after fun _ => .bind (p.place_isAll c cur) fun _ h =>
      .pure (congrArg not h)) fun _ h => .pure h
  | ⟨_, _, none, _, _⟩ => .pure rfl

theorem Expr.place_alike (e : Expr) : Always e.Alike (e.place c cur) := by
  have moved (b : Bool) : Always e.Alike ((e.marked b).moveIn c.site) :=
    fun s => (e.marked_alike b).trans ((e.marked b).moveIn_alike c.site s)
  cases e with
  | call | cast | index =>
    exact always_placing (marked_alike _ _) (moved _) fun _ => .after fun _ => .after fun _ =>
      .pure ⟨rfl, rfl, rfl, rfl, rfl, rfl⟩
  | new i as =>
    exact always_placing (marked_alike _ _) (moved _) fun cur => (i.placeType_sameOwner c cur).bind fun j h =>
      .after fun _ => .pure ⟨rfl, rfl, rfl, rfl, rfl, h⟩
  | arrayLit | tuple | member =>
    exact always_placing (marked_alike _ _) (moved _) fun _ => .after fun _ => .pure ⟨rfl, rfl, rfl, rfl, rfl, rfl⟩
  | reclassify i m e p h =>
    refine always_unlessStopped (marked_alike _ _) ?_
    split
    · exact always_fail (marked_alike _ _)
    · split
      · exact always_placing (marked_alike _ _) (moved _) fun _ => .after fun _ => .pure ⟨rfl, rfl, rfl, rfl, rfl, rfl⟩
      · exact .after fun _ => .after fun _ => .pure ⟨rfl, rfl, rfl, rfl, rfl, rfl⟩
  | operator | boolLit | numLit | ident | me | all => exact .pure (marked_alike _ _)

end Placing

/-! ## Marks and what forces them -/

theorem AnnTy.isPublic_of_isPrivate {t : AnnTy} (h : t.isPrivate = false) : t.isPublic = true := by
  simpa [AnnTy.isPrivate] using h

/-- The expression moves into the circuit wherever it stands. -/
def Expr.forces (e : Expr) : Bool := e.isPrivateCode || (e.isCastCall && e.checkedType.isPrivate)

/-- The branches of the statement move into the circuit. -/
def Stmt.forces : Stmt → Bool
  | .ifThen _ c _ _ => c.checkedType.isPrivate
  | _ => false

namespace Node

/-- The node forces expressions into the circuit. -/
def forces : Node → Bool
  | .expr e => e.forces
  | .stmt s => s.forces
  | _ => false

/-- The node is an expression that is evaluated in the circuit. -/
def isMarked : Node → Bool
  | .expr e => e.info.privately
  | _ => false

def isParam : Node → Bool
  | .param _ => true
  | _ => false

/-- Something among the nodes forces an expression into the circuit. -/
def forcing (ns : List Node) : Bool := ns.any forces

/-- Some expression among the nodes is evaluated in the circuit. -/
def marked (ns : List Node) : Bool := ns.any isMarked

/-- No types of parameters stand among the nodes. -/
def firstOrder (ns : List Node) : Bool := !ns.any isParam

variable {cur : Bool} {n : Node} {ns ms : List Node}

theorem forcing_append : forcing (ns ++ ms) = (forcing ns || forcing ms) := List.any_append

theorem marked_append : marked (ns ++ ms) = (marked ns || marked ms) := List.any_append

theorem firstOrder_append : firstOrder (ns ++ ms) = (firstOrder ns && firstOrder ms) := by
  unfold firstOrder
  rw [List.any_append, Bool.not_or]

theorem firstOrder_cons (h : firstOrder (n :: ns) = true) : firstOrder ns = true := by
  rw [← List.singleton_append, firstOrder_append, Bool.and_eq_true] at h
  exact h.2

/-- An expression is marked where something forces it, and if the nodes stand outside of the circuit, only there.
Nothing is said about nodes with types of functions among them. -/
structure Agree (cur : Bool) (ns : List Node) : Prop where
  marks : firstOrder ns = true → forcing ns = true → marked ns = true
  forced : firstOrder ns = true → cur = false → marked ns = true → forcing ns = true

namespace Agree

theorem nil : Agree cur [] := ⟨fun _ => nofun, fun _ _ => nofun⟩

theorem append (h : Agree cur ns) (h' : Agree cur ms) : Agree cur (ns ++ ms) := by
  constructor <;> intro hf <;> rw [firstOrder_append, Bool.and_eq_true] at hf <;> rw [forcing_append, marked_append]
  · rw [Bool.or_eq_true, Bool.or_eq_true]
    exact Or.imp (h.marks hf.1) (h'.marks hf.2)
  · intro hc
    rw [Bool.or_eq_true, Bool.or_eq_true]
    exact Or.imp (h.forced hf.1 hc) (h'.forced hf.2 hc)

/-- Nodes outside of the circuit can be looked at from inside. -/
theorem weaken (h : Agree false ns) : Agree cur ns := ⟨h.marks, fun hf _ => h.forced hf rfl⟩

theorem of_forced (hf : forcing ns = true) (hm : marked ns = true) : Agree cur ns :=
  ⟨fun _ _ => hm, fun _ _ _ => hf⟩

/-- Nodes other than expressions and statements do not matter. -/
theorem cons (hn : (n matches .expr _ | .stmt _) = false) (h : Agree cur ns) : Agree cur (n :: ns) := by
  cases n with
  | expr | stmt => cases hn
  | _ => exact ⟨fun hf => h.marks (firstOrder_cons hf), fun hf => h.forced (firstOrder_cons hf)⟩

/-- An expression that forces nothing has the mark of its surroundings. -/
theorem expr {e : Expr} (he : e.forces = false) (hm : e.info.privately = cur) (h : Agree cur ns) :
    Agree cur (.expr e :: ns) := by
  have f : forcing (.expr e :: ns) = forcing ns := by
    show (e.forces || forcing ns) = _
    rw [he, Bool.false_or]
  have m : marked (.expr e :: ns) = (cur || marked ns) := by
    show (e.info.privately || marked ns) = _
    rw [hm]
  constructor <;> intro hf <;> rw [f, m]
  · rw [Bool.or_eq_true]
    exact fun h' => .inr (h.marks (firstOrder_cons hf) h')
  · rintro rfl
    rw [Bool.false_or]
    exact h.forced (firstOrder_cons hf) rfl

/-- An expression that forces itself is marked. -/
theorem forcedExpr {e : Expr} (he : e.forces = true) (hm : e.info.privately = true) :
    Agree cur (.expr e :: ns) := by
  refine .of_forced ?_ ?_
  · show (e.forces || _) = true
    rw [he, Bool.true_or]
  · show (e.info.privately || _) = true
    rw [hm, Bool.true_or]

theorem stmt {s : Stmt} (hs : s.forces = false) (h : Agree cur ns) : Agree cur (.stmt s :: ns) := by
  have f : forcing (.stmt s :: ns) = forcing ns := by
    show (s.forces || forcing ns) = _
    rw [hs, Bool.false_or]
  constructor <;> intro hf <;> rw [f]
  · exact h.marks (firstOrder_cons hf)
  · exact h.forced (firstOrder_cons hf)

end Agree

end Node

/-! ## Moving expressions into the circuit -/

mutual

theorem Ty.moveIn_ends (site : Site) : ∀ t : Ty, Ends (fun _ => True) (t.moveIn site)
  | .mapping _ k _ v => (k.moveIn_ends site).bind fun _ => (v.moveIn_ends site).bind fun _ => .pure fun _ _ => trivial
  | .array v none => (v.moveIn_ends site).bind fun _ => .pure fun _ => trivial
  | .array v (some n) =>
    (v.moveIn_ends site).bind fun _ => (n.moveIn_marks site).bind fun _ => .pure fun _ _ => trivial
  | .elementary _ | .bool | .boolLit _ | .number | .numLit _ | .integer _ _ | .named _ _ _ | .address _ | .cipher _ _
  | .publicKey _ | .randomness _ | .tuple _ | .function _ _ _ => .pure trivial

theorem AnnTy.moveIn_ends (site : Site) : ∀ t : AnnTy, Ends (fun _ => True) (t.moveIn site)
  | ⟨t, p, _, _, _⟩ => (t.moveIn_ends site).bind fun _ => (p.moveIn_marks site).bind fun _ => .pure fun _ _ => trivial

theorem Info.moveTypeIn_ends (site : Site) : ∀ i : Info, Ends (fun _ => True) (i.moveTypeIn site)
  | ⟨_, _, some t, _, _⟩ => (t.moveIn_ends site).bind fun _ => .pure fun _ => trivial
  | ⟨_, _, none, _, _⟩ => .pure trivial

/-- An expression that was moved into the circuit is marked. -/
theorem Expr.moveIn_marks (site : Site) : ∀ e : Expr, Ends (fun e' => e'.info.privately = true) (e.moveIn site)
  | .call i f as o k => by
    refine .unlessStopped (.withSymbols fun s => ?_)
    split
    · exact .fail
    · exact (f.moveIn_marks site).bind fun _ => (Expr.moveAllIn_ends site as).bind fun _ => .pure fun _ _ => rfl
  | .new i as => .unlessStopped <|
    (i.moveTypeIn_ends site).bind fun _ => (Expr.moveAllIn_ends site as).bind fun _ => .pure fun _ _ => rfl
  | .cast i t e b => .unlessStopped <|
    (t.moveIn_ends site).bind fun _ => (e.moveIn_marks site).bind fun _ => .pure fun _ _ => rfl
  | .arrayLit i vs k => .unlessStopped <| (Expr.moveAllIn_ends site vs).bind fun _ => .pure fun _ => rfl
  | .tuple i es => .unlessStopped <| (Expr.moveAllIn_ends site es).bind fun _ => .pure fun _ => rfl
  | .member i e n t => .unlessStopped <| (e.moveIn_marks site).bind fun _ => .pure fun _ => rfl
  | .index i e k t => .unlessStopped <|
    (e.moveIn_marks site).bind fun _ => (k.moveIn_marks site).bind fun _ => .pure fun _ _ => rfl
  | .reclassify i m e p h => .unlessStopped <|
    (e.moveIn_marks site).bind fun _ => (p.moveIn_marks site).bind fun _ => .pure fun _ _ => rfl
  | .operator .. | .boolLit .. | .numLit .. | .ident .. | .me _ | .all _ => .unlessStopped (.pure rfl)

theorem Expr.moveAllIn_ends (site : Site) : ∀ es : List Expr, Ends (fun _ => True) (Expr.moveAllIn site es)
  | [] => .pure trivial
  | e :: es =>
    (e.moveIn_marks site).bind fun _ => (Expr.moveAllIn_ends site es).bind fun _ => .pure fun _ _ => trivial

end

/-! ## Placing expressions -/

theorem ends_placing {c : PlaceContext} {cur force : Bool} {e : Expr} {next : Bool → CheckM Expr} {P : Expr → Prop}
    (stay : force = false → Ends P (next cur)) (enter : force = true → Ends P (next true))
    (move : force = true → Ends P ((e.marked cur).moveIn c.site)) : Ends P (placing c cur force e next) := by
  refine .unlessStopped ?_
  cases force with
  | false => exact stay rfl
  | true =>
    refine .withSymbols fun s => ?_
    split
    · exact enter rfl
    · exact move rfl

theorem Expr.forces_call (i : Info) (f : Expr) (as : List Expr) (o : Int) (k : Option CircuitVar) :
    (Expr.call i f as o k).forces = (f.isPrivateOp ||
      (f.isLocation && (f.target?.map Ref.isCastTarget).getD false && (i.type.getD default).isPrivate)) := by
  cases f <;> rfl

/-- Calls force the same if they have the same type and their functions are alike. -/
theorem Expr.Alike.forces_call {i j : Info} {f g : Expr} {as bs : List Expr} {o : Int} {k : Option CircuitVar}
    (h : f.Alike g) (ht : j.type = i.type) : (Expr.call j g bs o k).forces = (Expr.call i f as o k).forces := by
  rw [Expr.forces_call, Expr.forces_call, h.isPrivateOp, h.isLocation, h.target?, ht]

theorem Expr.forces_cast (i : Info) (t : Ty) (e : Expr) (b : Bool) :
    (Expr.cast i t e b).forces = e.checkedType.isPrivate := Bool.or_false _

theorem Expr.marked_forces (b : Bool) (e : Expr) : (e.marked b).forces = e.forces := by
  cases e with
  | call i f as o k => exact (f.marked_alike b).forces_call rfl
  | cast i t e b' =>
    show (Expr.cast _ t (e.marked b) b').forces = _
    rw [Expr.forces_cast, Expr.forces_cast, (e.marked_alike b).isPrivate]
  | _ => rfl

open CheckM in
theorem Expr.moveIn_forces (site : Site) (e : Expr) : Always (fun e' => e'.forces = e.forces) (e.moveIn site) := by
  cases e with
  | call i f as o k =>
    refine always_unlessStopped rfl (.after fun s => ?_)
    split
    · exact always_fail rfl
    · exact (f.moveIn_alike site).bind fun f' h => .after fun _ => .pure (h.forces_call rfl)
  | cast i t e b =>
    refine always_unlessStopped rfl <| .after fun _ => (e.moveIn_alike site).bind fun e' h => .pure ?_
    rw [Expr.forces_cast, Expr.forces_cast, h.isPrivate]
  | new | index | reclassify => exact always_unlessStopped rfl (.after fun _ => .after fun _ => .pure rfl)
  | arrayLit | tuple | member => exact always_unlessStopped rfl (.after fun _ => .pure rfl)
  | operator | boolLit | numLit | ident | me | all => exact always_unlessStopped rfl (.pure rfl)

theorem Expr.place_call (c : PlaceContext) (cur : Bool) (i : Info) (f : Expr) (as : List Expr) (o : Int)
    (k : Option CircuitVar) : (Expr.call i f as o k).place c cur =
      placing c cur (Expr.call i f as o k).forces (.call i f as o k) fun cur => do
        let f ← f.place c cur
        return .call (i.mark cur) f (← Expr.placeAll c cur as) o k := by
  cases f <;> rfl

theorem Expr.place_cast (c : PlaceContext) (cur : Bool) (i : Info) (t : Ty) (e : Expr) (b : Bool) :
    (Expr.cast i t e b).place c cur = placing c cur (Expr.cast i t e b).forces (.cast i t e b) fun cur => do
      let t ← t.place c cur
      return .cast (i.mark cur) t (← e.place c cur) b := by
  rw [Expr.forces_cast]
  rfl

theorem Expr.nodes_eq_cons (e : Expr) : ∃ ns, e.nodes = .expr e :: ns := by
  cases e <;> exact ⟨_, rfl⟩

/-- An expression that forces itself agrees once it is marked. -/
theorem Expr.agree_of_forces {cur : Bool} {e : Expr} (he : e.forces = true) (hm : e.info.privately = true) :
    Node.Agree cur e.nodes := by
  obtain ⟨ns, h⟩ := e.nodes_eq_cons
  rw [h]
  exact .forcedExpr he hm

theorem Expr.moved_agrees {site : Site} {cur b : Bool} {e : Expr} (he : e.forces = true) :
    Ends (fun e' => Node.Agree cur e'.nodes) ((e.marked b).moveIn site) := by
  refine (((e.marked b).moveIn_marks site).and_always ((e.marked b).moveIn_forces site)).imp fun e' h => ?_
  rw [Expr.marked_forces, he] at h
  exact agree_of_forces h.2 h.1

theorem cryptoArrayNodes_agree {cur : Bool} (n : Option Nat) : Node.Agree cur (cryptoArrayNodes n) := by
  refine .weaken ⟨fun _ => ?_, fun _ _ => ?_⟩ <;> cases n <;> exact nofun

theorem Info.typeNodes_mark (i : Info) (b : Bool) : (i.mark b).typeNodes = i.typeNodes := by
  obtain ⟨_, _, t, _, _⟩ := i
  cases t <;> rfl

mutual

theorem Ty.place_agrees (c : PlaceContext) (cur : Bool) : ∀ t : Ty,
    Ends (fun t' => Node.Agree cur t'.nodes) (t.place c cur)
  | .mapping i k l v => by
    have name : Node.Agree cur (l.map Node.name).toList := by
      cases l with
      | none => exact .nil
      | some l => exact .cons rfl .nil
    exact (k.place_agrees c cur).bind fun _ => (v.place_agrees c cur).bind fun _ =>
      .pure fun hv hk => .append (.append (.cons rfl hk) name) hv
  | .array v none => (v.place_agrees c cur).bind fun _ => .pure fun hv => .cons rfl hv
  | .array v (some n) => (v.place_agrees c cur).bind fun _ => (n.place_agrees c cur).bind fun _ =>
    .pure fun hn hv => .append (.cons rfl hv) hn
  | .function [] ms [] => .pure (.cons rfl .nil)
  | .function (⟨_, _, _, _, _, _⟩ :: _) ms rs => .pure ⟨nofun, nofun⟩
  | .function [] ms (⟨_, _, _, _, _, _⟩ :: _) => .pure ⟨nofun, nofun⟩
  | .cipher _ _ | .publicKey _ | .randomness _ => .pure (.cons rfl (cryptoArrayNodes_agree _))
  | .elementary _ | .bool | .boolLit _ | .number | .numLit _ | .integer _ _ | .named _ _ _ | .address _
  | .tuple _ => .pure (.cons rfl .nil)

theorem AnnTy.place_agrees (c : PlaceContext) (cur : Bool) : ∀ t : AnnTy,
    Ends (fun t' => Node.Agree cur t'.nodes) (t.place c cur)
  | ⟨t, p, _, _, _⟩ => (t.place_agrees c cur).bind fun _ => (p.place_agrees c cur).bind fun _ =>
    .pure fun hp ht => .append (.cons rfl ht) hp

theorem Info.placeType_agrees (c : PlaceContext) (cur : Bool) : ∀ i : Info,
    Ends (fun j => Node.Agree cur j.typeNodes) (i.placeType c cur)
  | ⟨_, _, some t, _, _⟩ => (t.place_agrees c cur).bind fun _ => .pure fun ht => ht
  | ⟨_, _, none, _, _⟩ => .pure .nil

/-- In an expression that is placed, marks agree with what forces them. -/
theorem Expr.place_agrees (c : PlaceContext) (cur : Bool) : ∀ e : Expr,
    Ends (fun e' => Node.Agree cur e'.nodes) (e.place c cur)
  | .call i f as o k => by
    have func (cur : Bool) := (f.place_agrees c cur).and_always (f.place_alike c cur)
    have args (cur : Bool) := Expr.placeAll_agrees c cur as
    rw [Expr.place_call]
    refine ends_placing (fun force => ?_) (fun force => ?_) Expr.moved_agrees
    · exact (func cur).bind fun _ => (args cur).bind fun _ => .pure fun has hf =>
        .append (.expr ((hf.2.forces_call (i := i) (j := i.mark cur) rfl).trans force) rfl hf.1) has
    · exact (func true).bind fun _ => (args true).bind fun _ => .pure fun _ hf =>
        Expr.agree_of_forces ((hf.2.forces_call (i := i) (j := i.mark true) rfl).trans force) rfl
  | .new i as => ends_placing (fun _ => (i.placeType_agrees c cur).bind fun j =>
    (Expr.placeAll_agrees c cur as).bind fun _ => .pure fun has hj =>
      .append (.expr rfl rfl (j.typeNodes_mark cur ▸ hj)) has) nofun nofun
  | .cast i t e b => by
    have type (cur : Bool) := t.place_agrees c cur
    have arg (cur : Bool) := (e.place_agrees c cur).and_always (e.place_alike c cur)
    rw [Expr.place_cast]
    refine ends_placing (fun force => ?_) (fun force => ?_) Expr.moved_agrees <;> rw [Expr.forces_cast] at force
    · refine (type cur).bind fun _ => (arg cur).bind fun e' => .pure fun he ht => ?_
      refine .append (.expr ?_ rfl ht) he.1
      rw [Expr.forces_cast, he.2.isPrivate, force]
    · refine (type true).bind fun _ => (arg true).bind fun e' => .pure fun he _ => ?_
      refine Expr.agree_of_forces ?_ rfl
      rw [Expr.forces_cast, he.2.isPrivate, force]
  | .arrayLit i vs k => ends_placing (fun _ =>
    (Expr.placeAll_agrees c cur vs).bind fun _ => .pure fun hvs => .expr rfl rfl hvs) nofun nofun
  | .tuple i es => ends_placing (fun _ =>
    (Expr.placeAll_agrees c cur es).bind fun _ => .pure fun hes => .expr rfl rfl hes) nofun nofun
  | .member i e n t => ends_placing (fun _ => (e.place_agrees c cur).bind fun _ => .pure fun he =>
    .append (.expr rfl rfl he) (.cons rfl .nil)) nofun nofun
  | .index i e k t => ends_placing (fun _ => (e.place_agrees c cur).bind fun _ =>
    (k.place_agrees c false).bind fun _ => .pure fun hk he => .append (.expr rfl rfl he) hk.weaken) nofun nofun
  | .reclassify i m e p h => by
    refine .unlessStopped ?_
    split
    · exact .fail
    · split
      · refine ends_placing nofun (fun _ => ?_) fun _ => Expr.moved_agrees rfl
        exact (e.place_agrees c true).bind fun _ => .pure fun _ => .forcedExpr rfl rfl
      · exact .withSymbols fun s => (e.place_agrees c _).bind fun _ => .pure fun _ => .forcedExpr rfl rfl
  | .operator .. | .boolLit .. | .numLit .. | .me _ | .all _ => .pure (.expr rfl rfl .nil)
  | .ident .. => .pure (.expr rfl rfl (.cons rfl .nil))

theorem Expr.placeAll_agrees (c : PlaceContext) (cur : Bool) : ∀ es : List Expr,
    Ends (fun es' => Node.Agree cur (Expr.nodesAll es')) (Expr.placeAll c cur es)
  | [] => .pure .nil
  | e :: es => (e.place_agrees c cur).bind fun _ => (Expr.placeAll_agrees c cur es).bind fun _ =>
    .pure fun hes he => .append he hes

end

/-- Within the circuit every expression is marked. -/
theorem Expr.place_marks (c : PlaceContext) (e : Expr) :
    Ends (fun e' => e'.info.privately = true) (e.place c true) := by
  have moved : Ends (fun e' => e'.info.privately = true) ((e.marked true).moveIn c.site) :=
    (e.marked true).moveIn_marks c.site
  cases e with
  | call i f as o k =>
    rw [Expr.place_call]
    refine ends_placing (fun _ => ?_) (fun _ => ?_) fun _ => moved <;>
      exact (f.place_agrees c true).bind fun _ => (Expr.placeAll_agrees c true as).bind fun _ => .pure fun _ _ => rfl
  | new i as =>
    exact ends_placing (fun _ => (i.placeType_agrees c true).bind fun _ =>
      (Expr.placeAll_agrees c true as).bind fun _ => .pure fun _ _ => rfl) nofun nofun
  | cast i t e b =>
    refine ends_placing (fun _ => ?_) (fun _ => ?_) fun _ => moved <;>
      exact (t.place_agrees c true).bind fun _ => (e.place_agrees c true).bind fun _ => .pure fun _ _ => rfl
  | arrayLit i es k | tuple i es =>
    exact ends_placing (fun _ => (Expr.placeAll_agrees c true es).bind fun _ => .pure fun _ => rfl) nofun nofun
  | member i e n t =>
    exact ends_placing (fun _ => (e.place_agrees c true).bind fun _ => .pure fun _ => rfl) nofun nofun
  | index i e k t =>
    exact ends_placing (fun _ => (e.place_agrees c true).bind fun _ => (k.place_agrees c false).bind fun _ =>
      .pure fun _ _ => rfl) nofun nofun
  | reclassify i m e p q =>
    refine .unlessStopped ?_
    split
    · exact .fail
    · split
      · refine ends_placing nofun (fun _ => ?_) fun _ => moved
        exact (e.place_agrees c true).bind fun _ => .pure fun _ => rfl
      · exact .withSymbols fun s => (e.place_agrees c _).bind fun _ => .pure fun _ => rfl
  | operator | boolLit | numLit | ident | me | all => exact .pure rfl

/-! ## Placing statements -/

/-- Conditions after a visit of all expressions. -/
theorem Stmt.traverse_conditions {P : Expr → Prop} {f : Stmt → Expr → CheckM Expr} {g : Stmt → AnnTy → CheckM AnnTy}
    (hf : ∀ s e, Ends P (f s e)) (hg : ∀ s t, Ends (fun _ => True) (g s t)) (s : Stmt) :
    Ends (Stmt.Conditions P) (s.traverse f g) := by
  have all (ss : List Stmt) (ih : ∀ s ∈ ss, Ends (Stmt.Conditions P) (s.traverse f g)) :
      Ends (Stmt.AllConditions P) (Stmt.traverseAll f g ss) := by
    induction ss with
    | nil => exact .pure trivial
    | cons s ss hss =>
      exact (ih s List.mem_cons_self).bind fun _ => (hss fun t ht => ih t (List.mem_cons_of_mem _ ht)).bind fun _ =>
        .pure fun hs h => ⟨h, hs⟩
  have body (t : Block) (ih : ∀ s ∈ t.stmts, Ends (Stmt.Conditions P) (s.traverse f g)) :
      Ends (Block.Conditions P) (t.traverse f g) := by
    obtain ⟨_, ss, _⟩ := t
    exact (all ss ih).bind fun _ => .pure fun h => h
  induction s using Stmt.inductOn with
  | ifThen i c t e ht he =>
    cases e with
    | none => exact (hf _ c).bind fun _ => (body t ht).bind fun _ => .pure fun h _ => h
    | some e =>
      exact (hf _ c).bind fun _ => (body t ht).bind fun _ => (body e (he e rfl)).bind fun _ =>
        .pure fun he ht _ => ⟨ht, he⟩
  | whileLoop i c t hb => exact (hf _ c).bind fun _ => (body t hb).bind fun _ => .pure fun hb hc => ⟨hc, hb⟩
  | doWhile i t c hb => exact (body t hb).bind fun _ => (hf _ c).bind fun _ => .pure fun hc hb => ⟨hc, hb⟩
  | forLoop i a c u t ha hu hb =>
    unfold Stmt.traverse
    refine .bind (P := Stmt.Conditions? P) ?_ fun _ => (hf _ c).bind fun _ => .bind (P := Stmt.Conditions? P) ?_ fun _ =>
      (body t hb).bind fun _ => .pure fun hb hu hc ha => ⟨hc, ha, hu, hb⟩
    · cases a with
      | none => exact .pure trivial
      | some a => exact (ha a rfl).bind fun _ => .pure fun h => h
    · cases u with
      | none => exact .pure trivial
      | some u => exact (hu u rfl).bind fun _ => .pure fun h => h
  | block t hb => exact (body t hb).bind fun _ => .pure fun h => h
  | seq i ss x hs => exact (all ss hs).bind fun _ => .pure fun h => h
  | simple s hs =>
    cases s with
    | ret i e =>
      cases e with
      | none => exact .pure trivial
      | some e => exact (hf _ e).bind fun _ => .pure fun _ => trivial
    | eval | require => exact (hf _ _).bind fun _ => .pure fun _ => trivial
    | assign => exact (hf _ _).bind fun _ => (hf _ _).bind fun _ => .pure fun _ _ => trivial
    | declare i v e =>
      cases e with
      | none => exact (hg _ _).bind fun _ => .pure fun _ => trivial
      | some e => exact (hg _ _).bind fun _ => (hf _ e).bind fun _ => .pure fun _ _ => trivial
    | breakLoop | continueLoop | compute | enterKey | comment | blank => exact .pure trivial
    | ifThen | whileLoop | doWhile | forLoop | block | seq => cases hs

theorem Block.traverse_ends {f : Stmt → Expr → CheckM Expr} {g : Stmt → AnnTy → CheckM AnnTy}
    (hf : ∀ s e, Ends (fun _ => True) (f s e)) (hg : ∀ s t, Ends (fun _ => True) (g s t)) (t : Block) :
    Ends (fun _ => True) (t.traverse f g) := fun s hs =>
  ⟨((Stmt.block t).traverse_conditions hf hg s hs).1, trivial⟩

theorem ends_placingIf {b : BodyPlace} {cur : Bool} {c : Expr} {whole : Stmt} {branches : List Block}
    {next : BodyPlace → Bool → CheckM Stmt} {P : Stmt → Prop}
    (stay : c.checkedType.isPrivate = false → Ends P (next b cur))
    (enter : c.checkedType.isPrivate = true → Ends P (next b.inside true))
    (move : c.checkedType.isPrivate = true → Ends P ((whole.marked cur).moveIn b.site)) :
    Ends P (placingIf b cur c whole branches next) := by
  refine .unlessStopped ?_
  split
  · rename_i h
    exact stay (by simpa using h)
  · rename_i h
    refine .withSymbols fun s => ?_
    split
    · exact .fail
    · split
      · exact enter (by simpa using h)
      · exact move (by simpa using h)

namespace Node

/-- An if statement with a private condition agrees once its condition is marked. -/
theorem Agree.privateIf {cur : Bool} {i : StmtInfo} {c : Expr} {t : Block} {e : Option Block}
    (hp : c.checkedType.isPrivate = true) (hm : c.info.privately = true) :
    Agree cur (Stmt.ifThen i c t e).nodes := by
  obtain ⟨ns, h⟩ := c.nodes_eq_cons
  obtain ⟨ms, h⟩ : ∃ ms, (Stmt.ifThen i c t e).nodes = .stmt (.ifThen i c t e) :: .expr c :: ms := by
    cases e <;> exact ⟨_, by rw [Stmt.nodes, h]; rfl⟩
  rw [h]
  refine .of_forced ?_ ?_
  · show (c.checkedType.isPrivate || _) = true
    rw [hp, Bool.true_or]
  · show (false || (c.info.privately || _)) = true
    rw [hm, Bool.true_or, Bool.or_true]

end Node

/-- The condition of an if statement that is moved into the circuit is marked. -/
theorem Stmt.moveIn_privateIf {site : Site} {i : StmtInfo} {c : Expr} {t : Block} {e : Option Block} {cur b : Bool}
    (hp : c.checkedType.isPrivate = true) :
    Ends (fun s => Node.Agree cur s.nodes) (((Stmt.ifThen i c t e).marked b).moveIn site) := by
  have cond (s : Stmt) : Ends (fun c' => c'.info.privately = true ∧ (c.marked b).Alike c')
      ((c.marked b).moveIn { site with stmt := some s }) :=
    ((c.marked b).moveIn_marks _).and_always ((c.marked b).moveIn_alike _)
  have body : ∀ t : Block, Ends (fun _ => True) (t.traverse (fun s e => e.moveIn { site with stmt := some s })
      fun s t => t.moveIn { site with stmt := some s }) :=
    Block.traverse_ends (fun s e => (e.moveIn_marks _).imp fun _ _ => trivial) fun s t => t.moveIn_ends _
  have agrees {c' : Expr} {t' : Block} {e' : Option Block} (h : c'.info.privately = true ∧ (c.marked b).Alike c') :
      Node.Agree cur (Stmt.ifThen i c' t' e').nodes :=
    .privateIf (((c.marked_alike b).trans h.2).isPrivate.trans hp) h.1
  cases e with
  | none => exact (cond _).bind fun _ => (body _).bind fun _ => .pure fun _ h => agrees h
  | some e => exact (cond _).bind fun _ => (body _).bind fun _ => (body _).bind fun _ => .pure fun _ _ h => agrees h

/-- In a statement that is placed, marks agree with what forces them. -/
theorem Stmt.place_agrees (b : BodyPlace) (cur : Bool) (s : Stmt) :
    Ends (fun s' => Node.Agree cur s'.nodes) (s.place b cur) := by
  have all (ss : List Stmt) (ih : ∀ s ∈ ss, ∀ b cur, Ends (fun s' => Node.Agree cur s'.nodes) (s.place b cur))
      (b : BodyPlace) (cur : Bool) :
      Ends (fun ss' => Node.Agree cur (Stmt.nodesAll ss')) (Stmt.placeAll b cur ss) := by
    induction ss with
    | nil => exact .pure .nil
    | cons s ss hss =>
      exact (ih s List.mem_cons_self b cur).bind fun _ =>
        (hss fun t ht => ih t (List.mem_cons_of_mem _ ht)).bind fun _ => .pure fun hss hs => .append hs hss
  have body : ∀ t : Block, (∀ s ∈ t.stmts, ∀ b cur, Ends (fun s' => Node.Agree cur s'.nodes) (s.place b cur)) →
      ∀ b cur, Ends (fun t' => Node.Agree cur t'.nodes) (t.place b cur)
    | ⟨_, ss, _⟩, ih, b, cur => (all ss ih b cur).bind fun _ => .pure fun hs => .stmt rfl hs
  have cond (c : Expr) (p : PlaceContext) (cur : Bool) := (c.place_agrees p cur).and_always (c.place_alike p cur)
  have entered (c : Expr) (p : PlaceContext) := (c.place_marks p).and_always (c.place_alike p true)
  induction s using Stmt.inductOn generalizing b cur with
  | ifThen i c t e ht he =>
    cases e with
    | none =>
      refine ends_placingIf (fun hp => ?_) (fun hp => ?_) Stmt.moveIn_privateIf
      · exact (cond c _ _).bind fun _ => (body t ht b cur).bind fun _ => .pure fun hb hc =>
          .append (.stmt (hc.2.isPrivate.trans hp) hc.1) hb
      · exact (entered c _).bind fun _ => (body t ht _ _).bind fun _ => .pure fun _ hc =>
          .privateIf (hc.2.isPrivate.trans hp) hc.1
    | some e =>
      refine ends_placingIf (fun hp => ?_) (fun hp => ?_) Stmt.moveIn_privateIf
      · exact (cond c _ _).bind fun _ => (body t ht b cur).bind fun _ => (body e (he e rfl) b cur).bind fun _ =>
          .pure fun hd hb hc => .append (.append (.stmt (hc.2.isPrivate.trans hp) hc.1) hb) hd
      · exact (entered c _).bind fun _ => (body t ht _ _).bind fun _ => (body e (he e rfl) _ _).bind fun _ =>
          .pure fun _ _ hc => .privateIf (hc.2.isPrivate.trans hp) hc.1
  | whileLoop i c t hb =>
    exact (c.place_agrees _ cur).bind fun _ => (body t hb b cur).bind fun _ =>
      .pure fun hb hc => .append (.stmt rfl hc) hb
  | doWhile i t c hb =>
    exact (body t hb b cur).bind fun _ => (c.place_agrees _ cur).bind fun _ =>
      .pure fun hc hb => .append (.stmt rfl hb) hc
  | forLoop i a c u t ha hu hb =>
    unfold Stmt.place
    refine .bind (P := fun a' => ∀ s, a' = some s → Node.Agree cur s.nodes) ?_ fun a' =>
      (c.place_agrees _ cur).bind fun c' =>
        .bind (P := fun u' => ∀ s, u' = some s → Node.Agree cur s.nodes) ?_ fun u' =>
          (body t hb b cur).bind fun _ => .pure fun hb hu hc ha => ?_
    · cases a with
      | none => exact .pure nofun
      | some a => exact (ha a rfl b cur).bind fun _ => .pure fun h => by rintro _ ⟨⟩; exact h
    · cases u with
      | none => exact .pure nofun
      | some u => exact (hu u rfl b cur).bind fun _ => .pure fun h => by rintro _ ⟨⟩; exact h
    · unfold Stmt.nodes
      refine .append (.append (.append (.stmt rfl ?_) hc) ?_) hb
      · cases a' with
        | none => exact .nil
        | some s => exact ha s rfl
      · cases u' with
        | none => exact .nil
        | some s => exact hu s rfl
  | block t hb => exact (body t hb b cur).bind fun _ => .pure fun h => h
  | seq i ss x hs => exact (all ss hs b cur).bind fun _ => .pure fun h => .stmt rfl h
  | simple s hs =>
    cases s with
    | ret i e =>
      cases e with
      | none => exact .pure (.stmt rfl .nil)
      | some e => exact (e.place_agrees _ cur).bind fun _ => .pure fun h => .stmt rfl h
    | eval i e | require i e => exact (e.place_agrees _ cur).bind fun _ => .pure fun h => .stmt rfl h
    | assign i l r o x =>
      exact (l.place_agrees _ cur).bind fun _ => (r.place_agrees _ cur).bind fun _ =>
        .pure fun hr hl => .append (.stmt rfl hl) hr
    | declare i v e =>
      have declared {t : AnnTy} (ht : Node.Agree cur t.nodes) : Node.Agree cur { v with type := t }.nodes :=
        .append (.cons rfl ht) (.cons rfl .nil)
      cases e with
      | none =>
        exact (v.type.place_agrees _ cur).bind fun _ => .pure fun ht => .append (.stmt rfl (declared ht)) .nil
      | some e =>
        exact (v.type.place_agrees _ cur).bind fun _ => (e.place_agrees _ cur).bind fun _ =>
          .pure fun he ht => .append (.stmt rfl (declared ht)) he
    | breakLoop | continueLoop | compute | enterKey | comment | blank => exact .pure (.stmt rfl .nil)
    | ifThen | whileLoop | doWhile | forLoop | block | seq => cases hs

theorem Block.place_agrees (b : BodyPlace) (cur : Bool) (t : Block) :
    Ends (fun t' => Node.Agree cur t'.nodes) (t.place b cur) := fun s hs =>
  (Stmt.block t).place_agrees b cur s hs

/-! ## Placing programs -/

theorem ends_mapM {α β : Type} {R : α → β → Prop} {f : α → CheckM β} (h : ∀ a, Ends (R a) (f a)) (xs : List α) :
    Ends (List.Forall₂ R xs) (xs.mapM f) := by
  induction xs with
  | nil =>
    rw [List.mapM_nil]
    exact .pure .nil
  | cons x xs ih =>
    rw [List.mapM_cons]
    exact (h x).bind fun _ => ih.bind fun _ => .pure fun hys hy => .cons hy hys

/-- What placing does to each body, if it does not fail. -/
theorem SourceUnit.place_related {R : FunctionDef → FunctionDef → Prop}
    (hR : ∀ f t, Ends (fun body => R f { f with body := body }) (f.body.place t false)) {u v : SourceUnit} {b : Bool}
    (h : u.place b = (v, none)) : u.Pointwise R v := by
  have visit (f : FunctionDef) (t : BodyPlace) :
      Ends (R f) (do return { f with body := ← f.body.place t false } : CheckM FunctionDef) :=
    (hR f t).bind fun _ => .pure fun h => h
  have contract (c : Contract) (t : FunctionDef → BodyPlace) : Ends (Contract.Pointwise R c) (do
      let constructors ← c.constructors.mapM fun f => do return { f with body := ← f.body.place (t f) false }
      let functions ← c.functions.mapM fun f => do return { f with body := ← f.body.place (t f) false }
      return { c with constructors, functions } : CheckM Contract) := by
    refine (ends_mapM (fun f => visit f _) c.constructors).bind fun _ => ?_
    exact (ends_mapM (fun f => visit f _) c.functions).bind fun _ => .pure fun hf hc => ⟨rfl, rfl, hc, hf⟩
  have all := ends_mapM (fun c : Contract => contract c fun f =>
    ⟨⟨some u.text, some c.name, some f.title, none⟩, false, b⟩) u.contracts ⟨u.symbols, none, []⟩
  obtain ⟨rfl, failure⟩ := Prod.ext_iff.mp h
  exact (all failure).2

end Shroud
