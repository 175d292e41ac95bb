import Shroud.Proofs.ConversionSteps

/-!
# Operators with private values

An operator whose value is private is marked as a private one when its type is found, so that it is evaluated in the
circuit. Parentheses and choices with a public condition are the exceptions: they hand on a value of their operands.

**Converted operands.** The values of a choice are brought to a common type. The casts and new encryptions that this puts
around them or into them change nothing about the operators below (`Expr.coerce_settled`).
-/

namespace Shroud

/-- An operator with a private value is a private one, except for parentheses and choices. -/
def Expr.isSettled : Expr → Bool
  | .call _ (.operator _ .paren _ _ _) (a :: _) _ _ => a.isSettled
  | .call i (.operator _ .ite p _ _) (_ :: a :: b :: _) _ _ =>
    (i.type.getD default).isPublic || p || (a.isSettled && b.isSettled)
  | .call i (.operator _ _ p _ _) _ _ _ => (i.type.getD default).isPublic || p
  | _ => true

/-! ## Conversions -/

section Conversions

variable {k : Option Knowledge} {t : AnnTy} {e x : Expr}

theorem Expr.IsCast.isSettled {u : Ty} (h : IsCast u e x) : x.isSettled = true := by
  cases h <;> rfl

theorem Expr.rehomTo_settled (h : e.rehomTo k t = .ok x) : x.isSettled = true := by
  obtain ⟨_, _, _, rfl⟩ := rehomTo_ok h
  rfl

/-- A value that is brought to another homomorphism is encrypted again somewhere below choices and casts. -/
theorem Expr.ChangesHom.isSettled (h : ChangesHom k t e x) : x.isSettled = true := by
  induction h with
  | again _ _ rehom => exact rehomTo_settled rehom
  | handed | cast => rfl
  | @choice _ _ _ _ _ _ _ _ _ _ x y _ _ _ _ _ first second =>
    show (_ || _ || (x.isSettled && y.isSettled)) = true
    rw [first, second, Bool.and_self, Bool.or_true]

theorem Expr.coercePlain_settled {spot : Spot} (he : e.isSettled = true)
    (h : (e.coercePlain k spot t).result = .ok x) : x.isSettled = true := by
  obtain ⟨_, _, y, -, -, cast, steps⟩ := coercePlain_steps h
  obtain ⟨-, encrypt⟩ | ⟨-, -, rfl⟩ | ⟨-, -, change⟩ := steps
  · obtain ⟨_, _, _, rfl⟩ := reclassifyTo_ok encrypt
    rfl
  · obtain ⟨-, rfl⟩ | ⟨-, cast⟩ := castStep_cases cast
    · exact he
    · exact cast.isSettled
  · exact change.isSettled

/-- Converting a value keeps private operators. -/
theorem Expr.coerce_settled {s : Symbols} {spot : Spot} {nested : Bool} (he : e.isSettled = true)
    (h : (e.coerce s k spot nested t).result = .ok x) : x.isSettled = true := by
  cases converted_of_coerce h with
  | steps h => exact coercePlain_settled he h
  | parts => rfl

end Conversions

/-! ## Operators -/

namespace OpCall

variable {c : CheckContext} {o : OpCall}

theorem typed_settled {t : AnnTy} (hop : o.op ≠ .paren) (h : (t.isPublic || o.isPrivate) = true) :
    (o.typed t).isSettled = true := by
  obtain ⟨i, j, op, p, hom, r, as, n, key⟩ := o
  cases op with
  | paren => exact absurd rfl hop
  | ite =>
    rcases as with _ | ⟨_, _ | ⟨_, _ | ⟨_, _⟩⟩⟩
    · exact h
    · exact h
    · exact h
    · exact (Bool.or_eq_true _ _).mpr (.inl h)
  | _ => exact h

/-- A choice with a public condition between two such values. -/
theorem choice_settled {t : AnnTy} {d a b : Expr} (hop : o.op = .ite) (ha : a.isSettled = true)
    (hb : b.isSettled = true) : ((o.withArgs [d, a, b]).typed t).isSettled = true := by
  obtain ⟨i, j, op, p, hom, r, as, n, key⟩ := o
  cases hop
  show (_ || _ || (a.isSettled && b.isSettled)) = true
  rw [ha, hb, Bool.and_self, Bool.or_true]

theorem ends_coerceAll {ts : List AnnTy} {next : OpCall → CheckM Expr} {P : Expr → Prop}
    (h : ∀ as, Ends P (next (o.withArgs as))) : Ends P (o.coerceAll c ts next) :=
  .withSymbols fun _ => .convertAll fun as _ => h as

theorem ends_coerceAt {n : Nat} {t : AnnTy} {next : OpCall → CheckM Expr} {P : Expr → Prop}
    (h : ∀ a x, o.args[n]? = some a → (a.isSettled = true → x.isSettled = true) →
      Ends P (next (o.withArgs (o.args.set n x)))) : Ends P (o.coerceAt c n t next) := by
  refine .withSymbols fun s => ?_
  cases ha : o.args[n]? with
  | none => exact .fail
  | some a => exact .convert fun x hx => h a x ha fun hs => Expr.coerce_settled hs hx

/-- Parentheses are not checked like other operators. -/
theorem checkOperands_op {e : Expr} {op : Op} {as : List Expr} {u : Unit} (h : checkOperands c e op as = .ok u) :
    op ≠ .paren := by
  rintro rfl
  cases h

theorem typePlain_settled : Ends (fun e => e.isSettled = true) (o.typePlain c) := by
  have finish (o : OpCall) (hop : o.op ≠ .paren) (operands : Combined) (result : Ty) (isPrivate : Bool)
      (h : isPrivate = false ∨ o.isPrivate = true) :
      Ends (fun e => e.isSettled = true) (typePlain.finish c o operands result isPrivate) := by
    have done (as : List Expr) : ((o.withArgs as).typed (result.ownedByMe isPrivate)).isSettled = true := by
      refine typed_settled hop ?_
      rcases h with rfl | h
      · rfl
      · rw [show (o.withArgs as).isPrivate = true from h, Bool.or_true]
    unfold typePlain.finish
    dsimp only
    split
    · split
      · exact ends_coerceAt fun _ _ _ _ => .pure (done _)
      · exact ends_coerceAll fun _ => .pure (done _)
    · exact .pure (done o.args)
  refine .attempt fun _ checked => .attempt fun r _ => ?_
  have hop := checkOperands_op checked
  obtain ⟨operands, result⟩ := r
  dsimp only
  split
  · exact .fail
  · exact .fail
  · split
    · refine .attempt fun _ _ => ?_
      split
      · exact Ends.warn.bind fun _ =>
          (finish { o with isPrivate := true } hop _ _ true (.inr rfl)).imp fun _ h _ => h
      · exact finish { o with isPrivate := true } hop _ _ true (.inr rfl)
    · exact finish o hop _ _ false (.inl rfl)

theorem typeHomomorphic_settled : Ends (fun e => e.isSettled = true) (o.typeHomomorphic c) := by
  refine .attempt fun _ checked => .attempt fun h _ => ?_
  cases h with
  | none => exact .fail
  | some h =>
    let o' := { o with isPrivate := true, hom := h.result.hom, info := { o.info with type := some h.result } }
    exact ends_coerceAll fun as => .pure <|
      typed_settled (o := o'.withArgs as) (t := h.result) (checkOperands_op checked) (Bool.or_true _)

theorem typeChoice_settled (hop : o.op = .ite) :
    Ends (fun e => (∀ a ∈ o.args, a.isSettled = true) → e.isSettled = true) (o.typeChoice c) := by
  -- both values are converted, which leaves a choice between two such values
  have finish (o : OpCall) (hop : o.op = .ite) (d a b : Expr) (has : o.args = [d, a, b]) (t : AnnTy) :
      Ends (fun e => (∀ a ∈ o.args, a.isSettled = true) → e.isSettled = true) (typeChoice.finish c o t) := by
    refine ends_coerceAt fun a' x ha hx => ends_coerceAt fun b' y hb hy => .pure fun hargs => ?_
    obtain ⟨i, j, op, p, hom, r, as, n, key⟩ := o
    cases has
    cases ha
    cases hb
    have first : x.isSettled = true := hx (hargs a (by simp))
    have second : y.isSettled = true := hy (hargs b (by simp))
    exact choice_settled (o := ⟨i, j, op, p, hom, r, [d, a, b], n, key⟩) hop first second
  unfold typeChoice
  split
  · rename_i d a b has
    refine .ensure fun _ => .attempt fun common _ => ?_
    split
    · split
      · exact finish { o with isPrivate := true } hop d a b has _
      · refine .attempt fun owner _ => ?_
        split
        · exact .fail
        · exact finish o hop d a b has _
        · exact .fail
    · exact .fail
  · exact .fail
  · exact .fail

/-- Typing a call of an operator makes it a private one where this is needed. -/
theorem type_settled :
    Ends (fun e => (∀ a ∈ o.args, a.isSettled = true) → e.isSettled = true) (o.type c) := by
  unfold type
  split
  · rename_i a as hop has
    refine .pure fun hargs => ?_
    obtain ⟨i, j, op, p, hom, r, args, n, key⟩ := o
    cases hop
    cases has
    exact hargs a List.mem_cons_self
  · split
    · exact typeHomomorphic_settled.imp fun _ h _ => h
    · split
      · exact typeChoice_settled (eq_of_beq ‹_›)
      · exact typePlain_settled.imp fun _ h _ => h

end OpCall

/-! ## Checking expressions -/

theorem Expr.call_settled {f : Expr} (hf : f.op? = none) (i : Info) (as : List Expr) (o : Int)
    (k : Option CircuitVar) : (Expr.call i f as o k).isSettled = true := by
  cases f with
  | operator => cases hf
  | _ => rfl

theorem typeCall_settled {c : CheckContext} {i : Info} {f : Expr} {as : List Expr} {o : Int} {k : Option CircuitVar} :
    Ends (fun e => (∀ a ∈ as, a.isSettled = true) → e.isSettled = true) (typeCall c i f as o k) := by
  cases hf : f.op? with
  | some op =>
    cases f with
    | operator j op p h r => exact OpCall.type_settled
    | _ => cases hf
  | none =>
    unfold typeCall
    dsimp only
    split
    · cases hf
    · refine .withSymbols fun s => ?_
      split
      · split
        · split
          · exact .fail
          · exact .attempt fun _ _ => .pure fun _ => Expr.call_settled hf _ _ _ _
        · exact .fail
        · exact .fail
      · split
        · split
          · exact .ensure fun _ => .convertAll fun _ _ => .pure fun _ => Expr.call_settled hf _ _ _ _
          · exact .fail
        · exact .fail

theorem typeIdent_settled {c : CheckContext} {i : Info} {n : Ident} {t : Option Ref} :
    Ends (fun e => e.isSettled = true) (typeIdent c (.ident i n t)) := by
  unfold typeIdent
  split
  · exact .pure rfl
  · exact .fail
  · refine .withSymbols fun s => ?_
    split
    · exact .pure rfl
    · exact .fail
  · exact .fail

theorem typeMember_settled {c : CheckContext} {i : Info} {e : Expr} {n : Ident} {t : Option Ref} {name : String} :
    Ends (fun e => e.isSettled = true) (typeMember c (.member i e n t) e name) := by
  unfold typeMember
  split
  · exact .fail
  · refine .ensure fun _ => .withSymbols fun s => ?_
    split
    · exact .pure rfl
    · exact .fail

theorem typeIndex_settled {c : CheckContext} {i : Info} {e k : Expr} {t : Option Ref} :
    Ends (fun e => e.isSettled = true) (typeIndex c i e k t) := by
  refine .ensure fun _ => ?_
  split
  · refine .attempt fun _ _ => .ensure fun _ => ?_
    split
    · exact .pure rfl
    · split
      · exact .fail
      · exact .pure rfl
  · split
    · exact .ensure fun _ => .ensure fun _ => .pure rfl
    · exact .fail

theorem typeReclassify_settled {c : CheckContext} {i : Info} {m : ReclassifyForm} {e p : Expr} {h : Option Hom} :
    Ends (fun e => e.isSettled = true) (typeReclassify c i m e p h) := by
  unfold typeReclassify
  dsimp only
  split
  · exact .fail
  · exact .ensure fun _ => .ensure fun _ => .attempt fun _ _ => .ensure fun _ => .attempt fun _ _ => .pure rfl

mutual

theorem Ty.check_ends (k : Option Knowledge) (spot : Ty → Site) : ∀ t : Ty, Ends (fun _ => True) (t.check k spot)
  | .mapping _ kt _ v => (kt.check_ends k _).bind fun _ => (v.check_ends k _).bind fun _ =>
    (Ends.unlessStopped (P := fun _ => True) (.ensure fun _ => .pure trivial)).imp fun _ _ _ _ => trivial
  | .array v none => (v.check_ends k _).bind fun _ => .pure fun _ => trivial
  | .array v (some n) =>
    (v.check_ends k _).bind fun _ => (n.check_settled _).bind fun _ => .pure fun _ _ => trivial
  | .function ps _ rs => (Param.checkAll_ends k _ [] ps).bind fun _ =>
    (Param.checkAll_ends k _ [] rs).bind fun _ => .pure fun _ _ => trivial
  | .elementary _ | .bool | .boolLit _ | .number | .numLit _ | .integer _ _ | .named _ _ _ | .address _ | .cipher _ _
  | .publicKey _ | .randomness _ | .tuple _ => .pure trivial

theorem AnnTy.check_ends (k : Option Knowledge) (spot : AnnTy → Site) : ∀ t : AnnTy,
    Ends (fun _ => True) (t.check k spot)
  | ⟨t, p, _, _, _⟩ => .unlessStopped <| (t.check_ends k _).bind fun _ => (p.check_settled _).bind fun _ =>
    (Ends.unlessStopped (P := fun _ => True) (.withSymbols fun _ => .attempt fun _ _ => .attempt fun _ _ =>
      .pure trivial)).imp fun _ _ _ _ => trivial

theorem Param.checkAll_ends (k : Option Knowledge) (spot : List Param → Site) : ∀ ds ps : List Param,
    Ends (fun _ => True) (Param.checkAll k spot ds ps)
  | _, [] => .pure trivial
  | _, ⟨_, _, t, _, _, _⟩ :: ps => (t.check_ends k _).bind fun _ =>
    Ends.setType.bind fun _ =>
      (Param.checkAll_ends k spot _ ps).imp fun _ _ _ _ => trivial

theorem Info.checkType_ends (k : Option Knowledge) (spot : Info → Site) : ∀ i : Info,
    Ends (fun _ => True) (i.checkType k spot)
  | ⟨_, _, some t, _, _⟩ => (t.check_ends k _).bind fun _ => .pure fun _ => trivial
  | ⟨_, _, none, _, _⟩ => .pure trivial

/-- In a checked expression operators with private values are private ones. -/
theorem Expr.check_settled (c : CheckContext) : ∀ e : Expr, Ends (fun e => e.isSettled = true) (e.check c)
  | .call _ f as _ _ => .unlessStopped <| (f.check_settled _).bind fun _ =>
    (Expr.checkAll_settled c.knowledge _ [] as).bind fun _ =>
      (Ends.unlessStopped typeCall_settled).imp fun _ h has _ => h (has (List.forall_mem_nil _))
  | .new i as => .unlessStopped <| (i.checkType_ends c.knowledge _).bind fun _ =>
    (Expr.checkAll_settled c.knowledge _ [] as).bind fun _ => .pure fun _ _ => rfl
  | .cast _ t e _ => .unlessStopped <| (t.check_ends c.knowledge _).bind fun _ => (e.check_settled _).bind fun _ =>
    (Ends.unlessStopped (P := fun e => e.isSettled = true) (.attempt fun _ _ => .ensure fun _ => .attempt fun _ _ =>
      .pure rfl)).imp fun _ h _ _ => h
  | .arrayLit _ vs _ => (Expr.checkAll_settled c.knowledge _ [] vs).bind fun _ =>
    .pure fun _ => rfl
  | .tuple _ es => (Expr.checkAll_settled c.knowledge _ [] es).bind fun _ =>
    (Ends.unlessStopped (P := fun e => e.isSettled = true) (.pure rfl)).imp fun _ h _ => h
  | .ident _ _ _ => .unlessStopped typeIdent_settled
  | .member _ e _ _ => (e.check_settled _).bind fun _ => (Ends.unlessStopped typeMember_settled).imp fun _ h _ => h
  | .index _ e k _ => (e.check_settled _).bind fun _ => (k.check_settled _).bind fun _ =>
    (Ends.unlessStopped typeIndex_settled).imp fun _ h _ _ => h
  | .reclassify _ _ e p _ => (e.check_settled _).bind fun _ => (p.check_settled _).bind fun _ =>
    (Ends.unlessStopped typeReclassify_settled).imp fun _ h _ _ => h
  | .me _ => .unlessStopped (.pure rfl)
  | .operator .. | .boolLit .. | .numLit .. | .all _ => .pure rfl

theorem Expr.checkAll_settled (k : Option Knowledge) (spot : List Expr → Site) : ∀ ds es : List Expr,
    Ends (fun es' => (∀ e ∈ ds, e.isSettled = true) → ∀ e ∈ es', e.isSettled = true) (Expr.checkAll k spot ds es)
  | _, [] => .pure id
  | _, e :: es => (e.check_settled _).bind fun _ => (Expr.checkAll_settled k spot _ es).imp fun _ h he hds =>
    h (List.forall_mem_append.mpr ⟨hds, List.forall_mem_singleton.mpr he⟩)

end

/-! ## Calls with several results -/

section Settling

variable (symbols : Symbols)

/-- What settling does at a node. -/
def Expr.settleNode (x : Expr) : Expr :=
  match x with
  | .call _ (.operator _ .paren _ _ _) (a :: _) _ _ =>
    if a.checkedType.type.isTuple then x.withType a.checkedType else x
  | .call _ f _ _ _ =>
    match symbols.callee? f, x.checkedType.type with
    | some g, .tuple _ => x.withType (returnType g.returns)
    | _, _ => x
  | x => x

theorem Expr.settle_all (as : List Expr) :
    Id.run (Expr.bottomUpAll (fun x => pure (x.settleNode symbols)) as) = as.map (Expr.settle symbols) := by
  induction as with
  | nil => rfl
  | cons a as ih => exact congrArg (_ :: ·) ih

theorem Expr.settle_call (i : Info) (f : Expr) (as : List Expr) (o : Int) (k : Option CircuitVar) :
    (Expr.call i f as o k).settle symbols =
      (Expr.call i (f.settle symbols) (as.map (Expr.settle symbols)) o k).settleNode symbols := by
  rw [← settle_all]
  rfl

/-- Settling changes no more of a call than its type. -/
theorem Expr.settleNode_call (i : Info) (f : Expr) (as : List Expr) (o : Int) (k : Option CircuitVar) :
    ∃ j, (Expr.call i f as o k).settleNode symbols = .call j f as o k := by
  unfold settleNode
  split
  · rename_i h
    cases h
    split
    · exact ⟨_, rfl⟩
    · exact ⟨_, rfl⟩
  · rename_i h
    cases h
    split
    · exact ⟨_, rfl⟩
    · exact ⟨_, rfl⟩
  · exact ⟨i, rfl⟩

theorem Expr.settle_op? (e : Expr) : (e.settle symbols).op? = e.op? := by
  cases e with
  | call i f as o k =>
    obtain ⟨j, hj⟩ := settleNode_call symbols i (f.settle symbols) (as.map (Expr.settle symbols)) o k
    rw [settle_call, hj]
    rfl
  | _ => rfl

theorem Expr.settle_settled {e : Expr} (h : e.isSettled = true) : (e.settle symbols).isSettled = true := by
  induction e using Expr.inductOn with
  | call i f as o k hf has =>
    rw [settle_call]
    cases hop : f.op? with
    | none =>
      obtain ⟨j, hj⟩ := settleNode_call symbols i (f.settle symbols) (as.map (Expr.settle symbols)) o k
      rw [hj]
      exact call_settled ((f.settle_op? symbols).trans hop) _ _ _ _
    | some op =>
      cases f with
      | operator j op p hom r =>
        cases op with
        | paren =>
          rcases as with _ | ⟨a, as⟩
          · exact h
          · have inner : (a.settle symbols).isSettled = true := has a List.mem_cons_self h
            show (ite _ _ _ : Expr).isSettled = true
            split
            · exact inner
            · exact inner
        | ite =>
          rcases as with _ | ⟨c, _ | ⟨a, _ | ⟨b, as⟩⟩⟩
          · exact h
          · exact h
          · exact h
          · refine ((Bool.or_eq_true _ _).mp h).elim (fun h => (Bool.or_eq_true _ _).mpr (.inl h)) fun h => ?_
            obtain ⟨ha, hb⟩ := (Bool.and_eq_true _ _).mp h
            refine (Bool.or_eq_true _ _).mpr (.inr ((Bool.and_eq_true _ _).mpr ⟨?_, ?_⟩))
            · exact has a (by simp) ha
            · exact has b (by simp) hb
        | _ => exact h
      | _ => cases hop
  | leaf e hl =>
    cases e with
    | operator | boolLit | numLit | ident | me | all => rfl
    | _ => cases hl
  | _ => rfl

end Settling

end Shroud
