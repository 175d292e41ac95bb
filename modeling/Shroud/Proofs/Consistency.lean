import Shroud.Proofs.Coercions

/-!
# Checked conversions

The check of types leaves expressions in which the type of every conversion follows from that of its operand
(`Expr.check_consistent`). So what is converted later has a plaintext that fits its type.

**Choices.** The two values of a choice are converted to a common type. It is never that of a literal
(`Ty.combine_declared`), so it holds the words of both.
-/

namespace Shroud

/-! ## Common types -/

section Common

variable {t u c : Ty}

/-- Only literals convert to a literal type. -/
theorem Ty.isLiteral_of_convertsTo (h : t.convertsTo u = true) (literal : u.isLiteral = true) : t.isLiteral = true := by
  cases u with
  | boolLit | numLit =>
    cases t with
    | boolLit | numLit => rfl
    | named =>
      obtain ⟨_, _, _, other⟩ := convertsTo_named h
      cases other
    | address =>
      obtain ⟨_, other⟩ := convertsTo_address h
      cases other
    | _ => cases h
  | _ => cases literal

/-- Only tuples convert to tuples. -/
theorem Ty.isTuple_of_convertsTo (h : t.convertsTo u = true) : u.isTuple = t.isTuple := by
  cases t with
  | tuple =>
    obtain ⟨ts, rfl⟩ := convertsTo_tuple h
    rfl
  | named =>
    obtain ⟨_, _, _, rfl⟩ := convertsTo_named h
    rfl
  | address =>
    obtain ⟨_, rfl⟩ := convertsTo_address h
    rfl
  | _ =>
    cases u with
    | tuple => cases h
    | _ => rfl

/-- The wider of two types is one of them. -/
theorem Ty.wider_eq (h : t.wider u = .type c) : c = t ∧ u.convertsTo t = true ∨ c = u ∧ t.convertsTo u = true := by
  unfold wider at h
  split at h
  · cases h
    exact .inl ⟨rfl, ‹_›⟩
  · split at h
    · cases h
      exact .inr ⟨rfl, ‹_›⟩
    · cases h

theorem Ty.wider_isTuple (h : t.wider u = .type c) : c.isTuple = t.isTuple := by
  obtain ⟨rfl, -⟩ | ⟨rfl, converts⟩ := wider_eq h
  · rfl
  · exact isTuple_of_convertsTo converts

/-- A declared type and any other have only declared types in common. -/
theorem Ty.wider_declared (h : t.wider u = .type c) (declared : t.isLiteral = false ∨ u.isLiteral = false) :
    c.isLiteral = false := by
  refine Bool.eq_false_iff.mpr fun literal => ?_
  have both : t.isLiteral = true ∧ u.isLiteral = true := by
    obtain ⟨rfl, converts⟩ | ⟨rfl, converts⟩ := wider_eq h
    · exact ⟨literal, isLiteral_of_convertsTo converts literal⟩
    · exact ⟨isLiteral_of_convertsTo converts literal, literal⟩
  simp [both] at declared

theorem Ty.combine_isTuple (b : Bool) (h : t.combine b u = .type c) : c.isTuple = t.isTuple := by
  cases t with
  | boolLit x =>
    unfold combine at h
    split at h
    · cases b <;> cases h
      rfl
    · exact wider_isTuple h
  | numLit x =>
    unfold combine at h
    split at h
    · cases b with
      | false => cases h
      | true => exact wider_isTuple (t := integerFor x) h
    · exact wider_isTuple h
  | tuple ts =>
    unfold combine at h
    split at h
    · split at h
      · cases h
        rfl
      · cases h
    · cases h
  | _ => exact wider_isTuple h

/-- A common type is no literal one. -/
theorem Ty.combine_declared {b : Bool} (h : t.combine b u = .type c) : c.isLiteral = false := by
  cases t with
  | boolLit x =>
    unfold combine at h
    split at h
    · cases b <;> cases h
      rfl
    · rename_i other
      cases u with
      | boolLit y => exact absurd rfl (other y)
      | numLit => cases h
      | _ => exact wider_declared h (.inr rfl)
  | numLit x =>
    unfold combine at h
    split at h
    · cases b with
      | false => cases h
      | true => exact wider_declared (t := integerFor x) h (.inl rfl)
    · rename_i other
      cases u with
      | numLit y => exact absurd rfl (other y)
      | boolLit => cases h
      | _ => exact wider_declared h (.inr rfl)
  | tuple ts =>
    unfold combine at h
    split at h
    · split at h
      · cases h
        rfl
      · cases h
    · cases h
  | _ => exact wider_declared h (.inl rfl)

end Common

/-! ## Operators -/

section Operators

variable {H : Prop} {I : Symbols → Prop} {c : CheckContext} {k : Option Knowledge} {o : OpCall} {e x : Expr} {t : AnnTy}

/-- A value of a choice that was converted to the type of the choice. -/
theorem Expr.CoercedTo.isBranch {isOpen : Bool} (coerced : e.CoercedTo k x t) (declared : t.type.isLiteral = false)
    (single : isOpen = true → t.type.isTuple = false) : x.checkedType.IsBranch k isOpen t := by
  cases compound : e.checkedType.type.isTuple with
  | true =>
    obtain ⟨ss, type⟩ := Ty.isTuple_iff.mp compound
    obtain ⟨rs, ts, -, type', -⟩ := (AnnTy.coerced_tuple type).mp coerced.type
    refine ⟨fun v _ => ?_, fun visible => ?_⟩
    · rw [type']
      trivial
    · have single := single visible
      rw [type'] at single
      cases single
  | false =>
    have reaches := (AnnTy.coerced_simple compound).mp coerced.type
    exact ⟨fun v hv => hv.of_same reaches.data declared, fun _ => ⟨reaches.hom, reaches.visible, reaches.owner⟩⟩

theorem Expr.consistent_operator {i j : Info} {op : Op} {p : Bool} {h : Hom} {r : Option Expr} {as : List Expr} {n : Int}
    {key : Option CircuitVar} (hop : op ≠ .ite) : (Expr.call i (.operator j op p h r) as n key).Consistent k := by
  cases op with
  | ite => exact absurd rfl hop
  | _ => trivial

namespace OpCall

theorem upholds_coerceAll {ts : List AnnTy} {next : OpCall → CheckM Expr} {P : Expr → Prop}
    (h : ∀ s spot as, (Expr.coerceAll s c.knowledge spot [] o.args ts).2 = .ok as →
      Upholds I H P (next (o.withArgs as))) : Upholds I H P (o.coerceAll c ts next) :=
  .withSymbols fun s => .convertAll fun as has => (h s _ as has).assuming And.left

theorem upholds_coerceAt {n : Nat} {next : OpCall → CheckM Expr} {P : Expr → Prop}
    (h : ∀ s spot a x, o.args[n]? = some a → (a.coerce s c.knowledge spot true t).result = .ok x →
      Upholds I H P (next (o.withArgs (o.args.set n x)))) : Upholds I H P (o.coerceAt c n t next) := by
  refine .withSymbols fun s => ?_
  cases ha : o.args[n]? with
  | none => exact .fail
  | some a => exact .convert fun x hx => (h s _ a x ha hx).assuming And.left

/-- Operators that are no choices. -/
theorem typePlain_consistent (hop : o.op ≠ .ite) : Upholds I H (·.Consistent k) (o.typePlain c) := by
  have finish (o : OpCall) (hop : o.op ≠ .ite) (operands : Combined) (result : Ty) (isPrivate : Bool) :
      Upholds I H (·.Consistent k) (typePlain.finish c o operands result isPrivate) := by
    unfold typePlain.finish
    dsimp only
    split
    · split
      · exact upholds_coerceAt fun _ _ _ _ _ _ => .pure fun _ => Expr.consistent_operator hop
      · exact upholds_coerceAll fun _ _ _ _ => .pure fun _ => Expr.consistent_operator hop
    · exact .pure fun _ => Expr.consistent_operator hop
  refine .attempt fun _ _ => .attempt fun r _ => ?_
  obtain ⟨operands, result⟩ := r
  dsimp only
  split
  · exact .fail
  · exact .fail
  · split
    · refine .attempt fun _ _ => ?_
      split
      · exact Upholds.warn.bind fun _ => (finish { o with isPrivate := true } hop _ _ true).assuming And.left
      · exact finish { o with isPrivate := true } hop _ _ true
    · exact finish o hop _ _ false

theorem typeHomomorphic_consistent : Upholds I H (·.Consistent k) (o.typeHomomorphic c) := by
  refine .attempt fun _ checked => .attempt fun h _ => ?_
  have hop : o.op ≠ .ite := by
    intro choice
    rw [choice] at checked
    cases checked
  cases h with
  | none => exact .fail
  | some h => exact upholds_coerceAll fun _ _ _ _ => .pure fun _ => Expr.consistent_operator hop

/-- Both values of a choice are converted to its type. -/
theorem choice_consistent (apart : IsApart c.knowledge) {d a b : Expr} (hop : o.op = .ite) (has : o.args = [d, a, b])
    (values : H → (a.Sound ∧ a.Consistent c.knowledge) ∧ b.Sound ∧ b.Consistent c.knowledge) (type : H → t.Sound)
    (declared : t.type.isLiteral = false) (single : d.checkedType.isPublic = true → t.type.isTuple = false) :
    Upholds I H (·.Consistent c.knowledge) (typeChoice.finish c o t) := by
  refine upholds_coerceAt fun s _ a' x ha hx => upholds_coerceAt fun s' _ b' y hb hy => .pure fun h => ?_
  obtain ⟨i, j, op, p, hom, r, as, n, key⟩ := o
  cases hop
  cases has
  cases ha
  cases hb
  obtain ⟨⟨soundA, consistentA⟩, soundB, consistentB⟩ := values h
  have first := Expr.coerce_ok apart consistentA soundA (type h) hx
  have second := Expr.coerce_ok apart consistentB soundB (type h) hy
  exact ⟨⟨t, rfl, first.isBranch declared single, second.isBranch declared single⟩, first.consistent, second.consistent⟩

theorem typeChoice_consistent (apart : IsApart c.knowledge) (hop : o.op = .ite)
    (args : H → ∀ a ∈ o.args, a.Sound ∧ a.Consistent c.knowledge) :
    Upholds I H (·.Consistent c.knowledge) (o.typeChoice c) := by
  unfold typeChoice
  split
  · rename_i d a b has
    have values (h : H) : (a.Sound ∧ a.Consistent c.knowledge) ∧ b.Sound ∧ b.Consistent c.knowledge := by
      have args := args h
      rw [has] at args
      exact ⟨args a (by simp), args b (by simp)⟩
    refine .ensure fun _ => .attempt fun common hcommon => ?_
    split
    · rename_i t
      have type (h : H) : t.Sound :=
        Ty.combine?_sound hcommon (values h).1.1.self.checkedType.1 (values h).2.1.self.checkedType.1
      have combined : a.checkedType.type.combine true b.checkedType.type = .type t := by
        unfold Ty.combine? at hcommon
        split at hcommon
        · cases hcommon
        · exact Except.ok.inj hcommon
      have declared := Ty.combine_declared combined
      dsimp only
      split
      · rename_i hidden
        refine choice_consistent (o := { o with isPrivate := true }) apart hop has values
          (fun h => t.annotateWith_sound (type h)) ?_ fun visible => ?_
        · cases t with
          | tuple => rfl
          | _ => exact declared
        · exact absurd hidden (by simp [AnnTy.isPrivate, visible])
      · refine .attempt fun owner howner => ?_
        split
        · exact .fail
        · refine choice_consistent apart hop has values (fun h => ?_) declared fun _ => ?_
          · exact AnnTy.sound_common (type h) (values h).1.1.self.checkedType (values h).2.1.self.checkedType howner
          · -- a value with one owner is no tuple, and neither is what it has in common with another one
            refine (Ty.combine_isTuple true combined).trans (Bool.eq_false_iff.mpr fun compound => ?_)
            obtain ⟨ss, compound⟩ := Ty.isTuple_iff.mp compound
            obtain ⟨_, _, _, many, _⟩ := AnnTy.commonOwner_tuple (s := a.checkedType.withHom _) compound howner
            cases many
        · exact .fail
    · exact .fail
  · exact .fail
  · exact .fail

theorem type_consistent (apart : IsApart c.knowledge) (args : H → ∀ a ∈ o.args, a.Sound ∧ a.Consistent c.knowledge) :
    Upholds I H (·.Consistent c.knowledge) (o.type c) := by
  unfold type
  split
  · rename_i a as hop _
    exact .pure fun _ => Expr.consistent_operator (by rw [hop]; nofun)
  · split
    · exact typeHomomorphic_consistent
    · split
      · exact typeChoice_consistent apart (eq_of_beq ‹_›) args
      · rename_i other
        exact typePlain_consistent fun hop => other (by rw [hop]; rfl)

end OpCall

end Operators

/-! ## Expressions -/

section Checking

variable {H : Prop} {I : Symbols → Prop} {c : CheckContext} {k : Option Knowledge} {i : Info} {e p key : Expr}
  {r : Option Ref}

theorem Upholds.and {α : Type} {P Q : α → Prop} {x : CheckM α} (hx : Upholds I H P x) (hy : Upholds I H Q x) :
    Upholds I H (fun a => P a ∧ Q a) x :=
  ⟨hx.ends, fun hH s hs done => ⟨(hx.holds hH s hs done).1, (hx.holds hH s hs done).2, (hy.holds hH s hs done).2⟩⟩

theorem Expr.consistent_call {f : Expr} (hf : f.op? = none) (as : List Expr) (o : Int) (key : Option CircuitVar) :
    (Expr.call i f as o key).Consistent k := by
  cases f with
  | operator => cases hf
  | _ => trivial

theorem typeIdent_consistent {n : Ident} : Upholds I H (·.Consistent k) (typeIdent c (.ident i n r)) := by
  unfold typeIdent
  split
  · exact .pure fun _ => trivial
  · exact .fail
  · refine .withSymbols fun s => ?_
    split
    · exact .pure fun _ => trivial
    · exact .fail
  · exact .fail

theorem typeMember_consistent {n : Ident} {name : String} :
    Upholds I H (·.Consistent k) (typeMember c (.member i e n r) e name) := by
  unfold typeMember
  split
  · exact .fail
  · refine .ensure fun _ => .withSymbols fun s => ?_
    split
    · exact .pure fun _ => trivial
    · exact .fail

theorem typeIndex_consistent : Upholds I H (·.Consistent k) (typeIndex c i e key r) := by
  refine .ensure fun _ => ?_
  split
  · refine .attempt fun _ _ => .ensure fun _ => ?_
    split
    · exact .pure fun _ => trivial
    · split
      · exact .fail
      · exact .pure fun _ => trivial
  · split
    · exact .ensure fun _ => .ensure fun _ => .pure fun _ => trivial
    · exact .fail

theorem typeReclassify_consistent {m : ReclassifyForm} {h : Option Hom} (inner : H → e.Consistent k) :
    Upholds I H (·.Consistent k) (typeReclassify c i m e p h) := by
  unfold typeReclassify
  dsimp only
  split
  · exact .fail
  · exact .ensure fun _ => .ensure fun _ => .attempt fun _ _ => .ensure fun _ => .attempt fun _ _ => .pure fun known =>
      ⟨⟨_, rfl, rfl⟩, inner known⟩

/-- A cast value is public or belongs to the sender. -/
theorem Expr.castResult_isCast {site : Site} {u : Ty} {t : AnnTy} (h : e.castResult k site u = .ok t) :
    t.IsCast u e.checkedType := by
  unfold castResult at h
  split at h
  · obtain ⟨_, _, h⟩ := except_bind_ok h
    cases h
    exact ⟨rfl, .inl rfl⟩
  · obtain ⟨fit, -, h⟩ := except_bind_ok h
    split at h
    · cases h
    · obtain ⟨_, _, h⟩ := except_bind_ok h
      cases h
      exact ⟨rfl, .inr (.inl rfl)⟩

theorem typeCast_consistent {u : Ty} {b : Bool} (inner : H → e.Consistent k) :
    Upholds I H (·.Consistent k) (typeCast c i u e b) :=
  .attempt fun _ _ => .ensure fun _ => .attempt fun t ht => .pure fun known =>
    ⟨⟨t, rfl, Expr.castResult_isCast ht⟩, inner known⟩

theorem typeCall_consistent (apart : IsApart c.knowledge) {f : Expr} {as : List Expr} {o : Int} {key : Option CircuitVar}
    (args : H → ∀ a ∈ as, a.Sound ∧ a.Consistent c.knowledge) :
    Upholds I H (·.Consistent c.knowledge) (typeCall c i f as o key) := by
  cases hf : f.op? with
  | some op =>
    cases f with
    | operator j op p h r => exact OpCall.type_consistent apart args
    | _ => cases hf
  | none =>
    unfold typeCall
    dsimp only
    split
    · cases hf
    · refine .withSymbols fun s => ?_
      split
      · split
        · split
          · exact .fail
          · exact .attempt fun _ _ => .pure fun _ => Expr.consistent_call hf _ _ _
        · exact .fail
        · exact .fail
      · split
        · split
          · exact .ensure fun _ => .convertAll fun _ _ => .pure fun _ => Expr.consistent_call hf _ _ _
          · exact .fail
        · exact .fail

mutual

/-- In a checked expression the types of conversions follow from those of their operands. -/
theorem Expr.check_consistent {H : Prop} (c : CheckContext) (apart : IsApart c.knowledge) : ∀ e : Expr,
    Node.Fresh e.nodes → Typing H (·.Consistent c.knowledge) (e.check c)
  | .call _ f as _ _, h => by
    obtain ⟨⟨-, hf⟩, has⟩ := Node.fresh_node.mp h
    refine .unlessStopped ((f.check_sound _ hf).bind fun f' => ?_)
    refine (Expr.checkAll_consistent c.knowledge _ apart [] as has nofun).bind fun as' => .unlessStopped ?_
    exact typeCall_consistent apart And.right
  | .new i as, h => by
    obtain ⟨⟨-, hi⟩, has⟩ := Node.fresh_node.mp h
    refine .unlessStopped ((i.checkType_sound c.knowledge _ hi).bind fun i' => ?_)
    exact (Expr.checkAll_sound c.knowledge _ [] as has nofun).bind fun as' => .pure fun _ => trivial
  | .cast i t e b, h => by
    obtain ⟨⟨-, ht⟩, he⟩ := Node.fresh_node.mp h
    refine .unlessStopped ((t.check_sound c.knowledge _ ht).bind fun t' => ?_)
    have inner := e.check_consistent (H := H ∧ t'.Sound) (c.part fun x => .cast i t' x b) apart he
    exact inner.bind fun e' => .unlessStopped (typeCast_consistent And.right)
  | .arrayLit i vs b, h => by
    obtain ⟨-, hvs⟩ := Node.fresh_cons.mp h
    exact (Expr.checkAll_sound c.knowledge _ [] vs hvs nofun).bind fun vs' => .pure fun _ => trivial
  | .tuple i es, h => by
    obtain ⟨-, hes⟩ := Node.fresh_cons.mp h
    refine (Expr.checkAll_consistent c.knowledge _ apart [] es hes nofun).bind fun es' => .unlessStopped (.pure fun known => ?_)
    exact ⟨rfl, Expr.allConsistent_iff.mpr fun e he => (known.2 e he).2⟩
  | .ident _ _ _, _ => .unlessStopped typeIdent_consistent
  | .member _ e _ _, h => by
    obtain ⟨⟨-, he⟩, -⟩ := Node.fresh_node.mp h
    exact (e.check_sound _ he).bind fun e' => .unlessStopped typeMember_consistent
  | .index _ e k _, h => by
    obtain ⟨⟨-, he⟩, hk⟩ := Node.fresh_node.mp h
    exact (e.check_sound _ he).bind fun e' => (k.check_sound _ hk).bind fun k' => .unlessStopped typeIndex_consistent
  | .reclassify i m e p hom, h => by
    obtain ⟨⟨-, he⟩, hp⟩ := Node.fresh_node.mp h
    have inner := e.check_consistent (H := H) (c.part fun x => .reclassify i m x p hom) apart he
    exact inner.bind fun e' => (p.check_sound _ hp).bind fun p' =>
      .unlessStopped (typeReclassify_consistent fun known => known.1.2)
  | .me i, _ => .unlessStopped (.pure fun _ => trivial)
  | .boolLit i v, _ | .numLit i v x, _ | .operator .., _ | .all _, _ => .pure fun _ => trivial

theorem Expr.checkAll_consistent {H : Prop} (k : Option Knowledge) (spot : List Expr → Site) (apart : IsApart k) :
    ∀ ds es : List Expr, Node.Fresh (Expr.nodesAll es) → (H → ∀ e ∈ ds, e.Sound ∧ e.Consistent k) →
    Typing H (fun es' => ∀ e ∈ es', e.Sound ∧ e.Consistent k) (Expr.checkAll k spot ds es)
  | ds, [], _, hds => .pure hds
  | ds, e :: es, h, hds => by
    obtain ⟨he, hes⟩ := Node.fresh_append.mp h
    refine ((e.check_sound _ he).and (e.check_consistent ⟨k, _⟩ apart he)).bind fun e' => ?_
    refine Expr.checkAll_consistent k spot apart _ es hes fun known => ?_
    exact List.forall_mem_append.mpr ⟨hds known.1, List.forall_mem_singleton.mpr known.2⟩

end

end Checking

end Shroud
