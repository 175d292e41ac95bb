import Shroud.Proofs.HomTypes

/-!
# Types of derived values

The check derives the types of operators, casts and values for another owner within the laws of declared types, but for
what may come from the sources (`Expr.check_derived`).

**Operators.** Their operands are brought to a common type, and a private one among them does not take on data that
circuits do not know without a cast. What everybody knows is handed over to the sender on the way, which is checked. The
shifted value is the only operand of its operator that is converted, and it is a narrow one.

**Choices.** With a public condition one of the two values is private if the choice is, so the same goes for it. A
choice with a private condition relies on what is known of its values.
-/

namespace Shroud

/-! ## Operators -/

section Operators

variable {H : Prop} {I : Symbols → Prop} {c : CheckContext} {o : OpCall} {op : Op} {e : Expr} {t u v : Ty}

theorem Expr.grounded_plain : e.Grounded (.plain t) := ⟨nofun, fun differs => absurd rfl differs, shares_public rfl rfl⟩

/-- The law does not depend on what else is noted at the call. -/
theorem Expr.Shares.withInfo {i j : Info} {f : Expr} {as : List Expr} {n : Int} {k : Option CircuitVar} {t : AnnTy}
    (h : (Expr.call i f as n k).Shares t) : (Expr.call j f as n k).Shares t := by
  refine .ofCall ?_
  rintro _ _ _ _ _ rfl
  exact h.operation _ _ _ _ _ _ _ _ _ rfl

/-- The result of an operation that the sender can read. -/
theorem OpCall.grounded_ownedByMe {isPrivate : Bool}
    (h : isPrivate = true → t.isTuple = false → t.isFitting = true ∨ o.expr.isWidened = true) :
    o.expr.Grounded (t.ownedByMe isPrivate) := by
  cases isPrivate with
  | false => exact Expr.grounded_plain
  | true =>
    cases t with
    | tuple => exact Expr.grounded_plain
    | _ => exact ⟨fun _ => h rfl rfl, fun differs => absurd rfl differs, Expr.shares_call rfl⟩

/-- Constants and truth values fit into circuits, and other results have the type of the operands. -/
theorem operandTypes_result {ts : List Ty} {operands : Combined} (h : operandTypes op ts = .ok (operands, some t)) :
    t.isFitting = true ∨ operands = .type t := by
  obtain ⟨common, -, h⟩ := except_bind_ok h
  have folded {r : Ty} (h : foldLiterals op ts = .ok r) : r.isFitting = true := by
    unfold foldLiterals at h
    split at h
    · cases h
    · cases h
      rfl
    · split at h
      · cases h
        simp [Ty.isFitting, Ty.isLiteral]
      · cases h
  split at h
  · obtain ⟨r, hr, h⟩ := except_bind_ok h
    split at h
    · cases h
      exact .inl (folded hr)
    · cases h
      exact .inl (folded hr)
  · cases h
    split
    · exact .inl rfl
    · exact .inr rfl
  · cases h

/-- The common type of operands that are no tuples is the type of one of them. -/
theorem Ty.combine_eq (single : t.isTuple = false) (h : t.combine false u = .type v) : v = t ∨ v = u := by
  have one (h : t.wider u = .type v) : v = t ∨ v = u := (Ty.wider_eq h).imp And.left And.left
  cases t with
  | boolLit | numLit =>
    unfold combine at h
    split at h
    · cases h
    · exact one h
  | tuple => cases single
  | _ => exact one h

/-- Only narrow operands are shifted in the circuit. -/
theorem checkPrivateOperation_shift {as : List Expr} {w : Unit} (shift : op.isShift = true)
    (h : checkPrivateOperation c e op as = .ok w) : ∀ a ∈ as, a.checkedType.type.bits? ≠ some 256 := by
  have narrow : wideOperand? as = none := by
    by_contra wide
    obtain ⟨a, ha⟩ := Option.ne_none_iff_exists'.mp wide
    unfold checkPrivateOperation at h
    rw [ha, shift] at h
    simp only [Bool.or_true, if_true] at h
    repeat' split at h
    all_goals cases h
  intro a ha wide
  refine List.find?_eq_none.mp narrow a ha ?_
  rw [wide]
  rfl

/-- Numbers that are narrower than a word fit into circuits. -/
theorem Ty.isFitting_of_narrow (number : t.convertsTo .number = true) (narrow : t.bits? ≠ some 256) :
    t.isFitting = true := by
  cases t with
  | integer s w =>
    have narrow : ((Ty.integer s w).bits? == some 256) = false := beq_eq_false_iff_ne.mpr narrow
    simp [isFitting, canBePrivate, isPrimitive, narrow]
  | numLit => simp [isFitting, isLiteral]
  | number => exact absurd rfl narrow
  | named =>
    obtain ⟨_, _, _, other⟩ := convertsTo_named number
    cases other
  | address =>
    obtain ⟨_, other⟩ := convertsTo_address number
    cases other
  | _ => cases number

/-- What is shifted in the circuit fits there. -/
theorem OpCall.shifted_fitting (shift : o.op.isShift = true) {e' : Expr} {x y : Unit}
    (numbers : checkOperands c e' o.op o.args = .ok x) (narrow : checkPrivateOperation c e o.op o.args = .ok y)
    {result : Option Ty} (h : operandTypes o.op (o.args.map (·.checkedType.type)) = .ok (.type t, result)) :
    t.isFitting = true := by
  have plain : o.op.isEquality = false ∧ o.op.inputType? = some .number ∧ o.op.arity = 2 := by
    generalize o.op = op at shift
    cases op <;> first | exact ⟨rfl, rfl, rfl⟩ | cases shift
  have number : ∀ a ∈ o.args.take 2, a.checkedType.type.convertsTo .number = true := by
    unfold checkOperands at numbers
    rw [plain.2.1] at numbers
    dsimp only at numbers
    rw [plain.2.2] at numbers
    split at numbers
    · rename_i none
      intro a ha
      simpa [Expr.convertsTo] using List.find?_eq_none.mp none a ha
    · cases numbers
  have operand (a : Expr) (ha : a ∈ o.args.take 2) : a.checkedType.type.isFitting = true :=
    Ty.isFitting_of_narrow (number a ha) (checkPrivateOperation_shift shift narrow a (List.mem_of_mem_take ha))
  obtain ⟨common, hcommon, h⟩ := except_bind_ok h
  have common : common = .type t := by
    split at h
    · obtain ⟨_, -, h⟩ := except_bind_ok h
      rw [plain.1] at h
      cases h
    · cases h
      rfl
    · cases h
  subst common
  rcases has : o.args with _ | ⟨a, _ | ⟨b, rest⟩⟩
  · rw [has] at hcommon
    cases hcommon
  · rw [has] at hcommon operand
    replace hcommon : (if a.checkedType.type.isLiteral then Combined.literal else .type a.checkedType.type) = .type t :=
      Except.ok.inj hcommon
    split at hcommon
    · cases hcommon
    · cases hcommon
      exact operand a List.mem_cons_self
  · rw [has] at hcommon operand
    replace hcommon : Ty.combine? (o.op.isEquality && _) a.checkedType.type b.checkedType.type = .ok (.type t) :=
      hcommon
    rw [plain.1, Bool.false_and] at hcommon
    have single : a.checkedType.type.isTuple = false := by
      have := number a (by rw [has]; exact List.mem_cons_self)
      generalize a.checkedType.type = v at this
      cases v with
      | tuple => cases this
      | _ => rfl
    unfold Ty.combine? at hcommon
    split at hcommon
    · cases hcommon
    · rcases Ty.combine_eq single (Except.ok.inj hcommon) with rfl | rfl
      · exact operand a List.mem_cons_self
      · exact operand b (by simp)

namespace OpCall

theorem expr_derived (args : ∀ a ∈ o.args, a.Derived) (h : ∀ t, o.info.type = some t → o.expr.Grounded t) :
    o.expr.Derived :=
  Expr.each_call.mpr ⟨fun _ => h, (Expr.each_leaf rfl).mpr (Expr.derives_declared rfl), args⟩

theorem typed_derived {t : AnnTy} (args : ∀ a ∈ o.args, a.Derived) (h : o.expr.Grounded t) : (o.typed t).Derived :=
  .withType (fun x hx => expr_derived (o := { o with info := { o.info with type := none } }) args nofun x
    (List.mem_of_mem_tail hx)) fun _ => ⟨h.data, h.hom, h.operands.withInfo⟩

/-- An operator with an operand that was cast. -/
theorem isWidened_expr (h : ∃ a ∈ o.args, a.isWidened = true) : o.expr.isWidened = true := by
  simp [expr, Expr.isWidened, Expr.anyWidened_iff.mpr h]

theorem isRehomed_expr (h : ∃ a ∈ o.args, a.isRehomed = true) : o.expr.isRehomed = true := by
  simp [expr, Expr.isRehomed, Expr.anyRehomed_iff.mpr h]

theorem grounded_args (h : ∀ a ∈ o.args, a.Sound ∧ a.Derived) : ∀ a ∈ o.args, a.Grounded a.checkedType :=
  fun a ha => (h a ha).2.self.grounded (h a ha).1.self

theorem set_derived {as : List Expr} {n : Nat} {x : Expr} (args : ∀ a ∈ as, a.Derived) (hx : x.Derived) :
    ∀ a ∈ as.set n x, a.Derived := fun a ha => (List.mem_or_eq_of_mem_set ha).elim (args a) (· ▸ hx)

theorem typePlain_derived (args : H → ∀ a ∈ o.args, a.Sound ∧ a.Derived) :
    Upholds I H Expr.Derived (o.typePlain c) := by
  have finish (o : OpCall) (operands : Combined) (result : Ty) (isPrivate : Bool)
      (args : H → ∀ a ∈ o.args, a.Sound ∧ a.Derived)
      (hidden : isPrivate = true → ∃ a ∈ o.args, a.checkedType.isPublic = false)
      (results : result.isFitting = true ∨ operands = .type result)
      (shift : isPrivate = true → o.op.isShift = true → ∀ t, operands = .type t → t.isFitting = true) :
      Upholds I H Expr.Derived (typePlain.finish c o operands result isPrivate) := by
    unfold typePlain.finish
    dsimp only
    split
    · rename_i t
      split
      · rename_i shifted
        obtain ⟨shifted, inside⟩ := (Bool.and_eq_true _ _).mp shifted
        refine upholds_coerceAt fun s spot a x ha hx => .pure fun h => typed_derived (set_derived ?_ ?_) ?_
        · exact fun a ha => (args h a ha).2
        · exact Expr.coerce_derived (args h a (List.mem_of_getElem? ha)).2 hx
        · refine grounded_ownedByMe fun _ _ => .inl (results.elim id fun same => ?_)
          cases same
          exact shift inside shifted _ rfl
      · refine upholds_coerceAll fun s spot as has => .pure fun h => typed_derived ?_ ?_
        · exact Expr.coerceAll_derived (fun a ha => (args h a ha).2) has
        · refine grounded_ownedByMe fun inside single => ?_
          cases fitting : result.isFitting with
          | true => exact .inl rfl
          | false =>
            cases results.resolve_left (Bool.eq_false_iff.mp fitting)
            refine .inr (isWidened_expr ?_)
            subst inside
            have type : (result.ownedByMe true).type = result := by
              cases result with
              | tuple => cases single
              | _ => rfl
            refine (Expr.allConverted_of_coerceAll has).isWidened (grounded_args (args h)) (hidden rfl) ?_ ?_
            · rw [type]
              exact single
            · rw [type]
              exact fitting
    · rename_i other
      refine .pure fun h => typed_derived (fun a ha => (args h a ha).2) (grounded_ownedByMe fun _ _ => .inl ?_)
      exact results.resolve_right fun same => other _ same
  refine .attempt fun _ numbers => .attempt fun r types => ?_
  obtain ⟨operands, result⟩ := r
  dsimp only
  split
  · exact .fail
  · exact .fail
  · rename_i result _
    have results := operandTypes_result types
    split
    · rename_i isPrivate
      have hidden : ∃ a ∈ o.args, a.checkedType.isPublic = false := by
        obtain ⟨a, ha, hidden⟩ := List.any_eq_true.mp isPrivate
        exact ⟨a, ha, by simpa [AnnTy.isPrivate] using hidden⟩
      refine .attempt fun _ narrow => ?_
      have inside := finish { o with isPrivate := true } operands result true args (fun _ => hidden) results
        fun _ shift t same => by
          subst same
          exact shifted_fitting (o := o) shift numbers narrow types
      split
      · exact Upholds.warn.bind fun _ => inside.assuming And.left
      · exact inside
    · exact finish o operands result false args (fun inside => by cases inside) results fun inside => by cases inside

/-- The values of a choice are converted to its type. -/
theorem choice_derived {d a b : Expr} {t : AnnTy} (has : o.args = [d, a, b])
    (args : H → ∀ a ∈ o.args, a.Sound ∧ a.Derived)
    (grounded : H → ∀ s s' spot spot' x y, (a.coerce s c.knowledge spot true t).result = .ok x →
      (b.coerce s' c.knowledge spot' true t).result = .ok y → (o.withArgs [d, x, y]).expr.Grounded t) :
    Upholds I H Expr.Derived (typeChoice.finish c o t) := by
  refine upholds_coerceAt fun s spot a' x ha hx => upholds_coerceAt fun s' spot' b' y hb hy => .pure fun h => ?_
  rw [has] at ha
  cases ha
  have parts : o.args.set 1 x = [d, x, b] := by rw [has]; rfl
  replace hb : (o.args.set 1 x)[2]? = some b' := hb
  rw [parts] at hb
  cases hb
  have whole : ((o.args.set 1 x).set 2 y) = [d, x, y] := by rw [parts]; rfl
  have args := args h
  rw [has] at args
  simp only [List.forall_mem_cons] at args
  show ((o.withArgs ((o.args.set 1 x).set 2 y)).typed t).Derived
  rw [whole]
  refine typed_derived ?_ (grounded h s s' spot spot' x y hx hy)
  show ∀ a ∈ [d, x, y], a.Derived
  simp only [List.forall_mem_cons]
  exact ⟨args.1.2, Expr.coerce_derived args.2.1.2 hx,
    Expr.coerce_derived args.2.2.1.2 hy, List.forall_mem_nil _⟩

/-- A choice with a public condition has the owner of one of its values, which has been brought to its type. -/
theorem typeChoice_derived (hop : o.op = .ite) (args : H → ∀ a ∈ o.args, a.Sound ∧ a.Derived) :
    Upholds I H Expr.Derived (o.typeChoice c) := by
  unfold typeChoice
  split
  · rename_i d a b has
    refine .ensure fun _ => .attempt fun common hcommon => ?_
    split
    · rename_i t
      split
      · refine choice_derived (o := { o with isPrivate := true }) has args fun _ _ _ _ _ _ _ _ _ => ?_
        show Expr.Grounded _ (t.ownedByMe true)
        refine grounded_ownedByMe fun _ _ => .inr ?_
        simp [expr, withArgs, Expr.isWidened, hop]
      · refine .attempt fun owner howner => ?_
        split
        · exact .fail
        · rename_i p
          have combined : a.checkedType.type.combine true b.checkedType.type = .type t := by
            unfold Ty.combine? at hcommon
            split at hcommon
            · cases hcommon
            · exact Except.ok.inj hcommon
          have declared : t.isLiteral = false := Ty.combine_declared combined
          have single : t.isTuple = false := by
            refine (Ty.combine_isTuple true combined).trans (Bool.eq_false_iff.mpr fun compound => ?_)
            obtain ⟨ss, compound⟩ := Ty.isTuple_iff.mp compound
            obtain ⟨_, _, _, many, _⟩ := AnnTy.commonOwner_tuple (s := a.checkedType.withHom _) compound howner
            cases many
          refine choice_derived has args fun h s s' spot spot' x y hx hy => ?_
          have parts := args h
          simp only [has, List.forall_mem_cons] at parts
          obtain ⟨-, ⟨soundA, derivedA⟩, ⟨soundB, derivedB⟩, -⟩ := parts
          -- The private one of the two values is known to have been converted.
          have either {P : Expr → Prop} (hidden : p.isAll = false)
              (h : ∀ (e z : Expr) (s : Symbols) (spot : Spot), e.Grounded e.checkedType →
                e.checkedType.isPublic = false → (e.coerce s c.knowledge spot true (.owned t p (if p.isAll then .nonHomomorphic else
                  commonHom c.knowledge a b))).result = .ok z → P z) : P x ∨ P y := by
            rcases AnnTy.commonOwner_eq howner with rfl | rfl
            · exact .inl (h a x s spot (derivedA.self.grounded soundA.self) hidden hx)
            · exact .inr (h b y s' spot' (derivedB.self.grounded soundB.self) hidden hy)
          have among {P : Expr → Prop} (h : P x ∨ P y) : ∃ z ∈ [d, x, y], P z :=
            h.elim (⟨x, by simp, ·⟩) (⟨y, by simp, ·⟩)
          have choice : (o.withArgs [d, x, y]).expr.Shares (.owned t p (if p.isAll then .nonHomomorphic else
              commonHom c.knowledge a b)) := by
            obtain ⟨_, _, op, _⟩ := o
            cases hop
            exact Expr.shares_neutral (.inr rfl)
          refine ⟨fun hidden => ?_, fun homomorphic => ?_, choice⟩
          · cases fitting : t.isFitting with
            | true => exact .inl fitting
            | false =>
              exact .inr (isWidened_expr (among (either hidden fun e z s spot grounded visible hz =>
                (Expr.converted_of_coerce hz).isWidened grounded visible single fitting)))
          · have hidden : p.isAll = false := Bool.eq_false_iff.mpr fun visible => homomorphic (if_pos visible)
            by_cases small : t.notHomomorphic? = none
            · exact .inl small
            · cases resolved : t.isUnresolved with
              | true => exact .inr (.inl resolved)
              | false =>
                exact .inr (.inr (isRehomed_expr (among (either hidden fun e z s spot grounded visible hz =>
                  Expr.coerce_rehomed grounded visible single declared resolved homomorphic small hz))))
        · exact .fail
    · exact .fail
  · exact .fail
  · exact .fail

theorem typeHomomorphic_derived (args : H → ∀ a ∈ o.args, a.Sound ∧ a.Derived) :
    Upholds I H Expr.Derived (o.typeHomomorphic c) := by
  refine .attempt fun _ numbers => .attempt fun h hh => ?_
  cases h with
  | none => exact .fail
  | some h =>
    have hom := Op.homOperation_additive hh
    refine upholds_coerceAll fun s spot as has => .pure fun known => expr_derived ?_ fun t ht =>
      ⟨fun _ => .inr ?_, fun _ => ?_, ?_⟩
    · exact Expr.coerceAll_derived (fun a ha => (args known a ha).2) has
    · simp [expr, withArgs, Expr.isWidened, hom]
    · exact .inr (.inr (by simp [expr, withArgs, Expr.isRehomed, hom]))
    · cases ht
      have operates := Op.operates hh
      exact operates.shares (operates.single numbers) (grounded_args (args known)) (Expr.allConverted_of_coerceAll has)

theorem type_derived (args : H → ∀ a ∈ o.args, a.Sound ∧ a.Derived) : Upholds I H Expr.Derived (o.type c) := by
  unfold type
  split
  · rename_i a as parens has
    refine .pure fun h => typed_derived (fun a ha => (args h a ha).2) ?_
    have first : a ∈ o.args := has ▸ List.mem_cons_self
    have grounded := grounded_args (args h) a first
    exact ⟨fun hidden => (grounded.data hidden).imp_right fun widened => isWidened_expr ⟨a, first, widened⟩,
      fun differs => (grounded.hom differs).imp_right (.imp_right fun rehomed => isRehomed_expr ⟨a, first, rehomed⟩),
      Expr.shares_neutral (.inl parens)⟩
  · split
    · exact typeHomomorphic_derived args
    · split
      · exact typeChoice_derived (eq_of_beq ‹_›) args
      · exact typePlain_derived args

end OpCall

end Operators

/-! ## Expressions -/

section Checking

variable {H : Prop} {I : Symbols → Prop} {c : CheckContext} {i : Info} {e p key : Expr} {r : Option Ref}

theorem typeIdent_derived {n : Ident} : Upholds I H Expr.Derived (typeIdent c (.ident i n r)) := by
  have leaf (j : Info) : (Expr.ident j n r).Derived := (Expr.each_leaf rfl).mpr (Expr.derives_declared rfl)
  unfold typeIdent
  split
  · exact .pure fun _ => leaf i
  · exact .fail
  · refine .withSymbols fun s => ?_
    split
    · exact .pure fun _ => leaf _
    · exact .fail
  · exact .fail

theorem typeMember_derived {n : Ident} {name : String} (base : H → e.Derived) :
    Upholds I H Expr.Derived (typeMember c (.member i e n r) e name) := by
  unfold typeMember
  split
  · exact .fail
  · refine .ensure fun _ => .withSymbols fun s => ?_
    split
    · exact .pure fun known => Expr.each_member.mpr ⟨Expr.derives_declared rfl, base known.1⟩
    · exact .fail

theorem typeIndex_derived (sound : H → e.Sound) (base : H → e.Derived) (index : H → key.Derived) :
    Upholds I H Expr.Derived (typeIndex c i e key r) := by
  have whole {e : Expr} (j : Info) (base : e.Derived) (index : key.Derived) : (Expr.index j e key r).Derived :=
    Expr.each_index.mpr ⟨Expr.derives_declared rfl, base, index⟩
  refine .ensure fun visible => ?_
  split
  · rename_i m kt label v container
    refine .attempt fun _ _ => .ensure fun _ => ?_
    split
    · exact .pure fun h => whole _ (base h) (index h)
    · split
      · exact .fail
      · rename_i l hl
        refine .pure fun h => whole _ (.withType (fun x hx => base h x (List.mem_of_mem_tail hx)) fun _ => ?_) (index h)
        have visible : (e.checkedType.instantiate m (l, key.id)).isPublic = true := by
          rw [AnnTy.instantiate_isPublic]
          exact visible
        have plain : (e.checkedType.instantiate m (l, key.id)).hom = .nonHomomorphic := by
          rw [AnnTy.instantiate_hom]
          exact (sound h).self.checkedType.2.plain ‹_›
        exact ⟨fun hidden => (nomatch visible.symm.trans hidden), fun differs => absurd plain differs,
          Expr.shares_public plain visible⟩
  · split
    · exact .ensure fun _ => .ensure fun _ => .pure fun h => whole _ (base h) (index h)
    · exact .fail

theorem typeReclassify_derived {m : ReclassifyForm} {hom : Option Hom} (value : H → e.Derived) (owner : H → p.Derived) :
    Upholds I H Expr.Derived (typeReclassify c i m e p hom) := by
  unfold typeReclassify
  dsimp only
  split
  · exact .fail
  · refine .ensure fun _ => .ensure fun _ => .attempt fun _ _ => .ensure fun _ => .attempt fun _ checked =>
      .pure fun h => ?_
    refine Expr.each_reclassify.mpr ⟨fun _ t ht => ?_, value h, owner h⟩
    cases ht
    exact Expr.grounded_reclassify (fun hidden => .inl (checkPrivateType_ok checked hidden)) fun everybody => everybody

/-- What is cast explicitly is not homomorphic. -/
theorem Expr.castResult_grounded {k : Option Knowledge} {site : Site} {u : Ty} {t : AnnTy} {x : Expr}
    (h : e.castResult k site u = .ok t) (widened : u.isFitting = true ∨ x.isWidened = true)
    (cast : ∀ t : AnnTy, t.hom = .nonHomomorphic → x.Shares t) : x.Grounded t := by
  unfold castResult at h
  split at h
  · obtain ⟨_, _, h⟩ := except_bind_ok h
    cases h
    exact grounded_plain
  · obtain ⟨fit, -, h⟩ := except_bind_ok h
    split at h
    · cases h
    · obtain ⟨_, _, h⟩ := except_bind_ok h
      cases h
      exact ⟨fun _ => widened, fun differs => absurd rfl differs, cast _ rfl⟩

theorem typeCast_derived {u : Ty} {b : Bool} (value : H → e.Derived) :
    Upholds I H Expr.Derived (typeCast c i u e b) := by
  refine .attempt fun _ _ => .ensure fun _ => .attempt fun r hr => .pure fun h => ?_
  refine .withType (value h) fun _ => Expr.castResult_grounded hr ?_ fun _ _ => Expr.shares_cast
  cases fits : u.canBePrivate with
  | true => exact .inl (by simp [Ty.isFitting, fits])
  | false => exact .inr (by simp [Expr.withType, Expr.mapInfo, Expr.isWidened, fits])

theorem typeCall_derived {f : Expr} {as : List Expr} {o : Int} {k : Option CircuitVar} (func : H → f.Derived)
    (args : H → ∀ a ∈ as, a.Sound ∧ a.Derived) : Upholds I H Expr.Derived (typeCall c i f as o k) := by
  have parts {as : List Expr} (func : f.Derived) (args : ∀ a ∈ as, a.Derived) :
      ∀ x ∈ (Expr.call i f as o k).subexprs.tail, x.Derives :=
    List.forall_mem_append.mpr ⟨func, Expr.each_all.mpr args⟩
  unfold typeCall
  dsimp only
  split
  · exact OpCall.type_derived args
  · rename_i other
    have widened (j : Info) (as : List Expr) :
        (Expr.call j f as o k).isWidened = (Expr.call i f as o k).isCastCall := by
      cases f with
      | operator => exact (other _ _ _ _ _ rfl).elim
      | _ => rfl
    refine .withSymbols fun s => ?_
    split
    · rename_i cast
      split
      · split
        · exact .fail
        · refine .attempt fun r hr => .pure fun h =>
            .withType (parts (func h.1) fun a ha => (args h.1 a ha).2) fun _ => ?_
          exact Expr.castResult_grounded hr (.inr ((widened _ _).trans cast)) fun _ =>
            Expr.shares_call
      · exact .fail
      · exact .fail
    · rename_i plain
      split
      · split
        · refine .ensure fun _ => .convertAll fun bs hbs => .pure fun h =>
            .withType (parts (func h.1) ?_) fun derived => ?_
          · exact Expr.coerceAll_derived (fun a ha => (args h.1 a ha).2) hbs
          · refine absurd ?_ plain
            cases f with
            | operator => exact (other _ _ _ _ _ rfl).elim
            | _ => exact derived
        · exact .fail
      · exact .fail

mutual

/-- The types found in an expression are derived within the laws. -/
theorem Expr.check_derived {H : Prop} (c : CheckContext) : ∀ e : Expr, Node.Fresh e.nodes →
    Typing H Expr.Derived (e.check c)
  | .call _ f as _ _, h => by
    obtain ⟨⟨-, hf⟩, has⟩ := Node.fresh_node.mp h
    refine .unlessStopped ((f.check_derived _ hf).bind fun f' => ?_)
    refine (Expr.checkAll_derived c.knowledge _ [] as has nofun).bind fun as' => .unlessStopped ?_
    exact typeCall_derived (fun known => known.1.2) And.right
  | .new i as, h => by
    obtain ⟨⟨-, hi⟩, has⟩ := Node.fresh_node.mp h
    refine .unlessStopped ((i.checkType_sound c.knowledge _ hi).bind fun i' => ?_)
    refine (Expr.checkAll_derived c.knowledge _ [] as has nofun).bind fun as' => .pure fun known => ?_
    exact Expr.each_new.mpr ⟨Expr.derives_declared rfl, fun a ha => (known.2 a ha).2⟩
  | .cast _ t e _, h => by
    obtain ⟨⟨-, ht⟩, he⟩ := Node.fresh_node.mp h
    refine .unlessStopped ((t.check_sound c.knowledge _ ht).bind fun t' => (e.check_derived _ he).bind fun e' => ?_)
    exact .unlessStopped (typeCast_derived And.right)
  | .arrayLit i vs b, h => by
    obtain ⟨-, hvs⟩ := Node.fresh_cons.mp h
    refine (Expr.checkAll_derived c.knowledge _ [] vs hvs nofun).bind fun vs' => .pure fun known => ?_
    exact Expr.each_arrayLit.mpr ⟨Expr.derives_declared rfl, fun a ha => (known.2 a ha).2⟩
  | .tuple i es, h => by
    obtain ⟨-, hes⟩ := Node.fresh_cons.mp h
    refine (Expr.checkAll_derived c.knowledge _ [] es hes nofun).bind fun es' => .unlessStopped (.pure fun known => ?_)
    exact Expr.each_tuple.mpr ⟨Expr.derives_declared rfl, fun a ha => (known.2 a ha).2⟩
  | .ident _ _ _, _ => .unlessStopped typeIdent_derived
  | .member _ e _ _, h => by
    obtain ⟨⟨-, he⟩, -⟩ := Node.fresh_node.mp h
    exact (e.check_derived _ he).bind fun e' => .unlessStopped (typeMember_derived And.right)
  | .index _ e k _, h => by
    obtain ⟨⟨-, he⟩, hk⟩ := Node.fresh_node.mp h
    exact ((e.check_sound _ he).and (e.check_derived _ he)).bind fun e' => (k.check_derived _ hk).bind fun k' =>
      .unlessStopped (typeIndex_derived (fun known => known.1.2.1) (fun known => known.1.2.2) And.right)
  | .reclassify _ _ e p _, h => by
    obtain ⟨⟨-, he⟩, hp⟩ := Node.fresh_node.mp h
    exact (e.check_derived _ he).bind fun e' => (p.check_derived _ hp).bind fun p' =>
      .unlessStopped (typeReclassify_derived (fun known => known.1.2) And.right)
  | .me i, _ => .unlessStopped (.pure fun _ => (Expr.each_leaf rfl).mpr (Expr.derives_declared rfl))
  | .boolLit .., _ | .numLit .., _ | .operator .., _ | .all _, _ => .pure fun _ =>
    (Expr.each_leaf rfl).mpr (Expr.derives_declared rfl)

theorem Expr.checkAll_derived {H : Prop} (k : Option Knowledge) (spot : List Expr → Site) : ∀ ds es : List Expr,
    Node.Fresh (Expr.nodesAll es) → (H → ∀ e ∈ ds, e.Sound ∧ e.Derived) →
    Typing H (fun es' => ∀ e ∈ es', e.Sound ∧ e.Derived) (Expr.checkAll k spot ds es)
  | ds, [], _, hds => .pure hds
  | ds, e :: es, h, hds => by
    obtain ⟨he, hes⟩ := Node.fresh_append.mp h
    refine ((e.check_sound _ he).and (e.check_derived _ he)).bind fun e' => ?_
    refine Expr.checkAll_derived k spot _ es hes fun known => ?_
    exact List.forall_mem_append.mpr ⟨hds known.1, List.forall_mem_singleton.mpr known.2⟩

end

end Checking

/-! ## Sound and derived types -/

/-- The types of an expression and of all expressions below it are sound and derived within the laws. -/
def Expr.Lawful (e : Expr) : Prop := ∀ x ∈ e.subexprs, x.HasSound ∧ x.Derives

section Lawful

variable {s : Symbols} {k : Option Knowledge} {nested : Bool} {e x : Expr} {t : AnnTy}

theorem Expr.lawful_iff : e.Lawful ↔ e.Sound ∧ e.Derived :=
  ⟨fun h => ⟨fun x hx => (h x hx).1, fun x hx => (h x hx).2⟩, fun h x hx => ⟨h.1 x hx, h.2 x hx⟩⟩

theorem Expr.Lawful.sound (h : e.Lawful) : e.Sound := (lawful_iff.mp h).1

theorem Expr.Lawful.derived (h : e.Lawful) : e.Derived := (lawful_iff.mp h).2

theorem Expr.Lawful.grounded (h : e.Lawful) : e.Grounded e.checkedType := h.derived.self.grounded h.sound.self

/-- Giving an expression another type. -/
theorem Expr.Lawful.withType (h : e.Lawful) (ht : t.Sound) (declared : e.isDerived = false → t.Declarable)
    (derived : e.isDerived = true → (e.withType t).Grounded t) (keyword : e.label? ≠ some .all) :
    (e.withType t).Lawful :=
  lawful_iff.mpr ⟨.withType (fun x hx => h.sound x (List.mem_of_mem_tail hx)) ht declared keyword,
    .withType (fun x hx => h.derived x (List.mem_of_mem_tail hx)) derived⟩

theorem Expr.check_lawful {H : Prop} (c : CheckContext) (e : Expr) (fresh : Node.Fresh e.nodes) :
    Typing H Expr.Lawful (e.check c) :=
  ((e.check_sound c fresh).and (e.check_derived c fresh)).imp fun _ _ => lawful_iff.mpr

theorem Expr.coerce_lawful {spot : Spot} (he : e.Lawful) (ht : t.Sound)
    (h : (e.coerce s k spot nested t).result = .ok x) : x.Lawful :=
  lawful_iff.mpr ⟨coerce_sound he.sound ht h, coerce_derived he.derived h⟩

theorem Expr.coerceAll_lawful {spot : List Expr → Site} {ds es xs : List Expr} {ts : List AnnTy}
    (he : ∀ e ∈ es, e.Lawful) (ht : ∀ t ∈ ts, t.Sound) (h : (Expr.coerceAll s k spot ds es ts).2 = .ok xs) :
    ∀ x ∈ xs, x.Lawful := fun x hx => lawful_iff.mpr
  ⟨coerceAll_sound (fun e h => (he e h).sound) ht h x hx,
    coerceAll_derived (fun e h => (he e h).derived) h x hx⟩

theorem Expr.lawful_tuple {i : Info} {es : List Expr} (he : ∀ e ∈ es, e.Lawful)
    (h : i.type = some (.plain (.tuple (es.map Expr.checkedType)))) : (Expr.tuple i es).Lawful := by
  have whole := AnnTy.written_tuple (List.forall_mem_map.mpr fun x hx => (he x hx).sound.self.checkedType)
  refine each_tuple.mpr ⟨⟨⟨fun t ht => ?_, fun label => by cases label⟩, derives_declared rfl⟩, he⟩
  cases h.symm.trans ht
  exact ⟨whole.sound, fun _ => whole.declarable⟩

end Lawful

end Shroud
