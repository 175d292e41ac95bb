import Shroud.Proofs.Ciphertexts
import Shroud.Proofs.Consistency
import Shroud.Proofs.ExactValues
import Shroud.Proofs.Operators
import Shroud.Proofs.Sketch
import Shroud.Split.CircuitExpr

/-!
# Folded constants

An operator on literals gets a literal type, whose value the circuit uses in place of the whole expression. Public code
shows the expression as it is written and computes the value on its own (`Op.publicValue?`).

**Formulas.** What counts of a constant expression are its literals and operators (`Expr.formula`). Conversions that the
check puts in are not written in public code and leave the formula alone (`Expr.coerce_formula`).

**Rounding.** Folding rounds a quotient down, public code towards zero, so a formula in which folding rounds down need
not have the folded value (`halfBelow_seven_differs`).

**Results.**

* `Formula.Folds.apply`: an operator on operands that fold is a formula that folds.
* `OpCall.type_keepsValue`: an operator gets the type of a literal only from operands that have one.
* `Expr.check_folds`: if the check finds a literal type for a constant expression, this folds to the value of the
  literal. Every operator in it agrees with public code unless it rounds down; if none does, the literal is the value of
  the whole expression in public code.
-/

namespace Shroud

/-! ## Formulas -/

/-- Literals under operators; `onCiphers` tells whether an operator works on ciphertexts. -/
inductive Formula where
  | value (v : Value)
  | apply (op : Op) (onCiphers : Bool) (args : List Formula)
  | other

namespace Formula

mutual

/-- The value of a formula, given the values of operators. -/
def eval (run : Op → List Value → Option Value) : Formula → Option Value
  | .value v => some v
  | .apply op _ φs => (evalAll run φs).bind (run op)
  | .other => none

def evalAll (run : Op → List Value → Option Value) : List Formula → Option (List Value)
  | [] => some []
  | φ :: φs => (eval run φ).bind fun v => (evalAll run φs).map (v :: ·)

end

mutual

/-- Nothing is computed on ciphertexts. -/
def isPlain : Formula → Bool
  | .apply _ c φs => !c && arePlain φs
  | _ => true

def arePlain : List Formula → Bool
  | [] => true
  | φ :: φs => φ.isPlain && arePlain φs

end

mutual

/-- Folding rounds down somewhere in the formula. -/
def roundsDown : Formula → Bool
  | .apply op _ φs => (evalAll Op.folded? φs).any op.roundsDown || roundDown φs
  | _ => false

def roundDown : List Formula → Bool
  | [] => false
  | φ :: φs => φ.roundsDown || roundDown φs

end

mutual

/-- The formula and everything in it. -/
def parts : Formula → List Formula
  | .apply op c φs => .apply op c φs :: partsAll φs
  | φ => [φ]

def partsAll : List Formula → List Formula
  | [] => []
  | φ :: φs => φ.parts ++ partsAll φs

end

/-- On the folded values of its operands, the outermost operator gives its folded value in public code, too, if and only
if it does not round down. -/
def Agrees : Formula → Prop
  | .apply op _ φs => ∃ vs v w, evalAll Op.folded? φs = some vs ∧ op.publicValue? vs = some v ∧ op.folded? vs = some w ∧
      (v = w ↔ op.roundsDown vs = false)
  | _ => True

/-- The formula folds to the value. So it does in public code, unless something in it rounds down; and every operator in
it agrees with public code unless it rounds down itself. -/
structure Folds (φ : Formula) (w : Value) : Prop where
  folded : φ.eval Op.folded? = some w
  exact : φ.roundsDown = false → φ.eval Op.publicValue? = some w
  agree : ∀ ψ ∈ φ.parts, ψ.Agrees

variable {φs : List Formula} {vs : List Value} {op : Op} {w : Value}

theorem Folds.value (v : Value) : (Formula.value v).Folds v := by
  refine ⟨rfl, fun _ => rfl, fun ψ hψ => ?_⟩
  rw [List.mem_singleton.mp hψ]
  trivial

theorem Folds.all (h : List.Forall₂ Folds φs vs) : evalAll Op.folded? φs = some vs ∧
    (roundDown φs = false → evalAll Op.publicValue? φs = some vs) ∧ ∀ ψ ∈ partsAll φs, ψ.Agrees := by
  induction h with
  | nil => exact ⟨rfl, fun _ => rfl, nofun⟩
  | cons first _ ih =>
    obtain ⟨folded, exact, agree⟩ := ih
    refine ⟨?_, fun no => ?_, List.forall_mem_append.mpr ⟨first.agree, agree⟩⟩
    · rw [evalAll, first.folded, folded]
      rfl
    · obtain ⟨no, rest⟩ := Bool.or_eq_false_iff.mp no
      rw [evalAll, first.exact no, exact rest]
      rfl

/-- An operator on operands that fold. -/
theorem Folds.apply (args : List.Forall₂ Folds φs vs) (typed : op.Takes vs) (choice : op ≠ .ite)
    (h : op.eval vs = .ok w) (c : Bool) : (Formula.apply op c φs).Folds w := by
  obtain ⟨folded, exact, agree⟩ := Folds.all args
  obtain ⟨v, hv, same⟩ := Op.exact_of_eval typed choice h
  have value : op.folded? vs = some w := by
    rw [Op.folded?, h]
    rfl
  refine ⟨?_, fun no => ?_, List.forall_mem_cons.mpr ⟨⟨vs, v, w, folded, hv, value, same⟩, agree⟩⟩
  · rw [eval, folded, Option.bind_some, value]
  · rw [roundsDown, folded, Option.any_some] at no
    obtain ⟨no, rest⟩ := Bool.or_eq_false_iff.mp no
    rw [eval, exact rest, Option.bind_some, hv, same.mpr no]

end Formula

mutual

/-- What counts of a constant expression, as public code shows it. -/
def Expr.formula : Expr → Formula
  | .boolLit _ b => .value (.bool b)
  | .numLit _ v _ => .value (.int v)
  | .call _ (.operator _ op _ h _) as _ _ => .apply op (h != .nonHomomorphic) (Expr.formulas as)
  | .cast _ _ e true => e.formula
  | .reclassify _ _ e _ _ => e.formula
  | _ => .other

def Expr.formulas : List Expr → List Formula
  | [] => []
  | e :: es => e.formula :: Expr.formulas es

end

theorem Expr.formulas_eq (es : List Expr) : Expr.formulas es = es.map Expr.formula := by
  induction es with
  | nil => rfl
  | cons e es ih => rw [formulas, ih, List.map_cons]

/-! ## Conversions -/

section Conversions

variable {k : Option Knowledge} {t : AnnTy} {e x : Expr}

theorem Expr.formula_withType (e : Expr) (t : AnnTy) : (e.withType t).formula = e.formula := by
  cases e with
  | call i f => cases f <;> rfl
  | cast i u e b => cases b <;> rfl
  | _ => rfl

theorem Expr.rehomTo_formula (h : e.rehomTo k t = .ok x) : x.formula = e.formula := by
  obtain ⟨_, _, _, rfl⟩ := rehomTo_ok h
  rfl

theorem Expr.IsCast.formula {u : Ty} (h : IsCast u e x) : x.formula = e.formula := by
  induction h with
  | around => rfl
  | inside _ _ ih => exact ih

theorem Expr.ChangesHom.formula (h : ChangesHom k t e x) : x.formula = e.formula := by
  induction h with
  | again _ _ rehom => exact rehomTo_formula rehom
  | handed => rfl
  | @cast _ _ _ _ b _ _ _ ih =>
    rw [retyped, formula_withType]
    cases b with
    | true => exact ih
    | false => rfl
  | choice _ _ _ _ first second =>
    rw [retyped, formula_withType]
    simp only [Expr.formula, formulas, first, second]

theorem Expr.coercePlain_formula {spot : Spot} (h : (e.coercePlain k spot t).result = .ok x) : x.formula = e.formula := by
  obtain ⟨_, _, y, -, -, cast, steps⟩ := coercePlain_steps h
  have cast : y.formula = e.formula := by
    obtain ⟨-, rfl⟩ | ⟨-, cast⟩ := castStep_cases cast
    · rfl
    · exact cast.formula
  obtain ⟨-, encrypt⟩ | ⟨-, -, rfl⟩ | ⟨-, -, change⟩ := steps
  · obtain ⟨_, _, _, rfl⟩ := reclassifyTo_ok encrypt
    exact cast
  · exact cast
  · exact change.formula.trans cast

theorem Expr.Converted.formula (h : Converted k e t x) : x.formula = e.formula := by
  cases h with
  | steps h => exact coercePlain_formula h
  | parts => rfl

theorem Expr.AllConverted.formulas {k : Option Knowledge} : ∀ {es xs : List Expr} {ts : List AnnTy},
    AllConverted k es ts xs → es.length = ts.length → Expr.formulas xs = Expr.formulas es
  | _, _, _, .noValues, _ => rfl
  | _, _, _, .noTypes, length => nomatch length
  | _, _, _, .cons first rest, length => congrArg₂ List.cons first.formula (rest.formulas (Nat.succ.inj length))

/-- A conversion leaves the formula alone. -/
theorem Expr.coerce_formula {s : Symbols} {spot : Spot} {nested : Bool}
    (h : (e.coerce s k spot nested t).result = .ok x) : x.formula = e.formula := (converted_of_coerce h).formula

end Conversions

/-! ## Operators -/

/-- If nothing in the expression is computed on ciphertexts and its type is that of a literal, it folds to the value of
that literal. -/
def Expr.Folded (e : Expr) : Prop :=
  e.formula.isPlain = true → ∀ w, e.checkedType.type.literal? = some w → e.formula.Folds w

theorem Ty.isLiteral_of_literal? {t : Ty} {w : Value} (h : t.literal? = some w) : t.isLiteral = true := by
  cases t with
  | numLit | boolLit => rfl
  | _ => cases h

theorem Ty.literal?_annotateWith (owner : Expr) (t : Ty) : (t.annotateWith owner).type.literal? = t.literal? := by
  cases t <;> rfl

theorem Ty.literal?_eq_none {t : Ty} (h : t.isLiteral = false) : t.literal? = none := by
  cases t with
  | numLit | boolLit => cases h
  | _ => rfl

/-- Types whose common type is that of a literal are literal types of one sort. -/
theorem Ty.literals_of_combine {b : Bool} {t u : Ty} (h : t.combine b u = .literal) :
    (∃ x y, t = .boolLit x ∧ u = .boolLit y) ∨ ∃ x y, t = .numLit x ∧ u = .numLit y := by
  have wider {t u : Ty} (h : t.wider u = .literal) : False := by
    unfold Ty.wider at h
    split at h
    · cases h
    · split at h <;> cases h
  cases t with
  | boolLit x =>
    unfold combine at h
    split at h
    · exact .inl ⟨_, _, rfl, rfl⟩
    · exact (wider h).elim
  | numLit x =>
    unfold combine at h
    split at h
    · exact .inr ⟨_, _, rfl, rfl⟩
    · exact (wider h).elim
  | tuple ts =>
    unfold combine at h
    split at h
    · split at h <;> cases h
    · cases h
  | _ => exact (wider h).elim

namespace OpCall

variable {c : CheckContext} {o : OpCall} {ts : List Ty} {operands : Combined} {result : Ty} {w : Value}

theorem foldLiterals_ok {op : Op} (h : foldLiterals op ts = .ok result) (lit : result.literal? = some w) :
    op.eval (ts.filterMap Ty.literal?) = .ok w := by
  unfold foldLiterals at h
  split at h
  · cases h
  · rename_i value
    cases h
    cases lit
    exact value
  · rename_i value
    split at h
    · cases h
      cases lit
      exact value
    · cases h

theorem takes_of_accepted {op : Op} {vs : List Value} (literals : ts.map Ty.literal? = vs.map some)
    (accepted : ∀ t, op.inputType? = some t → ∀ u ∈ ts, u.convertsTo t = true)
    (sorts : op.isEquality = true → (∀ v ∈ vs, ∃ b, v = Value.bool b) ∨ ∀ v ∈ vs, ∃ n, v = Value.int n) :
    op.Takes vs := by
  have operand {v : Value} (hv : v ∈ vs) : ∃ t ∈ ts, t.literal? = some v := by
    obtain ⟨t, ht, lit⟩ := List.mem_map.mp (literals ▸ List.mem_map_of_mem hv : some v ∈ ts.map Ty.literal?)
    exact ⟨t, ht, lit⟩
  refine ⟨fun logical v hv => ?_, fun numeric v hv => ?_, sorts⟩
  · obtain ⟨t, ht, lit⟩ := operand hv
    have converts := accepted .bool (if_pos logical) t ht
    cases t with
    | boolLit b => exact ⟨b, (Option.some.inj lit).symm⟩
    | numLit => cases converts
    | _ => cases lit
  · obtain ⟨t, ht, lit⟩ := operand hv
    have logical : op.isLogical = false := by cases op <;> first | rfl | cases numeric
    have number : op.inputType? = some .number := by
      unfold Op.inputType?
      rw [logical, numeric]
      rfl
    have converts := accepted .number number t ht
    cases t with
    | boolLit => cases converts
    | numLit n => exact ⟨n, (Option.some.inj lit).symm⟩
    | _ => cases lit

theorem filterMap_of_literals {vs : List Value} (literals : ts.map Ty.literal? = vs.map some) :
    ts.filterMap Ty.literal? = vs := by
  have values := congrArg (List.filterMap id) literals
  rw [List.filterMap_map, List.filterMap_map] at values
  exact values.trans List.filterMap_some

/-- If the type of the result is that of a literal, the operands are literals and folding found its value. -/
theorem operandTypes_folds {op : Op} (arity : ts.length = op.arity) (choice : op ≠ .ite)
    (accepted : ∀ t, op.inputType? = some t → ∀ u ∈ ts, u.convertsTo t = true)
    (h : operandTypes op ts = .ok (operands, some result)) (lit : result.literal? = some w) :
    ∃ vs, ts.map Ty.literal? = vs.map some ∧ op.Takes vs ∧ op.eval vs = .ok w := by
  obtain ⟨common, hcommon, h⟩ := except_bind_ok h
  have declared {t : Ty} (ht : t.isLiteral = false) (h : result = if op.givesBool then .bool else t) : False := by
    have none : result.isLiteral = false := by
      rw [h]
      split
      · rfl
      · exact ht
    rw [Ty.isLiteral_of_literal? lit] at none
    cases none
  have folds {vs : List Value} (literals : ts.map Ty.literal? = vs.map some) (hc : common = .literal) :
      op.eval vs = .ok w := by
    subst hc
    obtain ⟨folded, hfolded, h⟩ := except_bind_ok h
    rw [← filterMap_of_literals literals]
    refine foldLiterals_ok hfolded ?_
    split at h <;> cases h <;> exact lit
  rcases ts with _ | ⟨t, _ | ⟨u, rest⟩⟩
  · cases hcommon
    cases h
  · change Except.ok (if t.isLiteral = true then Combined.literal else .type t) = .ok common at hcommon
    cases literal : t.isLiteral with
    | true =>
      obtain ⟨v, hv⟩ : ∃ v, t.literal? = some v := by
        cases t with
        | numLit n => exact ⟨_, rfl⟩
        | boolLit b => exact ⟨_, rfl⟩
        | _ => cases literal
      have literals : [t].map Ty.literal? = [v].map some := congrArg (fun x => [x]) hv
      have folding : common = .literal := by
        rw [literal] at hcommon
        exact (Except.ok.inj hcommon).symm
      refine ⟨[v], literals, takes_of_accepted literals accepted fun equality => ?_, folds literals folding⟩
      cases op with
      | eq | ne => cases arity
      | _ => cases equality
    | false =>
      rw [literal] at hcommon
      cases hcommon
      cases h
      exact (declared literal rfl).elim
  · change Ty.combine? _ t u = .ok common at hcommon
    unfold Ty.combine? at hcommon
    split at hcommon
    · cases hcommon
    · cases common with
      | none => cases h
      | type c =>
        cases h
        exact (declared (Ty.combine_declared (Except.ok.inj hcommon)) rfl).elim
      | literal =>
        have two : rest = [] := by
          cases op with
          | ite => exact absurd rfl choice
          | paren | plus | minus | not | complement => cases arity
          | _ => exact List.length_eq_zero_iff.mp (Nat.add_right_cancel (m := 2) arity)
        subst two
        rcases Ty.literals_of_combine (Except.ok.inj hcommon) with ⟨x, y, rfl, rfl⟩ | ⟨x, y, rfl, rfl⟩
        · exact ⟨[.bool x, .bool y], rfl, takes_of_accepted rfl accepted fun _ => .inl (by simp), folds rfl rfl⟩
        · exact ⟨[.int x, .int y], rfl, takes_of_accepted rfl accepted fun _ => .inr (by simp), folds rfl rfl⟩

/-- The operands convert to the type that the operator expects. -/
theorem accepted_of_checkOperands {e : Expr} {op : Op} {as : List Expr} {done : Unit} (arity : as.length = op.arity)
    (h : checkOperands c e op as = .ok done) :
    ∀ t, op.inputType? = some t → ∀ u ∈ as.map (·.checkedType.type), u.convertsTo t = true := by
  intro t ht u hu
  obtain ⟨a, ha, rfl⟩ := List.mem_map.mp hu
  unfold checkOperands at h
  rw [ht, ← arity, List.take_length] at h
  dsimp only at h
  split at h
  · rename_i all
    have converts : a.convertsTo t = true := by simpa using List.find?_eq_none.mp all a ha
    exact converts
  · cases h

/-- The call has these operands up to conversions. -/
theorem formula_typed {as : List Expr} (t : AnnTy) :
    ((o.withArgs as).typed t).formula = .apply o.op (o.hom != .nonHomomorphic) (Expr.formulas as) :=
  Expr.formula_withType _ t

theorem literal?_ownedByMe (result : Ty) (isPrivate : Bool) :
    (result.ownedByMe isPrivate).type.literal? = result.literal? := by
  cases isPrivate with
  | false => rfl
  | true => exact Ty.literal?_annotateWith .meLabel result

variable {next : OpCall → CheckM Expr} {P : Expr → Prop}

theorem keepsFormulas_coerceAll {ts : List AnnTy} (length : o.args.length = ts.length)
    (h : ∀ as, Expr.formulas as = Expr.formulas o.args → Ends P (next (o.withArgs as))) :
    Ends P (o.coerceAll c ts next) :=
  .withSymbols fun _ => .convertAll fun as has =>
    h as ((Expr.allConverted_of_coerceAll has).formulas length)

theorem keepsFormulas_coerceAt {n : Nat} {t : AnnTy}
    (h : ∀ as, Expr.formulas as = Expr.formulas o.args → Ends P (next (o.withArgs as))) :
    Ends P (o.coerceAt c n t next) := by
  refine .withSymbols fun s => ?_
  cases ha : o.args[n]? with
  | none => exact .fail
  | some a =>
    refine .convert fun x hx => h _ ?_
    obtain ⟨inside, rfl⟩ := List.getElem?_eq_some_iff.mp ha
    have there : n < (o.args.map Expr.formula).length := by rwa [List.length_map]
    rw [Expr.formulas_eq, Expr.formulas_eq, List.map_set, Expr.coerce_formula hx,
      ← List.getElem_map Expr.formula (h := there), List.set_getElem_self]

/-- Operands that fold to their values. -/
theorem folds_of_operands {as : List Expr} {vs : List Value} (folded : ∀ a ∈ as, a.Folded)
    (literals : (as.map (·.checkedType.type)).map Ty.literal? = vs.map some)
    (plain : Formula.arePlain (Expr.formulas as) = true) : List.Forall₂ Formula.Folds (Expr.formulas as) vs := by
  induction as generalizing vs with
  | nil =>
    cases vs with
    | nil => exact .nil
    | cons => cases literals
  | cons a as ih =>
    cases vs with
    | nil => cases literals
    | cons v vs =>
      obtain ⟨first, rest⟩ := List.cons.inj literals
      obtain ⟨hp, hps⟩ := Bool.and_eq_true_iff.mp plain
      exact .cons (folded a List.mem_cons_self hp v first)
        (ih (fun b hb => folded b (List.mem_cons_of_mem _ hb)) rest hps)

/-- The outcome of typing a call: without ciphertexts it has the formula of the call, and it folds if its operands
do. -/
structure KeepsValue (o : OpCall) (x : Expr) : Prop where
  formula : x.formula.isPlain = true → x.formula = o.expr.formula
  folded : o.args.length = o.op.arity → (∀ a ∈ o.args, a.Folded) → x.Folded

/-- Nothing is said about calls on ciphertexts. -/
theorem KeepsValue.of_hidden {x : Expr} (hidden : x.formula.isPlain = false) : o.KeepsValue x :=
  ⟨fun plain => absurd plain (Bool.eq_false_iff.mp hidden), fun _ _ plain => absurd plain (Bool.eq_false_iff.mp hidden)⟩

theorem typePlain_keepsValue (choice : o.op ≠ .ite) :
    Ends o.KeepsValue (o.typePlain c) := by
  have finish (p q : Bool) (operands : Combined) (result : Ty)
      (types : operandTypes o.op (o.args.map (·.checkedType.type)) = .ok (operands, some result))
      (checked : checkOperands c o.expr o.op o.args = .ok ()) :
      Ends o.KeepsValue (typePlain.finish c { o with isPrivate := p } operands result q) := by
    have done (as : List Expr) (same : Expr.formulas as = Expr.formulas o.args) :
        o.KeepsValue (({ o with isPrivate := p }.withArgs as).typed (result.ownedByMe q)) := by
      have whole : (({ o with isPrivate := p }.withArgs as).typed (result.ownedByMe q)).formula = o.expr.formula :=
        (formula_typed _).trans (congrArg _ same)
      refine ⟨fun _ => whole, fun arity all plain w lit => ?_⟩
      rw [whole] at plain ⊢
      rw [typed, Expr.checkedType_withType] at lit
      obtain ⟨vs, literals, takes, value⟩ := operandTypes_folds (by rw [List.length_map, arity]) choice
        (accepted_of_checkOperands arity checked) types ((literal?_ownedByMe result q).symm.trans lit)
      exact Formula.Folds.apply (folds_of_operands all literals (Bool.and_eq_true_iff.mp plain).2) takes choice value _
    unfold typePlain.finish
    dsimp only
    split
    · split
      · exact keepsFormulas_coerceAt fun as same => .pure (done as same)
      · exact keepsFormulas_coerceAll (by rw [List.length_map]) fun as same => .pure (done as same)
    · exact .pure (done o.args rfl)
  refine .attempt fun _ checked => .attempt fun r types => ?_
  obtain ⟨operands, result⟩ := r
  dsimp only
  split
  · exact .fail
  · exact .fail
  · split
    · refine .attempt fun _ _ => ?_
      split
      · exact Ends.warn.bind fun _ => (finish true true _ _ types checked).imp fun _ h _ => h
      · exact finish true true _ _ types checked
    · exact finish o.isPrivate false _ _ types checked

/-- A choice has no literal type. -/
theorem typeChoice_keepsValue : Ends o.KeepsValue (o.typeChoice c) := by
  have finish (p : Bool) (t : AnnTy) (declared : t.type.literal? = none) :
      Ends o.KeepsValue (typeChoice.finish c { o with isPrivate := p } t) := by
    refine keepsFormulas_coerceAt fun as first => keepsFormulas_coerceAt fun bs second =>
      .pure ⟨fun _ => ?_, fun _ _ _ w lit => ?_⟩
    · exact (formula_typed _).trans (congrArg _ (second.trans first))
    · rw [typed, Expr.checkedType_withType] at lit
      cases declared.symm.trans lit
  unfold typeChoice
  split
  · refine .ensure fun _ => .attempt fun common hcommon => ?_
    split
    · rename_i t
      have declared : t.literal? = none := by
        unfold Ty.combine? at hcommon
        split at hcommon
        · cases hcommon
        · exact Ty.literal?_eq_none (Ty.combine_declared (Except.ok.inj hcommon))
      split
      · exact finish true _ ((Ty.literal?_annotateWith _ t).trans declared)
      · refine .attempt fun owner _ => ?_
        split
        · exact .fail
        · exact finish o.isPrivate _ declared
        · exact .fail
    · exact .fail
  · exact .fail
  · exact .fail

theorem typeHomomorphic_keepsValue : Ends o.KeepsValue (o.typeHomomorphic c) := by
  refine .attempt fun _ _ => .attempt fun h hh => ?_
  cases h with
  | none => exact .fail
  | some h =>
    have hidden (o' : OpCall) (hom : o'.hom = h.result.hom) : o'.expr.formula.isPlain = false := by
      show (!(o'.hom != .nonHomomorphic) && _) = false
      rw [hom, Op.homOperation_additive hh]
      rfl
    exact .withSymbols fun _ => .convertAll fun as _ => .pure (.of_hidden (hidden _ rfl))

theorem type_keepsValue : Ends o.KeepsValue (o.type c) := by
  unfold type
  split
  · rename_i a as op args
    refine .pure ⟨fun _ => formula_typed _, fun arity all plain w lit => ?_⟩
    rw [op, args] at arity
    obtain rfl : as = [] := List.length_eq_zero_iff.mp (Nat.succ.inj arity)
    rw [show (o.typed a.checkedType).formula = _ from formula_typed _] at plain ⊢
    rw [typed, Expr.checkedType_withType] at lit
    have operand : [w].map some = [a.checkedType.type].map Ty.literal? := congrArg (fun x => [x]) lit.symm
    rw [args] at all plain ⊢
    rw [op]
    have takes : Op.paren.Takes [w] :=
      ⟨fun h => absurd h (by decide), fun h => absurd h (by decide), fun h => absurd h (by decide)⟩
    exact Formula.Folds.apply (folds_of_operands all operand.symm (Bool.and_eq_true_iff.mp plain).2) takes
      (fun h => nomatch h) rfl _
  · split
    · exact typeHomomorphic_keepsValue
    · split
      · exact typeChoice_keepsValue
      · rename_i choice
        exact typePlain_keepsValue (by simpa using choice)

end OpCall

/-! ## Constant expressions -/

mutual

/-- Literals, with their own types, under operators and changes of owner. -/
def Expr.isLiteralTerm : Expr → Bool
  | .boolLit i b => (Expr.boolLit i b).checkedType.type.literal? == some (.bool b)
  | .numLit i v x => (Expr.numLit i v x).checkedType.type.literal? == some (.int v)
  | .call _ (.operator _ op _ _ _) as _ _ => as.length == op.arity && Expr.areLiteralTerms as
  | .reclassify _ _ e _ _ => e.isLiteralTerm
  | _ => false

def Expr.areLiteralTerms : List Expr → Bool
  | [] => true
  | e :: es => e.isLiteralTerm && Expr.areLiteralTerms es

end

/-- The outcome of checking a constant expression: without ciphertexts it still has the formula of the source, and it
folds. -/
structure Expr.KeepsValue (e x : Expr) : Prop where
  formula : x.formula.isPlain = true → x.formula = e.formula
  folded : x.Folded

theorem Expr.KeepsValue.all {es xs : List Expr} (h : List.Forall₂ Expr.KeepsValue es xs) :
    (Formula.arePlain (Expr.formulas xs) = true → Expr.formulas xs = Expr.formulas es) ∧ ∀ x ∈ xs, x.Folded := by
  induction h with
  | nil => exact ⟨fun _ => rfl, nofun⟩
  | cons first _ ih =>
    refine ⟨fun plain => ?_, List.forall_mem_cons.mpr ⟨first.folded, ih.2⟩⟩
    obtain ⟨hp, hps⟩ := Bool.and_eq_true_iff.mp plain
    rw [formulas, formulas, first.formula hp, ih.1 hps]

theorem typeReclassify_keepsValue {c : CheckContext} {i : Info} {m : ReclassifyForm} {e x p p' : Expr}
    {hom : Option Hom} :
    Ends (fun y => e.KeepsValue x → (Expr.reclassify i m e p hom).KeepsValue y) (typeReclassify c i m x p' hom) := by
  unfold typeReclassify
  dsimp only
  split
  · exact .fail
  · exact .ensure fun _ => .ensure fun _ => .attempt fun fit _ => .ensure fun _ => .attempt fun _ _ => .pure fun kept =>
      ⟨kept.formula, kept.folded⟩

/-- Typing a call whose operands have been checked. -/
theorem OpCall.KeepsValue.checked {i fi : Info} {op : Op} {p : Bool} {hom : Hom} {r : Option Expr} {as xs : List Expr}
    {n : Int} {k : Option CircuitVar} {y : Expr} (kept : OpCall.KeepsValue ⟨i, fi, op, p, hom, r, xs, n, k⟩ y)
    (operands : List.Forall₂ Expr.KeepsValue as xs) (arity : as.length = op.arity) :
    (Expr.call i (.operator fi op p hom r) as n k).KeepsValue y := by
  obtain ⟨same, folded⟩ := Expr.KeepsValue.all operands
  refine ⟨fun plain => ?_, kept.folded (operands.length_eq.symm.trans arity) folded⟩
  have whole : y.formula = .apply op (hom != .nonHomomorphic) (Expr.formulas xs) := kept.formula plain
  rw [whole] at plain
  exact whole.trans (congrArg _ (same (Bool.and_eq_true_iff.mp plain).2))

mutual

theorem Expr.check_keepsValue (c : CheckContext) : ∀ e : Expr, e.isLiteralTerm = true → Ends e.KeepsValue (e.check c)
  | .boolLit i b, h => by
    refine .pure ⟨fun _ => rfl, fun _ w lit => ?_⟩
    have own : (Expr.boolLit i b).checkedType.type.literal? = some (.bool b) := eq_of_beq h
    cases lit.symm.trans own
    exact .value _
  | .numLit i v x, h => by
    refine .pure ⟨fun _ => rfl, fun _ w lit => ?_⟩
    have own : (Expr.numLit i v x).checkedType.type.literal? = some (.int v) := eq_of_beq h
    cases lit.symm.trans own
    exact .value _
  | .call i (.operator fi op p hom r) as o k, h => by
    obtain ⟨arity, terms⟩ := Bool.and_eq_true_iff.mp h
    have operands := fun spot => Expr.checkAll_keepsValue c.knowledge spot [] as terms
    have operator : (Expr.call i (.operator fi op p hom r) as o k).check c = (do
        if ← CheckM.stopped then return .call i (.operator fi op p hom r) as o k
        let xs ← Expr.checkAll c.knowledge (fun xs => c.spot (.call i (.operator fi op p hom r) xs o k)) [] as
        CheckM.unlessStopped (.call i (.operator fi op p hom r) xs o k)
          (OpCall.type c ⟨i, fi, op, p, hom, r, xs, o, k⟩)) := rfl
    rw [operator]
    refine .unlessStopped <| (operands _).bind fun xs => .unlessStopped <| OpCall.type_keepsValue.imp fun y kept => ?_
    rintro ⟨new, rfl, rest⟩
    exact kept.checked rest (eq_of_beq arity)
  | .reclassify i m e p hom, h =>
    (e.check_keepsValue _ h).bind fun x => (p.check_settled _).bind fun p' => .unlessStopped <|
      typeReclassify_keepsValue.imp fun _ kept _ first => kept first

theorem Expr.checkAll_keepsValue (k : Option Knowledge) (spot : List Expr → Site) : ∀ ds es : List Expr,
    Expr.areLiteralTerms es = true → Ends (fun xs => ∃ new, xs = ds ++ new ∧ List.Forall₂ Expr.KeepsValue es new)
      (Expr.checkAll k spot ds es)
  | ds, [], _ => .pure ⟨[], ds.append_nil.symm, .nil⟩
  | ds, e :: es, h => by
    obtain ⟨he, hes⟩ := Bool.and_eq_true_iff.mp h
    refine (e.check_keepsValue _ he).bind fun x => (checkAll_keepsValue k spot _ es hes).imp fun xs => ?_
    rintro ⟨new, rfl, rest⟩ first
    exact ⟨x :: new, by rw [List.append_assoc, List.singleton_append], .cons first rest⟩

end

/-- In a circuit, a call with a literal type is that literal. -/
theorem Splitter.privateStep_literal (t : Splitter) {i : Info} {f : Expr} {as : List Expr} {n : Int}
    {k : Option CircuitVar} {w : Value} (lit : (Expr.call i f as n k).checkedType.type.literal? = some w) :
    ∃ y, t.privateStep (.call i f as n k) = pure y ∧ y.formula = .value w := by
  unfold privateStep
  dsimp only
  split
  · rename_i b type
    rw [type] at lit
    cases lit
    exact ⟨_, rfl, rfl⟩
  · rename_i m type
    rw [type] at lit
    cases lit
    exact ⟨_, rfl, rfl⟩
  · rename_i bool num
    generalize (Expr.call i f as n k).checkedType.type = type at lit bool num
    cases type with
    | boolLit b => exact absurd rfl (bool b)
    | numLit m => exact absurd rfl (num m)
    | _ => cases lit

/-- The check leaves the formula of a constant expression alone, if nothing is computed on ciphertexts. If it finds a
literal type, the expression folds to the value of the literal, which a circuit uses in its place. -/
theorem Expr.check_folds (c : CheckContext) {e : Expr} (h : e.isLiteralTerm = true) :
    Ends (fun x => x.formula.isPlain = true → x.formula = e.formula ∧
      ∀ w, x.checkedType.type.literal? = some w → e.formula.Folds w ∧
        ∀ (i : Info) (f : Expr) (as : List Expr) (n : Int) (k : Option CircuitVar), x = .call i f as n k →
          ∀ t : Splitter, ∃ y, t.privateStep x = pure y ∧ y.formula = .value w) (e.check c) := by
  refine (e.check_keepsValue c h).imp fun x kept plain => ⟨kept.formula plain, fun w lit => ⟨?_, ?_⟩⟩
  · exact kept.formula plain ▸ kept.folded plain w lit
  · rintro i f as n k rfl t
    exact t.privateStep_literal lit

/-- Half of a number below zero. -/
def halfBelow (n : Int) : Expr := .applyAt 1 .div [.applyAt 3 .minus [.literalAt 5 n], .literalAt 6 2]

/-- A check without surroundings and declarations. -/
def Expr.checkAlone (e : Expr) : Expr × CheckState := e.check ⟨none, fun _ => .detached⟩ ⟨⟨[]⟩, none, []⟩

theorem halfBelow_eight_folds : (halfBelow 8).isLiteralTerm = true ∧ (halfBelow 8).checkAlone.2.failure = none ∧
    (halfBelow 8).checkAlone.1.checkedType.type.literal? = some (.int (-4)) ∧ (halfBelow 8).formula.Folds (.int (-4)) ∧
    (halfBelow 8).formula.eval Op.publicValue? = some (.int (-4)) := by
  have term : (halfBelow 8).isLiteralTerm = true := by decide
  have passed : (halfBelow 8).checkAlone.2.failure = none := Option.isNone_iff_eq_none.mp (by decide +kernel)
  have type : (halfBelow 8).checkAlone.1.checkedType.type.literal? = some (.int (-4)) := by decide +kernel
  obtain ⟨-, found⟩ := Expr.check_folds ⟨none, fun _ => .detached⟩ term _ passed
  obtain ⟨-, folds⟩ := found (by decide +kernel)
  have folds := (folds _ type).1
  exact ⟨term, passed, type, folds, folds.exact (by decide +kernel)⟩

/-- Folding rounds a quotient down, so it does not preserve the value of every constant expression. -/
theorem halfBelow_seven_differs : ¬ ∀ e : Expr, e.isLiteralTerm = true → e.checkAlone.2.failure = none →
    e.checkAlone.1.formula.isPlain = true → ∀ w, e.checkAlone.1.checkedType.type.literal? = some w →
      e.formula.eval Op.publicValue? = some w := by
  intro preserved
  have exact := preserved (halfBelow 7) (by decide) (Option.isNone_iff_eq_none.mp (by decide +kernel))
    (by decide +kernel) (.int (-4)) (by decide +kernel)
  have value : (halfBelow 7).formula.eval Op.publicValue? = some (.int (-3)) := by decide +kernel
  cases value.symm.trans exact

end Shroud
