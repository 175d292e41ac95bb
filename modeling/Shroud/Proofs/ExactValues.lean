import Mathlib.Data.Int.Bitwise
import Mathlib.Data.Nat.Bitwise
import Shroud.Proofs.Pointwise

/-!
# Exact values of operators

Folding computes the value of an operator on literals. Public code computes it on its own (`Op.publicValue?`), with integers
of any size.

**Rounding.** Both agree except on quotients and remainders: folding rounds a quotient down, public code towards zero.
So they differ exactly where a division leaves a remainder and its operands have different signs (`Op.roundsDown`,
`Op.exact_of_eval`).

**Bits.** Bitwise operators are defined by cases of signs, like `Int.land`; disjunction goes through the complement.
-/

namespace Shroud

namespace Op

/-- The value of an operator in public code. Numbers are integers of any size, quotients are rounded towards zero, and a
shift to the right rounds down. -/
def publicValue? : Op → List Value → Option Value
  | .paren, [v] => some v
  | .plus, [.int a] => some (.int a)
  | .minus, [.int a] => some (.int (-a))
  | .complement, [.int a] => some (.int a.lnot)
  | .add, [.int a, .int b] => some (.int (a + b))
  | .sub, [.int a, .int b] => some (.int (a - b))
  | .mul, [.int a, .int b] => some (.int (a * b))
  | .div, [.int a, .int b] => if b = 0 then none else some (.int (a.tdiv b))
  | .mod, [.int a, .int b] => if b = 0 then none else some (.int (a.tmod b))
  | .pow, [.int a, .int b] => if b < 0 then none else some (.int (a ^ b.toNat))
  | .shl, [.int a, .int b] => if b < 0 then none else some (.int (a * 2 ^ b.toNat))
  | .shr, [.int a, .int b] => if b < 0 then none else some (.int (a / 2 ^ b.toNat))
  | .bitAnd, [.int a, .int b] => some (.int (a.land b))
  | .bitOr, [.int a, .int b] => some (.int (a.lor b))
  | .bitXor, [.int a, .int b] => some (.int (a.xor b))
  | .lt, [.int a, .int b] => some (.bool (decide (a < b)))
  | .gt, [.int a, .int b] => some (.bool (decide (a > b)))
  | .le, [.int a, .int b] => some (.bool (decide (a ≤ b)))
  | .ge, [.int a, .int b] => some (.bool (decide (a ≥ b)))
  | .eq, [v, w] => some (.bool (decide (v = w)))
  | .ne, [v, w] => some (.bool (decide (v ≠ w)))
  | .not, [.bool a] => some (.bool !a)
  | .and, [.bool a, .bool b] => some (.bool (a && b))
  | .or, [.bool a, .bool b] => some (.bool (a || b))
  | _, _ => none

/-- The value that folding finds. -/
def folded? (op : Op) (vs : List Value) : Option Value := (op.eval vs).toOption

/-- A division that leaves a remainder and whose operands have different signs. -/
def roundsDown (op : Op) : List Value → Bool
  | [.int a, .int b] => (op == .div || op == .mod) && !decide (b ∣ a) && decide (a < 0 ↔ ¬ b < 0)
  | _ => false

/-- The operands are of the sort that the operator works on: truth values or numbers, and values of one sort where they
are compared for equality. -/
def Takes (op : Op) (vs : List Value) : Prop :=
  (op.isLogical = true → ∀ v ∈ vs, ∃ b, v = .bool b) ∧ (op.takesNumbers = true → ∀ v ∈ vs, ∃ n, v = .int n) ∧
    (op.isEquality = true → (∀ v ∈ vs, ∃ b, v = .bool b) ∨ ∀ v ∈ vs, ∃ n, v = .int n)

end Op

/-! ### Bits -/

section Bits

variable (a b : Nat)

theorem land_add_ldiff : (a &&& b) + Nat.ldiff a b = a := by
  induction a using Nat.binaryRec generalizing b with
  | zero => simp [Nat.ldiff]
  | bit x a ih =>
    induction b using Nat.bitCasesOn with
    | bit y b =>
      have rest := ih b
      rw [Nat.land_bit, Nat.ldiff_bit, Nat.bit_val, Nat.bit_val, Nat.bit_val]
      cases x <;> cases y <;> simp <;> omega

theorem ldiff_lor_land : Nat.ldiff (a ||| b) (a &&& b) = a ^^^ b := by
  refine Nat.eq_of_testBit_eq fun i => ?_
  rw [Nat.testBit_ldiff, Nat.testBit_or, Nat.testBit_and, Nat.testBit_xor]
  cases a.testBit i <;> cases b.testBit i <;> rfl

theorem ldiff_lor_ldiff : Nat.ldiff a b ||| Nat.ldiff b a = a ^^^ b := by
  refine Nat.eq_of_testBit_eq fun i => ?_
  rw [Nat.testBit_or, Nat.testBit_ldiff, Nat.testBit_ldiff, Nat.testBit_xor]
  cases a.testBit i <;> cases b.testBit i <;> rfl

end Bits

namespace Value

theorem complement_eq (a : Int) : -a - 1 = a.lnot := by
  cases a with
  | ofNat a =>
    show -(a : Int) - 1 = Int.negSucc a
    omega
  | negSucc a =>
    show -Int.negSucc a - 1 = (a : Int)
    omega

theorem bitAnd_eq (a b : Int) : bitAnd a b = a.land b := by
  have without (a b : Nat) : a - (a &&& b) = Nat.ldiff a b := by
    have parts := land_add_ldiff a b
    omega
  cases a with
  | ofNat a =>
    cases b with
    | ofNat b => rfl
    | negSucc b => exact congrArg Int.ofNat (without a b)
  | negSucc a =>
    cases b with
    | ofNat b => exact congrArg Int.ofNat (without b a)
    | negSucc b => rfl

theorem bitOr_eq (a b : Int) : bitOr a b = a.lor b := by
  unfold bitOr
  rw [complement_eq, complement_eq, complement_eq, bitAnd_eq]
  cases a <;> cases b <;> rfl

theorem bitXor_eq (a b : Int) : bitXor a b = a.xor b := by
  unfold bitXor
  rw [complement_eq, bitAnd_eq, bitAnd_eq, bitOr_eq]
  cases a with
  | ofNat a =>
    cases b with
    | ofNat b => exact congrArg Int.ofNat (ldiff_lor_land a b)
    | negSucc b => exact congrArg Int.negSucc ((Nat.or_comm _ _).trans (ldiff_lor_ldiff a b))
  | negSucc a =>
    cases b with
    | ofNat b => exact congrArg Int.negSucc (ldiff_lor_ldiff a b)
    | negSucc b => exact congrArg Int.ofNat (ldiff_lor_land a b)

end Value

/-! ### Division -/

section Division

variable {a b : Int} (hb : b ≠ 0)

include hb

theorem tdiv_eq_fdiv_iff : a.tdiv b = a.fdiv b ↔ b ∣ a ∨ (a < 0 ↔ b < 0) := by
  rw [Int.tdiv_eq_fdiv]
  by_cases whole : b ∣ a
  · simp [whole]
  · rw [if_neg whole]
    rcases Int.lt_trichotomy b 0 with h | h | h
    · rw [Int.sign_eq_neg_one_of_neg h]
      split <;> split <;> omega
    · omega
    · rw [Int.sign_eq_one_of_pos h]
      split <;> split <;> omega

theorem tmod_eq_fmod_iff : a.tmod b = a.fmod b ↔ b ∣ a ∨ (a < 0 ↔ b < 0) := by
  rw [Int.tmod_eq_fmod]
  by_cases whole : b ∣ a
  · simp [whole]
  · rw [if_neg whole]
    split <;> split <;> omega

end Division

/-! ### Exact values -/

namespace Op

variable {op : Op} {vs : List Value} {w : Value}

theorem power_eq {a : Int} {n : Nat} (h : power a n = .ok w) : w = .int (a ^ n) := by
  unfold power at h
  split at h
  · cases h
    rename_i zero
    subst zero
    split
    · rename_i none
      rw [none, pow_zero]
    · rename_i some
      rw [zero_pow some]
  · split at h
    · cases h
      rename_i one
      rw [one, one_pow]
    · split at h
      · cases h
        rename_i minus
        rw [minus]
        split
        · rename_i even
          rw [Even.neg_one_pow (Nat.even_iff.mpr even)]
        · rename_i odd
          rw [Odd.neg_one_pow (Nat.odd_iff.mpr (by omega))]
      · split at h
        · cases h
          rfl
        · cases h

theorem roundsDown_other (div : op ≠ .div) (mod : op ≠ .mod) (vs : List Value) : op.roundsDown vs = false := by
  unfold roundsDown
  split
  · rw [beq_false_of_ne div, beq_false_of_ne mod]
    rfl
  · rfl

/-- Where public code finds the value that folding finds, nothing may round down. -/
theorem agree (exact : op.publicValue? vs = some w) (division : op ≠ .div ∧ op ≠ .mod) :
    ∃ v, op.publicValue? vs = some v ∧ (v = w ↔ op.roundsDown vs = false) :=
  ⟨w, exact, iff_of_true rfl (roundsDown_other division.1 division.2 vs)⟩

theorem roundsDown_div {a b : Int} (hop : op = .div ∨ op = .mod) :
    op.roundsDown [.int a, .int b] = false ↔ b ∣ a ∨ (a < 0 ↔ b < 0) := by
  have division : (op == .div || op == .mod) = true := by rcases hop with rfl | rfl <;> rfl
  unfold roundsDown
  dsimp only
  rw [division, Bool.true_and]
  by_cases whole : b ∣ a <;> by_cases ha : a < 0 <;> by_cases hb : b < 0 <;> simp [whole, ha, hb]

theorem exists_int {v : Value} (h : ∀ x ∈ [v], ∃ n, x = .int n) : ∃ a, v = .int a := h v List.mem_cons_self

theorem exists_ints {v v' : Value} (h : ∀ x ∈ [v, v'], ∃ n, x = .int n) : ∃ a b, v = .int a ∧ v' = .int b := by
  obtain ⟨a, ha⟩ := h v (by simp)
  obtain ⟨b, hb⟩ := h v' (by simp)
  exact ⟨a, b, ha, hb⟩

theorem exists_bools {v v' : Value} (h : ∀ x ∈ [v, v'], ∃ b, x = .bool b) : ∃ a b, v = .bool a ∧ v' = .bool b := by
  obtain ⟨a, ha⟩ := h v (by simp)
  obtain ⟨b, hb⟩ := h v' (by simp)
  exact ⟨a, b, ha, hb⟩

/-- Operands of an equality are of one sort, so that their values in arithmetic tell them apart. -/
theorem toInt_inj {v v' : Value}
    (h : (∀ x ∈ [v, v'], ∃ b, x = Value.bool b) ∨ ∀ x ∈ [v, v'], ∃ n, x = Value.int n) :
    v.toInt = v'.toInt ↔ v = v' := by
  rcases h with h | h
  · obtain ⟨a, b, rfl, rfl⟩ := exists_bools h
    cases a <;> cases b <;> decide
  · obtain ⟨a, b, rfl, rfl⟩ := exists_ints h
    exact ⟨congrArg _, Value.int.inj⟩

/-- On operands of the right sort, folding finds the exact value if and only if it does not round down. -/
theorem exact_of_eval (typed : op.Takes vs) (choice : op ≠ .ite) (h : op.eval vs = .ok w) :
    ∃ v, op.publicValue? vs = some v ∧ (v = w ↔ op.roundsDown vs = false) := by
  obtain ⟨bools, ints, sorts⟩ := typed
  unfold eval at h
  split at h
  case h_1 =>
    cases h
    exact agree rfl (by decide)
  case h_4 =>
    obtain ⟨a, rfl⟩ := bools rfl _ List.mem_cons_self
    cases h
    exact agree rfl (by decide)
  case h_2 | h_3 | h_5 =>
    obtain ⟨a, rfl⟩ := exists_int (ints rfl)
    cases h
    exact agree (by simp only [publicValue?, Value.toInt, Value.complement_eq]) (by decide)
  case h_6 => exact absurd rfl choice
  case h_7 | h_8 | h_9 | h_15 | h_16 | h_17 | h_18 =>
    obtain ⟨a, b, rfl, rfl⟩ := exists_ints (ints rfl)
    cases h
    exact agree rfl (by decide)
  case h_10 | h_11 =>
    obtain ⟨a, b, rfl, rfl⟩ := exists_ints (ints rfl)
    split at h
    · cases h
    · rename_i nonzero
      cases h
      refine ⟨_, if_neg nonzero, (Value.int.injEq _ _).to_iff.trans ?_⟩
      rw [roundsDown_div (by simp)]
      first
        | exact tdiv_eq_fdiv_iff nonzero
        | exact tmod_eq_fmod_iff nonzero
  case h_12 =>
    obtain ⟨a, b, rfl, rfl⟩ := exists_ints (ints rfl)
    split at h
    · rename_i positive
      rw [power_eq h]
      exact agree (if_neg (Int.not_lt.mpr positive)) (by decide)
    · cases h
  case h_13 =>
    obtain ⟨a, b, rfl, rfl⟩ := exists_ints (ints rfl)
    split at h
    · cases h
    · rename_i positive
      refine agree ?_ (by decide)
      split at h
      · rename_i zero
        cases h
        refine (if_neg positive).trans ?_
        rw [show a = 0 from zero, zero_mul]
      · obtain ⟨p, hp, rfl⟩ := except_map_ok h
        rw [power_eq hp]
        exact if_neg positive
  case h_14 =>
    obtain ⟨a, b, rfl, rfl⟩ := exists_ints (ints rfl)
    split at h
    · cases h
    · rename_i positive
      cases h
      refine agree ((if_neg positive).trans ?_) (by decide)
      rw [Int.shiftRight_eq_div_pow]
      rfl
  case h_19 | h_20 =>
    cases h
    refine agree ?_ (by decide)
    have same := toInt_inj (sorts rfl)
    simp only [publicValue?, bne, beq_eq_decide, same, decide_not]
  case h_21 | h_22 =>
    obtain ⟨a, b, rfl, rfl⟩ := exists_bools (bools rfl)
    cases h
    refine agree ?_ (by decide)
    cases a <;> rfl
  case h_23 | h_24 | h_25 =>
    obtain ⟨a, b, rfl, rfl⟩ := exists_ints (ints rfl)
    cases h
    exact agree (by simp only [publicValue?, connective, Value.toInt, Value.bitAnd_eq, Value.bitOr_eq, Value.bitXor_eq])
      (by decide)
  case h_26 => cases h

end Op

end Shroud
