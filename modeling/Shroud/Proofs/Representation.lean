import Shroud.Proofs.Convertibility

/-!
# Integers in converted types

Integer types hold the integers of their range, which is fixed by sign and width, and the type of a number literal holds
that literal only. No conversion loses an integer: implicit conversion goes to types that hold all values of the given
one, and so does the search for a common type, which gives two literals the declared types that stand for them.

**Widths.** Whatever is written as a width may be one. Nothing can be said to be in the range of a type of negative width,
so it has no values.

**Casts.** A cast takes a value to the words of its type (`Ty.wrap`). The casts that a conversion inserts take values that
their types hold anyway.
-/

namespace Shroud

namespace Ty

/-- Types that are declared for integers. -/
def isInteger : Ty → Bool
  | .integer .. => true
  | _ => false

/-- Types of integers and of number literals. -/
def isIntegral : Ty → Bool
  | .integer .. | .numLit _ => true
  | _ => false

/-- The integer is in the range of the type. -/
def Represents (t : Ty) (v : Int) : Prop := t.hasRange = true ∧ t.canRepresent v = true

/-- The integers that expressions of the type may have as their values. -/
def IsValue : Ty → Int → Prop
  | .numLit n, v => v = n
  | t, v => t.Represents v

/-- A cast from the first type to the second keeps integers. -/
def KeepsIntegers (s t : Ty) : Prop :=
  s.isIntegral = true → t.isInteger = true → ∀ v, s.IsValue v → t.Represents v ∧ t.wrap v = v

variable {s t r : Ty} {v : Int}

theorem represents_integer {signed : Bool} {w : Width} :
    (Ty.integer signed w).Represents v ↔ 0 ≤ w.bits ∧ inRange signed w.bits.toNat v = true :=
  and_congr_left fun _ => decide_eq_true_iff

/-- A wider type of the same sign has a larger range. -/
theorem Represents.widen {signed : Bool} {w z : Width} (h : (Ty.integer signed w).Represents v)
    (wider : w.bits ≤ z.bits) : (Ty.integer signed z).Represents v := by
  obtain ⟨width, range⟩ := represents_integer.mp h
  exact represents_integer.mpr ⟨width.trans wider, inRange_mono range (Int.toNat_le_toNat wider)⟩

theorem Converts.represents (integral : s.isIntegral = true) (declared : t.isInteger = true) (h : s.Converts t)
    (value : s.IsValue v) : t.Represents v := by
  cases s with
  | integer signed w =>
    obtain rfl | ⟨z, rfl, wider⟩ := converts_integer.mp h
    · cases declared
    · exact Represents.widen value wider
  | numLit n =>
    cases value
    cases t with
    | integer => exact represents_integer.mpr (numLit_converts_integer.mp h)
    | _ => cases declared
  | _ => cases integral

theorem Converts.keepsIntegers (h : s.Converts t) : s.KeepsIntegers t := by
  intro integral declared v value
  have represents := h.represents integral declared value
  refine ⟨represents, wrap_of_holds ?_⟩
  cases t with
  | integer => exact represents.2
  | _ => cases declared

/-- Two types of integers only have types of integers in common, and both convert to these. -/
theorem Joins.integral (hs : s.isIntegral = true) (ht : t.isIntegral = true) (h : s.Joins t r) :
    r.isInteger = true ∧ s.Converts r ∧ t.Converts r := by
  have owned {u : Ty} (integral : u.isIntegral = true) : u.IsOwned := by
    cases u with
    | integer | numLit => trivial
    | _ => cases integral
  refine ⟨?_, h.converts (owned hs) (owned ht)⟩
  cases s with
  | integer signed w =>
    obtain ⟨-, rfl⟩ | ⟨-, forth, same⟩ := (joins_leaf rfl rfl).mp h
    · rfl
    · obtain rfl | ⟨_, rfl, -⟩ := converts_integer.mp forth
      · cases ht
      · rw [same]
        rfl
  | numLit n =>
    cases t with
    | integer =>
      obtain ⟨back, -⟩ | ⟨-, -, rfl⟩ := (joins_leaf rfl rfl).mp h
      · obtain other | ⟨_, other, _⟩ := converts_integer.mp back <;> cases other
      · rfl
    | numLit m =>
      obtain ⟨_, _, rfl, -⟩ := joins_numLits_cases h
      rfl
    | _ => cases ht
  | _ => cases hs

end Ty

/-- Implicit conversions keep integers. A type that an integer type or a literal converts to has all its values in range,
so has the common type of two of them, and the casts that a conversion inserts do not change any value. -/
theorem integers_converted :
    (∀ s t : Ty, s.isIntegral = true → t.isInteger = true → s.Converts t → ∀ v, s.IsValue v → t.Represents v) ∧
    (∀ s t r : Ty, s.isIntegral = true → t.isIntegral = true → s.Joins t r →
      r.isInteger = true ∧ ∀ v, s.IsValue v ∨ t.IsValue v → r.Represents v) ∧
    ∀ (σ : Symbols) (k : Option Knowledge) (nested : Bool) (spot : Spot) (e x : Expr) (t : AnnTy), e.Consistent k →
      (e.coerce σ k spot nested t).result = .ok x → e.Adapted Ty.KeepsIntegers x := by
  refine ⟨fun s t hs ht h v value => h.represents hs ht value, fun s t r hs ht h => ?_, ?_⟩
  · obtain ⟨declared, left, right⟩ := h.integral hs ht
    refine ⟨declared, fun v value => ?_⟩
    obtain value | value := value
    · exact left.represents hs declared value
    · exact right.represents ht declared value
  · intro σ k nested spot e x t consistent h
    exact (Expr.coerce_adapted consistent h).mono fun _ _ => Ty.Converts.keepsIntegers

/-- The largest number of 8 bit and a literal, which both fit into 16 bit, and a number of 8 bit that is cast there. -/
theorem offering_converted : (Ty.word 16).Represents 255 ∧ (Ty.word 16).Represents 300 ∧
    ∃ x, (offering.coerce ⟨[]⟩ (some asBob) (fun _ => .detached) false offered).result = .ok x ∧
      (x matches .tuple _ [.reclassify _ .reveal (.cast ..) _ _, .reclassify _ .rehom (.ident ..) _ _]) = true ∧
      offering.Adapted Ty.KeepsIntegers x := by
  obtain ⟨converted, joined, coerced⟩ := integers_converted
  refine ⟨converted (.word 8) (.word 16) rfl rfl (by decide) 255 ⟨by decide, by decide⟩, ?_, ?_⟩
  · exact (joined (.word 16) (.numLit 300) (.word 16) rfl rfl ⟨rfl, rfl⟩).2 300 (.inr rfl)
  · obtain ⟨x, hx, shape⟩ := exists_ok_of_any
      (x := (offering.coerce ⟨[]⟩ (some asBob) (fun _ => .detached) false offered).result)
      (p := (· matches .tuple _ [.reclassify _ .reveal (.cast ..) _ _, .reclassify _ .rehom (.ident ..) _ _]))
      (by decide +kernel)
    exact ⟨x, hx, shape, coerced _ _ _ _ _ x _ ⟨rfl, trivial, trivial, trivial⟩ hx⟩

end Shroud
