import Shroud.Proofs.Typed

/-!
# Plaintext values

What an expression denotes once owners and encryption are forgotten. Handing a value to another owner changes nothing
about it, a cast takes the word of its operand to the words of a type, and a choice takes one of two values. Whatever
else an expression may be, its plaintext is left open, apart from fitting its type (`Reading`).

**Words.** Numbers, truth values and addresses are integers. A type holds some of them, and a cast wraps the others
around. So a cast to a type that holds the word changes nothing (`Ty.wrap_of_holds`), and data converts only to types
that hold all its words (`Ty.Holds.convert`).

**Consistent types.** The type of a conversion follows from that of its operand (`Expr.Consistent`), which is why the
plaintext of a conversion fits its type if those of the operands do (`Expr.plaintext_fits`).
-/

namespace Shroud

/-! ## Words -/

/-- An integer as a word of so many bits. -/
def wrapWord (signed : Bool) (bits : Nat) (v : Int) : Int :=
  if signed then (v + Nat.pow 2 (bits - 1)) % (2 * Nat.pow 2 (bits - 1)) - Nat.pow 2 (bits - 1)
  else v % Nat.pow 2 bits

theorem wrapWord_inRange (signed : Bool) (bits : Nat) (v : Int) : inRange signed bits (wrapWord signed bits v) = true := by
  unfold inRange wrapWord
  cases signed with
  | false =>
    have positive : (0 : Int) < Nat.pow 2 bits := Int.natCast_pos.mpr (Nat.pow_pos (by decide))
    have lower := Int.emod_nonneg v positive.ne'
    have upper := Int.emod_lt_of_pos v positive
    simp only [Bool.false_eq_true, if_false, Bool.and_eq_true, decide_eq_true_eq]
    exact ⟨lower, upper⟩
  | true =>
    have positive : (0 : Int) < Nat.pow 2 (bits - 1) := Int.natCast_pos.mpr (Nat.pow_pos (by decide))
    generalize (Nat.pow 2 (bits - 1) : Int) = half at positive
    have lower := Int.emod_nonneg (v + half) (show 2 * half ≠ 0 by omega)
    have upper := Int.emod_lt_of_pos (v + half) (show 0 < 2 * half by omega)
    simp only [if_true, Bool.and_eq_true, decide_eq_true_eq]
    omega

theorem wrapWord_of_inRange {signed : Bool} {bits : Nat} {v : Int} (h : inRange signed bits v = true) :
    wrapWord signed bits v = v := by
  unfold inRange at h
  unfold wrapWord
  cases signed with
  | false =>
    simp only [Bool.false_eq_true, if_false, Bool.and_eq_true, decide_eq_true_eq] at h ⊢
    exact Int.emod_eq_of_lt h.1 h.2
  | true =>
    simp only [if_true, Bool.and_eq_true, decide_eq_true_eq] at h ⊢
    rw [Int.emod_eq_of_lt] <;> omega

/-- Words of a wider type of the same sort. -/
theorem inRange_mono {signed : Bool} {bits wide : Nat} {v : Int} (h : inRange signed bits v = true) (wider : bits ≤ wide) :
    inRange signed wide v = true := by
  unfold inRange at h ⊢
  cases signed with
  | false =>
    have bound : (Nat.pow 2 bits : Int) ≤ Nat.pow 2 wide := Int.ofNat_le.mpr (Nat.pow_le_pow_right (by decide) wider)
    simp only [Bool.false_eq_true, if_false, Bool.and_eq_true, decide_eq_true_eq] at h ⊢
    omega
  | true =>
    have bound : (Nat.pow 2 (bits - 1) : Int) ≤ Nat.pow 2 (wide - 1) :=
      Int.ofNat_le.mpr (Nat.pow_le_pow_right (by decide) (Nat.sub_le_sub_right wider 1))
    simp only [if_true, Bool.and_eq_true, decide_eq_true_eq] at h ⊢
    omega

namespace Ty

/-- The words that a type holds. Nothing is said about data that is no word. -/
def Holds : Ty → Int → Prop
  | .boolLit b, v => v = b.toNat
  | .bool, v => v = 0 ∨ v = 1
  | .numLit n, v => v = n
  | .integer s w, v => inRange s w.bits.toNat v = true
  | .address _, v => inRange false 160 v = true
  | _, _ => True

/-- What a cast to the type makes of a word. -/
def wrap : Ty → Int → Int
  | .boolLit b, _ => b.toNat
  | .bool, v => if v = 0 then 0 else 1
  | .numLit n, _ => n
  | .integer s w, v => wrapWord s w.bits.toNat v
  | .address _, v => wrapWord false 160 v
  | _, v => v

theorem holds_wrap (t : Ty) (v : Int) : t.Holds (t.wrap v) := by
  cases t with
  | boolLit | numLit => rfl
  | bool =>
    show (if v = 0 then 0 else 1) = 0 ∨ (if v = 0 then 0 else 1) = 1
    split
    · exact .inl rfl
    · exact .inr rfl
  | integer | address => exact wrapWord_inRange _ _ v
  | _ => trivial

theorem wrap_of_holds {t : Ty} {v : Int} (h : t.Holds v) : t.wrap v = v := by
  cases t with
  | boolLit | numLit => exact Eq.symm h
  | bool => rcases h with rfl | rfl <;> rfl
  | integer | address => exact wrapWord_of_inRange h
  | _ => rfl

/-- A number that is written like an address fits into one. -/
theorem inRange_of_literalWidth {v : Int} {bits : Nat} (width : literalWidth v = bits) (positive : 0 ≤ v) :
    inRange false bits v = true := by
  obtain ⟨n, rfl⟩ := Int.eq_ofNat_of_zero_le positive
  have digits : n < 2 ^ bitLength n := by
    unfold bitLength
    split
    · simp_all
    · exact Nat.lt_log2_self
  have fits : bitLength n ≤ bits := by
    have needed : bitsNeeded n = bitLength n := by simp [bitsNeeded]
    unfold literalWidth at width
    rw [needed] at width
    omega
  have bound : n < 2 ^ bits := Nat.lt_of_lt_of_le digits (Nat.pow_le_pow_right (by decide) fits)
  unfold inRange
  simp only [Bool.false_eq_true, if_false, Bool.and_eq_true, decide_eq_true_eq]
  exact ⟨positive, Int.ofNat_lt.mpr bound⟩

/-- Equal types hold the same words, apart from those of literals. -/
theorem Holds.of_same {t u : Ty} {v : Int} (h : t.Holds v) (same : t.same u = true) (declared : u.isLiteral = false) :
    u.Holds v := by
  cases u with
  | boolLit | numLit => cases declared
  | bool =>
    cases t with
    | bool => exact h
    | _ => cases same
  | integer s w =>
    cases t with
    | integer r z =>
      obtain ⟨sign, width⟩ := (Bool.and_eq_true _ _).mp same
      rw [← eq_of_beq sign, ← eq_of_beq width]
      exact h
    | _ => cases same
  | address =>
    cases t with
    | address => exact h
    | _ => cases same
  | _ => trivial

/-- Names of types and addresses convert to their own sort only. -/
theorem convertsTo_named {sort : NamedSort} {ns : List String} {r : Option NamedTarget} {u : Ty}
    (h : (named sort ns r).convertsTo u = true) : ∃ s ms q, u = .named s ms q := by
  cases u with
  | named s ms q => exact ⟨s, ms, q, rfl⟩
  | _ => cases sort <;> cases h

theorem convertsTo_address {p : Bool} {u : Ty} (h : (address p).convertsTo u = true) : ∃ q, u = .address q := by
  cases u with
  | address q => exact ⟨q, rfl⟩
  | _ => cases p <;> cases h

/-- Data converts to types that hold all its words, unless both are equal. -/
theorem Holds.convert {t u : Ty} {v : Int} (h : t.Holds v) (converts : t.convertsTo u = true) (differ : t.same u = false) :
    u.Holds v := by
  cases t with
  | boolLit b =>
    cases u with
    | boolLit => cases differ
    | bool =>
      cases b with
      | false => exact .inl h
      | true => exact .inr h
    | _ => cases converts
  | numLit n =>
    cases h
    cases u with
    | numLit => cases differ
    | integer => exact converts
    | address p =>
      replace converts : (if literalWidth v == 160 && decide (0 ≤ v) then true else false) = true := converts
      split at converts
      · rename_i written
        obtain ⟨width, positive⟩ := (Bool.and_eq_true _ _).mp written
        exact inRange_of_literalWidth (eq_of_beq width) (of_decide_eq_true positive)
      · cases converts
    | boolLit | bool => cases converts
    | _ => trivial
  | integer r z =>
    cases u with
    | integer s w =>
      rcases (Bool.or_eq_true _ _).mp converts with same | wider
      · obtain ⟨sign, width⟩ := (Bool.and_eq_true _ _).mp same
        rw [eq_of_beq sign, eq_of_beq width]
        exact h
      · obtain ⟨sign, width⟩ := (Bool.and_eq_true _ _).mp wider
        rw [← eq_of_beq sign]
        exact inRange_mono h (Int.toNat_le_toNat (of_decide_eq_true width))
    | boolLit | numLit | bool | address => cases converts
    | _ => trivial
  | bool =>
    cases u with
    | bool => exact h
    | boolLit | numLit | integer | address => cases converts
    | _ => trivial
  | address =>
    obtain ⟨q, rfl⟩ := convertsTo_address converts
    exact h
  | named =>
    obtain ⟨s, ms, q, rfl⟩ := convertsTo_named converts
    trivial
  | _ =>
    cases u with
    | bool | boolLit | numLit | integer | address => cases converts
    | _ => trivial

end Ty

/-! ## Plaintexts -/

/-- What remains of a value without its owner: a word, the parts of a tuple, or other data. -/
inductive Plaintext where
  | word (value : Int)
  | parts (values : List Plaintext)
  | data (number : Nat)

namespace Plaintext

/-- A word as one of the type. -/
def cast (t : Ty) : Plaintext → Plaintext
  | .word v => .word (t.wrap v)
  | p => p

def isTrue : Plaintext → Bool
  | .word v => v != 0
  | _ => false

/-- The type holds the plaintext if it is a word. -/
def Fits (p : Plaintext) (t : Ty) : Prop := ∀ v, p = .word v → t.Holds v

theorem cast_of_fits {p : Plaintext} {t : Ty} (h : p.Fits t) : p.cast t = p := by
  cases p with
  | word v => exact congrArg word (Ty.wrap_of_holds (h v rfl))
  | parts | data => rfl

theorem fits_cast (p : Plaintext) (t : Ty) : (p.cast t).Fits t := by
  intro v hv
  cases p with
  | word w =>
    cases hv
    exact t.holds_wrap w
  | parts | data => cases hv

end Plaintext

/-- Plaintexts for all expressions, which fit their types. -/
structure Reading where
  value : Expr → Plaintext
  fits : ∀ e, (value e).Fits e.checkedType.type

mutual

/-- What an expression denotes, given what those denote that are no conversions. -/
def Expr.plaintext (ρ : Reading) : Expr → Plaintext
  | .cast _ t e _ => (e.plaintext ρ).cast t
  | .reclassify _ _ e _ _ => e.plaintext ρ
  | .tuple _ es => .parts (Expr.plaintexts ρ es)
  | .call _ (.operator _ .ite _ _ _) [c, a, b] _ _ =>
    if (c.plaintext ρ).isTrue then a.plaintext ρ else b.plaintext ρ
  | e => ρ.value e

def Expr.plaintexts (ρ : Reading) : List Expr → List Plaintext
  | [] => []
  | e :: es => e.plaintext ρ :: Expr.plaintexts ρ es

end

/-! ## Consistent types -/

/-- Both name the same owner, as far as is known. -/
def SameOwner (k : Option Knowledge) (p q : Expr) : Prop :=
  ∃ l m, p.label? = some l ∧ q.label? = some m ∧ sameLabel k l m = true

/-- What a cast of data of the second type has as its type: its value is public, belongs to the sender, or stays with
its owner. -/
structure AnnTy.IsCast (t : AnnTy) (u : Ty) (s : AnnTy) : Prop where
  data : t.type = u
  owner : t.isPublic = true ∨ t.privacy.isMe = true ∨ t.privacy = s.privacy ∧ t.hom = s.hom

/-- What a value of a choice has as its type; where everybody knows the condition, the values belong to the owner of the
choice. -/
structure AnnTy.IsBranch (k : Option Knowledge) (isOpen : Bool) (s t : AnnTy) : Prop where
  data : ∀ v, s.type.Holds v → t.type.Holds v
  owner : isOpen = true → s.hom = t.hom ∧ s.isPublic = t.isPublic ∧ SameOwner k s.privacy t.privacy

mutual

/-- The types of conversions follow from those of their operands. -/
def Expr.Consistent (k : Option Knowledge) : Expr → Prop
  | .cast i u e _ => (∃ t, i.type = some t ∧ t.IsCast u e.checkedType) ∧ e.Consistent k
  | .reclassify i _ e _ _ => (∃ t, i.type = some t ∧ t.type = e.checkedType.type) ∧ e.Consistent k
  | .tuple i es => i.type = some (.plain (.tuple (es.map Expr.checkedType))) ∧ Expr.AllConsistent k es
  | .call i (.operator _ .ite _ _ _) as _ _ =>
    match as with
    | [c, a, b] =>
      (∃ t, i.type = some t ∧ a.checkedType.IsBranch k c.checkedType.isPublic t ∧
        b.checkedType.IsBranch k c.checkedType.isPublic t) ∧ a.Consistent k ∧ b.Consistent k
    | _ => False
  | _ => True

def Expr.AllConsistent (k : Option Knowledge) : List Expr → Prop
  | [] => True
  | e :: es => e.Consistent k ∧ Expr.AllConsistent k es

end

section Consistent

variable {k : Option Knowledge} {es : List Expr}

theorem Expr.allConsistent_iff : Expr.AllConsistent k es ↔ ∀ e ∈ es, e.Consistent k := by
  induction es with
  | nil => exact ⟨fun _ => nofun, fun _ => trivial⟩
  | cons e es ih => exact (and_congr_right fun _ => ih).trans List.forall_mem_cons.symm

theorem Expr.checkedType_of_type {e : Expr} {t : AnnTy} (h : e.type? = some t) : e.checkedType = t := by
  unfold checkedType
  rw [h]
  rfl

/-- A choice between two values. -/
theorem Expr.consistent_choice {i j : Info} {p : Bool} {h : Hom} {r : Option Expr} {as : List Expr} {o : Int}
    {key : Option CircuitVar} (consistent : (Expr.call i (.operator j .ite p h r) as o key).Consistent k) :
    ∃ c a b t, as = [c, a, b] ∧ i.type = some t ∧ a.checkedType.IsBranch k c.checkedType.isPublic t ∧
      b.checkedType.IsBranch k c.checkedType.isPublic t ∧ a.Consistent k ∧ b.Consistent k := by
  rcases as with _ | ⟨c, _ | ⟨a, _ | ⟨b, _ | ⟨_, _⟩⟩⟩⟩
  · exact consistent.elim
  · exact consistent.elim
  · exact consistent.elim
  · obtain ⟨⟨t, ht, first, second⟩, ha, hb⟩ := consistent
    exact ⟨c, a, b, t, rfl, ht, first, second, ha, hb⟩
  · exact consistent.elim

/-- The plaintext of an expression fits its type. -/
theorem Expr.plaintext_fits (ρ : Reading) {e : Expr} (consistent : e.Consistent k) :
    (e.plaintext ρ).Fits e.checkedType.type := by
  induction e using Expr.inductOn with
  | cast i u e b ih =>
    obtain ⟨⟨t, ht, cast⟩, -⟩ := consistent
    rw [checkedType_of_type (e := .cast i u e b) ht, cast.data]
    exact Plaintext.fits_cast _ u
  | reclassify i m e p h ih =>
    obtain ⟨⟨t, ht, data⟩, inner⟩ := consistent
    rw [checkedType_of_type (e := .reclassify i m e p h) ht, data]
    exact ih inner
  | tuple => exact nofun
  | call i f as o key hf has =>
    cases f with
    | operator j op p h r =>
      cases op with
      | ite =>
        obtain ⟨c, a, b, t, rfl, ht, first, second, ha, hb⟩ := consistent_choice consistent
        rw [checkedType_of_type (e := .call i (.operator j .ite p h r) [c, a, b] o key) ht]
        show (if (c.plaintext ρ).isTrue then a.plaintext ρ else b.plaintext ρ).Fits t.type
        split
        · exact fun v hv => first.data v (has a (by simp) ha v hv)
        · exact fun v hv => second.data v (has b (by simp) hb v hv)
      | _ => exact ρ.fits _
    | _ => exact ρ.fits _
  | leaf e hl =>
    cases e with
    | operator | boolLit | numLit | ident | me | all => exact ρ.fits _
    | _ => cases hl
  | _ => exact ρ.fits _

end Consistent

end Shroud
