import Mathlib.Data.List.Forall2
import Shroud.Proofs.Sketch
import Shroud.Proofs.TypeEquality

/-!
# Conversion as an order

Conversion between types is a preorder with an upper bound for every two types that have a common type.

**Tuples.** Tuples convert part by part (`Ty.converts_tuple`), whoever owns the parts. What holds of types that are no
tuples carries over by an induction on parts (`Ty.inductOnParts`).

**Literals.** All literal types of a sort convert into each other, so a literal in the middle of two conversions tells
nothing about the first one.

**Results.**

* `Ty.converts_self_iff`: conversion is reflexive on types without arrays of symbolic length.
* `Ty.Converts.trans`: it is transitive where the type in the middle has no literal parts.
* `Ty.Joins.comm`, `Ty.Joins.converts`, `Ty.Joins.least`: the common type does not depend on the order of the operands,
  up to conversion; both operands convert to it, and it is the least such type for operands without literal parts.
* `Ty.joins_self_iff`: a type has itself in common with itself, apart from the owners and literals of parts.
-/

namespace Shroud

/-! ## Tuples -/

mutual

/-- Induction over a type as a tuple of parts. -/
theorem Ty.inductOnParts {P : Ty → Prop} (leaf : ∀ t, t.isTuple = false → P t)
    (tuple : ∀ ts, (∀ a ∈ ts, P a.type) → P (.tuple ts)) (t : Ty) : P t := by
  cases t with
  | tuple ts => exact tuple ts (AnnTy.inductOnParts leaf tuple ts)
  | _ => exact leaf _ rfl
  termination_by structural t

theorem AnnTy.inductOnParts {P : Ty → Prop} (leaf : ∀ t, t.isTuple = false → P t)
    (tuple : ∀ ts, (∀ a ∈ ts, P a.type) → P (.tuple ts)) (ts : List AnnTy) : ∀ a ∈ ts, P a.type := by
  cases ts with
  | nil => exact List.forall_mem_nil _
  | cons a ts =>
    obtain ⟨t, _, _, _, _⟩ := a
    exact List.forall_mem_cons.mpr ⟨Ty.inductOnParts leaf tuple t, AnnTy.inductOnParts leaf tuple ts⟩
  termination_by structural ts

end

mutual

/-- The type has the property; a tuple has it if all its parts have it. -/
def Ty.Each (P : Ty → Prop) : Ty → Prop
  | .tuple ts => AnnTy.AllEach P ts
  | t => P t

def AnnTy.AllEach (P : Ty → Prop) : List AnnTy → Prop
  | [] => True
  | ⟨t, _, _, _, _⟩ :: ts => t.Each P ∧ AnnTy.AllEach P ts

end

theorem Ty.each_leaf {P : Ty → Prop} {t : Ty} (leaf : t.isTuple = false) : t.Each P ↔ P t := by
  cases t with
  | tuple => cases leaf
  | _ => rfl

theorem Ty.each_tuple {P : Ty → Prop} {ts : List AnnTy} : (Ty.tuple ts).Each P ↔ ∀ a ∈ ts, a.type.Each P := by
  induction ts with
  | nil => exact iff_of_true trivial (List.forall_mem_nil _)
  | cons a ts ih =>
    obtain ⟨t, _, _, _, _⟩ := a
    rw [List.forall_mem_cons, ← ih]
    rfl

/-! ## Conversions -/

theorem AnnTy.length_of_convertsAll {ts us : List AnnTy} (h : AnnTy.convertsAll ts us = true) :
    ts.length = us.length := by
  induction ts generalizing us with
  | nil =>
    cases us with
    | nil => rfl
    | cons => cases h
  | cons a ts ih =>
    obtain ⟨t, _, _, _, _⟩ := a
    cases us with
    | nil => cases h
    | cons b us => exact congrArg Nat.succ (ih (Bool.and_eq_true_iff.mp h).2)

namespace Ty

variable {t u : Ty}

theorem converts_bool : Ty.bool.Converts u ↔ u = .bool := by
  constructor
  · rintro ⟨-, h⟩
    cases u <;> first | rfl | cases h
  · rintro rfl
    exact ⟨rfl, rfl⟩

theorem converts_number : Ty.number.Converts u ↔ u = .number := by
  constructor
  · rintro ⟨-, h⟩
    cases u <;> first | rfl | cases h
  · rintro rfl
    exact ⟨rfl, rfl⟩

theorem converts_boolLit {b : Bool} : (Ty.boolLit b).Converts u ↔ u = .bool ∨ ∃ c, u = .boolLit c := by
  constructor
  · rintro ⟨-, h⟩
    cases u with
    | bool => exact .inl rfl
    | boolLit c => exact .inr ⟨c, rfl⟩
    | _ => cases h
  · rintro (rfl | ⟨c, rfl⟩) <;> exact ⟨rfl, rfl⟩

theorem converts_integer {s : Bool} {w : Width} :
    (Ty.integer s w).Converts u ↔ u = .number ∨ ∃ v, u = .integer s v ∧ w.bits ≤ v.bits := by
  constructor
  · rintro ⟨-, h⟩
    cases u with
    | number => exact .inl rfl
    | integer s' v =>
      obtain same | wider := Bool.or_eq_true_iff.mp h
      · obtain ⟨signs, widths⟩ := Bool.and_eq_true_iff.mp same
        obtain rfl := eq_of_beq signs
        obtain rfl := eq_of_beq widths
        exact .inr ⟨v, rfl, le_refl _⟩
      · obtain ⟨signs, widths⟩ := Bool.and_eq_true_iff.mp wider
        obtain rfl := eq_of_beq signs
        exact .inr ⟨v, rfl, of_decide_eq_true widths⟩
    | _ => cases h
  · rintro (rfl | ⟨v, rfl, wider⟩)
    · exact ⟨rfl, rfl⟩
    · exact ⟨rfl, Bool.or_eq_true_iff.mpr (.inr (Bool.and_eq_true_iff.mpr ⟨beq_self_eq_true s, decide_eq_true wider⟩))⟩

theorem numLit_converts_integer {n : Int} {s : Bool} {w : Width} :
    (Ty.numLit n).Converts (.integer s w) ↔ 0 ≤ w.bits ∧ inRange s w.bits.toNat n = true := by
  have known : (Ty.numLit n).asksRange (.integer s w) = !decide (0 ≤ w.bits) := rfl
  have fits : (Ty.numLit n).convertsTo (.integer s w) = inRange s w.bits.toNat n := rfl
  simp only [Converts, known, fits, Bool.not_eq_false', decide_eq_true_eq]

theorem numLit_converts_address {n : Int} {p : Bool} :
    (Ty.numLit n).Converts (.address p) ↔ literalWidth n = 160 ∧ 0 ≤ n := by
  have known : (Ty.numLit n).asksRange (.address p) = false := rfl
  have fits : (Ty.numLit n).convertsTo (.address p) = if literalWidth n == 160 && 0 ≤ n then true else false := rfl
  simp [Converts, known, fits]

theorem converts_numLit {n : Int} : (Ty.numLit n).Converts u ↔ (∃ m, u = .numLit m) ∨
    u = .number ∧ inRange true 256 n = true ∨
      (∃ s w, u = .integer s w ∧ 0 ≤ w.bits ∧ inRange s w.bits.toNat n = true) ∨
        ∃ p, u = .address p ∧ literalWidth n = 160 ∧ 0 ≤ n := by
  constructor
  · intro h
    cases u with
    | numLit m => exact .inl ⟨m, rfl⟩
    | number => exact .inr (.inl ⟨rfl, h.2⟩)
    | integer s w => exact .inr (.inr (.inl ⟨s, w, rfl, numLit_converts_integer.mp h⟩))
    | address p => exact .inr (.inr (.inr ⟨p, rfl, numLit_converts_address.mp h⟩))
    | _ => cases h.2
  · rintro (⟨m, rfl⟩ | ⟨rfl, fits⟩ | ⟨s, w, rfl, fits⟩ | ⟨p, rfl, fits⟩)
    · exact ⟨rfl, rfl⟩
    · exact ⟨rfl, fits⟩
    · exact numLit_converts_integer.mpr fits
    · exact numLit_converts_address.mpr fits

theorem converts_address {p : Bool} : (Ty.address p).Converts u ↔ u = .address p ∨ u = .address false ∧ p = true := by
  constructor
  · rintro ⟨-, h⟩
    cases u with
    | address q =>
      cases p <;> cases q
      · exact .inl rfl
      · cases h
      · exact .inr ⟨rfl, rfl⟩
      · exact .inl rfl
    | _ => cases p <;> cases h
  · rintro (rfl | ⟨rfl, rfl⟩)
    · exact ⟨rfl, Bool.or_eq_true_iff.mpr (.inl (beq_self_eq_true p))⟩
    · exact ⟨rfl, rfl⟩

theorem converts_enumValue {ns : List String} {r : Option NamedTarget} : (Ty.named .enumValue ns r).Converts u ↔
    u.same (.named .enumValue ns r) = true ∨ ∃ q, u = .named .enum ns.dropLast q := by
  refine (and_iff_right rfl).trans (Bool.or_eq_true_iff.trans (or_congr_right ?_))
  constructor
  · intro h
    cases u with
    | named sort ms q =>
      cases sort with
      | enum =>
        obtain rfl := eq_of_beq h
        exact ⟨q, rfl⟩
      | _ => cases h
    | _ => cases h
  · rintro ⟨q, rfl⟩
    exact beq_self_eq_true ns.dropLast

/-- Types of which nothing special is said convert to types that they equal. -/
def convertsPlainly : Ty → Bool
  | .elementary _ | .mapping .. | .array .. | .cipher .. | .publicKey _ | .randomness _ | .function .. => true
  | .named sort _ _ => sort != .enumValue
  | _ => false

theorem converts_plain (plain : t.convertsPlainly = true) : t.Converts u ↔ t.same u = true := by
  rw [Ty.same_comm]
  cases t with
  | named sort ns r =>
    cases sort with
    | enumValue => cases plain
    | _ => exact and_iff_right rfl
  | elementary | mapping | array | cipher | publicKey | randomness | function => exact and_iff_right rfl
  | _ => cases plain

theorem convertsPlainly_of_same (plain : t.convertsPlainly = true) (h : t.same u = true) :
    u.convertsPlainly = true := by
  cases t with
  | named sort ns r =>
    cases u with
    | named sort' ms q =>
      obtain rfl := eq_of_beq (Bool.and_eq_true_iff.mp h).1
      exact plain
    | _ => cases h
  | elementary | mapping | array | cipher | publicKey | randomness | function =>
    cases u <;>
      first
        | rfl
        | cases h
  | _ => cases plain

theorem converts_tuple {ts : List AnnTy} : (Ty.tuple ts).Converts u ↔
    ∃ us, u = .tuple us ∧ List.Forall₂ (fun a b => a.type.Converts b.type) ts us := by
  cases u with
  | tuple us =>
    have parts : (Ty.tuple ts).Converts (.tuple us) ↔ List.Forall₂ (fun a b => a.type.Converts b.type) ts us := by
      induction ts generalizing us with
      | nil => cases us <;> simp [Converts, asksRange, convertsTo, AnnTy.askRange, AnnTy.convertsAll]
      | cons a ts ih =>
        obtain ⟨t, _, _, _, _⟩ := a
        cases us with
        | nil => simp [Converts, convertsTo, AnnTy.convertsAll]
        | cons b us =>
          rw [List.forall₂_cons, ← ih us]
          simp only [Converts, asksRange, convertsTo, AnnTy.askRange, AnnTy.convertsAll]
          by_cases rest : AnnTy.convertsAll ts us = true
          · have length := AnnTy.length_of_convertsAll rest
            by_cases first : t.convertsTo b.type = true <;> simp [rest, length, first]
          · simp [rest]
    rw [parts]
    exact ⟨fun h => ⟨us, rfl, h⟩, fun ⟨_, same, h⟩ => by cases same; exact h⟩
  | _ => exact iff_of_false (fun h => by cases h.2) (fun ⟨_, other, _⟩ => by cases other)

end Ty

section Transitivity

variable {ν : Nat → OwnerKey} {t m u : Ty}

/-- No part has the type of a literal. -/
def Ty.IsDeclared (t : Ty) : Prop := t.Each fun p => p.isLiteral = false

/-- Literals are in the range of numbers of no declared type. -/
def Ty.FitsNumbers (t : Ty) : Prop := t.Each fun p => ∀ n, p = .numLit n → Ty.number.canRepresent n = true

theorem AnnTy.areResolved_types {ts : List AnnTy} (h : AnnTy.AreResolved ν ts) : ∀ a ∈ ts, a.type.IsResolved ν := by
  induction ts with
  | nil => exact List.forall_mem_nil _
  | cons a ts ih =>
    obtain ⟨t, p, _, _, _⟩ := a
    exact List.forall_mem_cons.mpr ⟨h.1.1, ih h.2⟩

theorem Ty.Converts.trans_leaf (leaf : t.isTuple = false) (ht : t.IsResolved ν) (hm : m.IsResolved ν)
    (hu : u.IsResolved ν) (declared : m.isLiteral = false) (fits : ∀ n, t = .numLit n → Ty.number.canRepresent n = true)
    (h : t.Converts m) (h' : m.Converts u) : t.Converts u := by
  have plainly (plain : t.convertsPlainly = true) : t.Converts u := by
    have same := (converts_plain plain).mp h
    have same' := (converts_plain (convertsPlainly_of_same plain same)).mp h'
    exact (converts_plain plain).mpr (Ty.same_trans t m u ht hm hu same same')
  cases t with
  | bool =>
    obtain rfl := converts_bool.mp h
    exact h'
  | number =>
    obtain rfl := converts_number.mp h
    exact h'
  | boolLit b =>
    obtain rfl | ⟨c, rfl⟩ := converts_boolLit.mp h
    · exact converts_boolLit.mpr (.inl (converts_bool.mp h'))
    · cases declared
  | integer s w =>
    obtain rfl | ⟨v, rfl, wider⟩ := converts_integer.mp h
    · exact converts_integer.mpr (.inl (converts_number.mp h'))
    · refine converts_integer.mpr ((converts_integer.mp h').imp_right ?_)
      rintro ⟨x, rfl, wider'⟩
      exact ⟨x, rfl, wider.trans wider'⟩
  | numLit n =>
    obtain ⟨k, rfl⟩ | ⟨rfl, range⟩ | ⟨s, w, rfl, width, range⟩ | ⟨p, rfl, width, positive⟩ := converts_numLit.mp h
    · cases declared
    · exact converts_numLit.mpr (.inr (.inl ⟨converts_number.mp h', range⟩))
    · obtain rfl | ⟨v, rfl, wider⟩ := converts_integer.mp h'
      · exact converts_numLit.mpr (.inr (.inl ⟨rfl, fits n rfl⟩))
      · exact converts_numLit.mpr (.inr (.inr (.inl ⟨s, v, rfl, width.trans wider,
          inRange_mono range (Int.toNat_le_toNat wider)⟩)))
    · obtain rfl | ⟨rfl, -⟩ := converts_address.mp h'
      · exact converts_numLit.mpr (.inr (.inr (.inr ⟨p, rfl, width, positive⟩)))
      · exact converts_numLit.mpr (.inr (.inr (.inr ⟨false, rfl, width, positive⟩)))
  | address p =>
    obtain rfl | ⟨rfl, rfl⟩ := converts_address.mp h
    · exact h'
    · obtain rfl | ⟨rfl, -⟩ := converts_address.mp h' <;> exact h
  | named sort ns r =>
    cases sort with
    | enumValue =>
      obtain same | ⟨q, rfl⟩ := converts_enumValue.mp h
      · cases m with
        | named sort' ms r' =>
          obtain ⟨rfl, rfl⟩ := (Ty.same_named hm ht).mp same
          refine converts_enumValue.mpr ((converts_enumValue.mp h').imp_left fun same' => ?_)
          exact Ty.same_trans u _ _ hu hm ht same' same
        | _ => cases same
      · have same := (converts_plain rfl).mp h'
        cases u with
        | named sort' ms r' =>
          obtain ⟨rfl, rfl⟩ := (Ty.same_named hm hu).mp same
          exact converts_enumValue.mpr (.inr ⟨r', rfl⟩)
        | _ => cases same
    | _ => exact plainly rfl
  | tuple => cases leaf
  | _ => exact plainly rfl

/-- Conversion is transitive, if the type in the middle has no literal parts. -/
theorem Ty.Converts.trans (ht : t.IsResolved ν) (hm : m.IsResolved ν) (hu : u.IsResolved ν) (declared : m.IsDeclared)
    (fits : t.FitsNumbers) (h : t.Converts m) (h' : m.Converts u) : t.Converts u := by
  induction t using Ty.inductOnParts generalizing m u with
  | leaf t leaf =>
    have single : m.isTuple = false := (isTuple_of_convertsTo h.2).trans leaf
    exact trans_leaf leaf ht hm hu ((each_leaf single).mp declared) ((each_leaf leaf).mp fits) h h'
  | tuple ts ih =>
    obtain ⟨ms, rfl, first⟩ := converts_tuple.mp h
    obtain ⟨us, rfl, second⟩ := converts_tuple.mp h'
    refine converts_tuple.mpr ⟨us, rfl, ?_⟩
    replace ht := AnnTy.areResolved_types ht
    replace hm := AnnTy.areResolved_types hm
    replace hu := AnnTy.areResolved_types hu
    replace declared := each_tuple.mp declared
    replace fits := each_tuple.mp fits
    clear h h'
    induction first generalizing us with
    | nil =>
      cases second
      exact .nil
    | @cons a b as bs ab _ rest =>
      cases second with
      | @cons _ c _ cs bc others =>
        simp only [List.forall_mem_cons] at ih ht hm hu declared fits
        exact .cons (ih.1 ht.1 hm.1 hu.1 declared.1 fits.1 ab bc)
          (rest ih.2 _ others ht.2 hm.2 hu.2 declared.2 fits.2)

end Transitivity

/-! ### Reflexivity -/

section Reflexivity

variable {ν : Nat → OwnerKey} {t u : Ty}

theorem AnnTy.areOwned_types {ts : List AnnTy} (h : AnnTy.AreOwned ts) : ∀ a ∈ ts, a.type.IsOwned := by
  induction ts with
  | nil => exact List.forall_mem_nil _
  | cons a ts ih =>
    obtain ⟨t, p, _, _, _⟩ := a
    exact List.forall_mem_cons.mpr ⟨h.1.1, ih h.2⟩

theorem forall₂_self {α : Type} {R : α → α → Prop} {as : List α} : List.Forall₂ R as as ↔ ∀ a ∈ as, R a a := by
  induction as with
  | nil => exact iff_of_true .nil (List.forall_mem_nil _)
  | cons a as ih => rw [List.forall₂_cons, ih, List.forall_mem_cons]

/-- A type converts to itself if and only if no array in it has a symbolic length. -/
theorem Ty.converts_self_iff (owned : t.IsOwned) : t.Converts t ↔ t.Each fun p => p.isDefinite = true := by
  induction t using Ty.inductOnParts with
  | leaf t leaf =>
    refine Iff.trans ?_ (each_leaf leaf).symm
    cases h : t.convertsPlainly with
    | true => exact (converts_plain h).trans (same_self_iff owned)
    | false =>
      cases t with
      | bool => exact iff_of_true (converts_bool.mpr rfl) rfl
      | number => exact iff_of_true (converts_number.mpr rfl) rfl
      | boolLit b => exact iff_of_true (converts_boolLit.mpr (.inr ⟨b, rfl⟩)) rfl
      | integer s w => exact iff_of_true (converts_integer.mpr (.inr ⟨w, rfl, le_refl _⟩)) rfl
      | numLit n => exact iff_of_true (converts_numLit.mpr (.inl ⟨n, rfl⟩)) rfl
      | address p => exact iff_of_true (converts_address.mpr (.inl rfl)) rfl
      | named sort ns r =>
        cases sort with
        | enumValue => exact iff_of_true (converts_enumValue.mpr (.inl (same_of_isDefinite _ owned rfl))) rfl
        | _ => cases h
      | tuple => cases leaf
      | _ => cases h
  | tuple ts ih =>
    rw [each_tuple, converts_tuple]
    simp only [tuple.injEq, exists_eq_left', forall₂_self]
    exact forall₂_congr fun a ha => ih a ha (AnnTy.areOwned_types owned a ha)

theorem Ty.isDefinite_of_converts (leaf : t.isTuple = false) (h : t.Converts u) : u.isDefinite = true := by
  cases plain : t.convertsPlainly with
  | true => exact isDefinite_of_same t u ((converts_plain plain).mp h)
  | false =>
    cases t with
    | bool =>
      obtain rfl := converts_bool.mp h
      rfl
    | number =>
      obtain rfl := converts_number.mp h
      rfl
    | boolLit => obtain rfl | ⟨_, rfl⟩ := converts_boolLit.mp h <;> rfl
    | integer => obtain rfl | ⟨_, rfl, -⟩ := converts_integer.mp h <;> rfl
    | numLit =>
      obtain ⟨_, rfl⟩ | ⟨rfl, -⟩ | ⟨_, _, rfl, -⟩ | ⟨_, rfl, -⟩ := converts_numLit.mp h <;> rfl
    | address => obtain rfl | ⟨rfl, -⟩ := converts_address.mp h <;> rfl
    | named sort =>
      cases sort with
      | enumValue =>
        obtain same | ⟨_, rfl⟩ := converts_enumValue.mp h
        · exact isDefinite_of_same _ u ((Ty.same_comm _ _).trans same)
        · rfl
      | _ => cases plain
    | tuple => cases leaf
    | _ => cases plain

/-- What some type converts to converts to itself. -/
theorem Ty.Converts.target (owned : u.IsOwned) (h : t.Converts u) : u.Converts u := by
  refine (converts_self_iff owned).mpr ?_
  clear owned
  induction t using Ty.inductOnParts generalizing u with
  | leaf t leaf =>
    have single : u.isTuple = false := (isTuple_of_convertsTo h.2).trans leaf
    exact (each_leaf single).mpr (isDefinite_of_converts leaf h)
  | tuple ts ih =>
    obtain ⟨us, rfl, parts⟩ := converts_tuple.mp h
    clear h
    refine each_tuple.mpr ?_
    induction parts with
    | nil => exact List.forall_mem_nil _
    | cons ab _ rest =>
      rw [List.forall_mem_cons] at ih
      exact List.forall_mem_cons.mpr ⟨ih.1 ab, rest ih.2⟩

end Reflexivity

/-! ## Common types -/

/-- The second type and the first have the third in common, where literals are given declared types. -/
def Ty.Joins (s t c : Ty) : Prop := s.combineAsksRange t = false ∧ s.combine true t = .type c

/-- The relation holds part by part. The parts in the third list have no owners. -/
inductive AnnTy.Parts (R : Ty → Ty → Ty → Prop) : List AnnTy → List AnnTy → List AnnTy → Prop where
  | nil : Parts R [] [] []
  | cons {a b : AnnTy} {as bs cs : List AnnTy} {c : Ty} (first : R a.type b.type c) (rest : Parts R as bs cs) :
      Parts R (a :: as) (b :: bs) (.plain c :: cs)

namespace AnnTy.Parts

variable {R R' : Ty → Ty → Ty → Prop} {Q : Ty → Ty → Prop} {ts us cs vs : List AnnTy}

theorem imp (h : Parts R ts us cs) (f : ∀ a ∈ ts, ∀ b ∈ us, ∀ c, R a.type b.type c → R' a.type b.type c) :
    Parts R' ts us cs := by
  induction h with
  | nil => exact .nil
  | cons first _ ih =>
    exact .cons (f _ List.mem_cons_self _ List.mem_cons_self _ first)
      (ih fun a ha b hb => f a (List.mem_cons_of_mem _ ha) b (List.mem_cons_of_mem _ hb))

theorem left (h : Parts (fun s _ c => Q s c) ts us cs) : List.Forall₂ (fun a c => Q a.type c.type) ts cs := by
  induction h with
  | nil => exact .nil
  | cons first _ ih => exact .cons first ih

theorem right (h : Parts (fun _ t c => Q t c) ts us cs) : List.Forall₂ (fun b c => Q b.type c.type) us cs := by
  induction h with
  | nil => exact .nil
  | cons first _ ih => exact .cons first ih

theorem least (h : Parts (fun s t c => ∀ v, Q s v → Q t v → Q c v) ts us cs)
    (hs : List.Forall₂ (fun a v => Q a.type v.type) ts vs) (ht : List.Forall₂ (fun b v => Q b.type v.type) us vs) :
    List.Forall₂ (fun c v => Q c.type v.type) cs vs := by
  induction h generalizing vs with
  | nil =>
    cases hs
    exact .nil
  | cons first _ ih =>
    cases hs with
    | cons s hs =>
      cases ht with
      | cons t ht => exact .cons (first _ s t) (ih hs ht)

/-- The parts in the other order. -/
theorem comm (h : Parts (fun s t c => ∃ d, R t s d ∧ Q c d ∧ Q d c) ts us cs) : ∃ ds, Parts R us ts ds ∧
    List.Forall₂ (fun c d => Q c.type d.type) cs ds ∧ List.Forall₂ (fun d c => Q d.type c.type) ds cs := by
  induction h with
  | nil => exact ⟨[], .nil, .nil, .nil⟩
  | cons first _ ih =>
    obtain ⟨d, back, there, here⟩ := first
    obtain ⟨ds, rest, theres, heres⟩ := ih
    exact ⟨.plain d :: ds, .cons back rest, .cons there theres, .cons here heres⟩

end AnnTy.Parts

namespace Ty

variable {ν : Nat → OwnerKey} {s t c d v : Ty}

/-- Literals of one sort. -/
def areLiterals : Ty → Ty → Bool
  | .numLit _, .numLit _ => true
  | .boolLit _, .boolLit _ => true
  | _, _ => false

theorem combineAsksRange_leaf (leaf : s.isTuple = false) :
    s.combineAsksRange t = (t.asksRange s || (!t.convertsTo s && s.asksRange t)) := by
  cases s with
  | tuple => cases leaf
  | _ => rfl

theorem combine_leaf (leaf : s.isTuple = false) (other : s.areLiterals t = false) : s.combine true t = s.wider t := by
  cases s with
  | tuple => cases leaf
  | numLit | boolLit =>
    cases t with
    | numLit | boolLit =>
      first
        | rfl
        | cases other
    | _ => rfl
  | _ => rfl

theorem asksRange_of_converts (leaf : s.isTuple = false) (h : s.Converts t) : t.asksRange s = false := by
  cases t with
  | numLit n =>
    cases s with
    | numLit | boolLit => rfl
    | _ => cases isLiteral_of_convertsTo h.2 rfl
  | tuple => cases leaf.symm.trans (isTuple_of_convertsTo h.2).symm
  | _ => rfl

/-- Two types have one of them in common, unless both are literal. -/
theorem joins_leaf (leaf : s.isTuple = false) (other : s.areLiterals t = false) :
    s.Joins t c ↔ t.Converts s ∧ c = s ∨ ¬ t.Converts s ∧ s.Converts t ∧ c = t := by
  have asks := asksRange_of_converts (t := t) leaf
  unfold Joins
  rw [combineAsksRange_leaf leaf, combine_leaf leaf other]
  unfold wider
  simp only [Converts] at *
  cases back : t.convertsTo s <;> cases forth : s.convertsTo t <;> cases low : t.asksRange s <;>
    simp_all [@eq_comm _ c]

theorem joins_numLits {n m : Int} : (Ty.numLit n).Joins (.numLit m) c ↔ (integerFor n).Joins (integerFor m) c :=
  and_congr_left fun _ => iff_of_true rfl (by rw [combineAsksRange_leaf rfl]; simp [asksRange, integerFor])

theorem joins_boolLits {a b : Bool} : (Ty.boolLit a).Joins (.boolLit b) c ↔ c = .bool := by
  simp [Joins, combineAsksRange, combine, asksRange, eq_comm]

theorem combine_ne_literal : s.combine true t ≠ .literal := by
  have wider {t u : Ty} : t.wider u ≠ .literal := by
    intro h
    unfold wider at h
    split at h
    · cases h
    · split at h <;> cases h
  cases s with
  | boolLit =>
    cases t with
    | boolLit =>
      intro h
      cases h
    | _ => exact wider
  | numLit => cases t <;> exact wider
  | tuple ts =>
    intro h
    cases t with
    | tuple us =>
      unfold combine at h
      dsimp only at h
      split at h <;> cases h
    | _ => cases h
  | _ => exact wider

theorem joins_parts_iff {ts us cs : List AnnTy} : AnnTy.Parts Joins ts us cs ↔
    AnnTy.combineAskRange ts us = false ∧ AnnTy.combineAll true ts us = some cs := by
  induction ts generalizing us cs with
  | nil =>
    cases us with
    | nil =>
      constructor
      · rintro ⟨⟩
        exact ⟨rfl, rfl⟩
      · rintro ⟨-, h⟩
        cases h
        exact .nil
    | cons =>
      refine iff_of_false (fun h => ?_) fun h => ?_
      · cases h
      · cases h.2
  | cons a ts ih =>
    obtain ⟨t, p, g, w, d⟩ := a
    cases us with
    | nil =>
      refine iff_of_false (fun h => ?_) fun h => ?_
      · cases h
      · cases h.2
    | cons b us =>
      constructor
      · rintro (_ | ⟨first, rest⟩)
        obtain ⟨asks, common⟩ := ih.mp rest
        simp only [AnnTy.combineAskRange, AnnTy.combineAll, first.1, first.2, asks, common, Bool.or_false, true_and]
      · rintro ⟨asks, common⟩
        simp only [AnnTy.combineAskRange, Bool.or_eq_false_iff] at asks
        simp only [AnnTy.combineAll] at common
        split at common
        · rename_i c cs' first rest
          cases common
          exact .cons ⟨asks.1, first⟩ (ih.mpr ⟨asks.2, rest⟩)
        · rename_i first _
          exact absurd first combine_ne_literal
        · cases common

theorem length_of_combineAll {ts us cs : List AnnTy} (h : AnnTy.combineAll true ts us = some cs) :
    ts.length = us.length := by
  induction ts generalizing us cs with
  | nil =>
    cases us with
    | nil => rfl
    | cons => cases h
  | cons a ts ih =>
    obtain ⟨t, p, g, w, d⟩ := a
    cases us with
    | nil => cases h
    | cons b us =>
      simp only [AnnTy.combineAll] at h
      split at h
      · exact congrArg Nat.succ (ih ‹_›)
      · exact congrArg Nat.succ (ih ‹_›)
      · cases h

theorem joins_tuple {ts : List AnnTy} :
    (Ty.tuple ts).Joins t c ↔ ∃ us cs, t = .tuple us ∧ c = .tuple cs ∧ AnnTy.Parts Joins ts us cs := by
  cases t with
  | tuple us =>
    have asks : (Ty.tuple ts).combineAsksRange (.tuple us) =
        (ts.length == us.length && AnnTy.combineAskRange ts us) := rfl
    constructor
    · rintro ⟨range, common⟩
      unfold combine at common
      dsimp only at common
      split at common
      · rename_i cs parts
        cases common
        rw [asks, length_of_combineAll parts, beq_self_eq_true, Bool.true_and] at range
        exact ⟨us, cs, rfl, rfl, joins_parts_iff.mpr ⟨range, parts⟩⟩
      · cases common
    · rintro ⟨_, cs, ⟨⟩, rfl, parts⟩
      obtain ⟨range, common⟩ := joins_parts_iff.mp parts
      refine ⟨asks.trans (by rw [range, Bool.and_false]), ?_⟩
      unfold combine
      simp only [common]
  | _ =>
    refine iff_of_false (fun h => ?_) ?_
    · cases h.2
    · rintro ⟨_, _, other, -⟩
      cases other

/-! ### Both operands convert to their common type -/

/-- A number fits into the type that is declared for it. -/
theorem inRange_integerFor (n : Int) : inRange (decide (n < 0)) (literalWidth n) n = true := by
  by_cases negative : n < 0
  · have digits : n.natAbs < 2 ^ bitLength n.natAbs := by
      unfold bitLength
      split
      · omega
      · exact Nat.lt_log2_self
    have needed : bitsNeeded n ≤ literalWidth n := by
      unfold literalWidth
      omega
    have bound : n.natAbs ≤ 2 ^ (literalWidth n - 1) := by
      unfold bitsNeeded at needed
      simp only [negative, if_true] at needed
      split at needed
      · rename_i power
        exact power.le.trans (Nat.pow_le_pow_right (by decide) (by omega))
      · exact digits.le.trans (Nat.pow_le_pow_right (by decide) (by omega))
    rw [decide_eq_true negative]
    simp only [inRange, if_true, Bool.and_eq_true, decide_eq_true_eq]
    have positive : (0 : Int) < Nat.pow 2 (literalWidth n - 1) := Int.natCast_pos.mpr (Nat.two_pow_pos _)
    have whole : (n.natAbs : Int) ≤ Nat.pow 2 (literalWidth n - 1) := Int.ofNat_le.mpr bound
    omega
  · rw [decide_eq_false negative]
    exact inRange_of_literalWidth rfl (Int.not_lt.mp negative)

theorem literal_converts {n : Int} : (Ty.numLit n).Converts (integerFor n) :=
  converts_numLit.mpr (.inr (.inr (.inl ⟨_, _, rfl, Int.natCast_nonneg _, inRange_integerFor n⟩)))

theorem converts_of_integerFor {n : Int} {s : Bool} {w : Width} (h : (integerFor n).Converts (.integer s w)) :
    (Ty.numLit n).Converts (.integer s w) := by
  obtain other | ⟨w, ⟨⟩, wider⟩ := converts_integer.mp h
  · cases other
  · have self : (Ty.numLit n).Converts (integerFor n) := literal_converts
    obtain ⟨_, other⟩ | ⟨other, -⟩ | ⟨_, _, ⟨⟩, width, range⟩ | ⟨_, other, -⟩ := converts_numLit.mp self
    · cases other
    · cases other
    · exact converts_numLit.mpr (.inr (.inr (.inl ⟨_, w, rfl, width.trans wider,
        inRange_mono range (Int.toNat_le_toNat wider)⟩)))
    · cases other

theorem areLiterals_cases (h : s.areLiterals t = true) :
    (∃ n m, s = .numLit n ∧ t = .numLit m) ∨ ∃ a b, s = .boolLit a ∧ t = .boolLit b := by
  cases s with
  | numLit n =>
    cases t with
    | numLit m => exact .inl ⟨n, m, rfl, rfl⟩
    | _ => cases h
  | boolLit a =>
    cases t with
    | boolLit b => exact .inr ⟨a, b, rfl, rfl⟩
    | _ => cases h
  | _ => cases h

/-- The common type of two numbers is the wider of their declared types. -/
theorem joins_numLits_cases {n m : Int} (h : (Ty.numLit n).Joins (.numLit m) c) :
    ∃ s w, c = .integer s w ∧ (integerFor n).Converts c ∧ (integerFor m).Converts c := by
  have self (k : Int) : (integerFor k).Converts (integerFor k) := converts_integer.mpr (.inr ⟨_, rfl, le_refl _⟩)
  obtain ⟨back, rfl⟩ | ⟨-, forth, rfl⟩ := (joins_leaf rfl rfl).mp (joins_numLits.mp h)
  · exact ⟨_, _, rfl, self n, back⟩
  · exact ⟨_, _, rfl, forth, self m⟩

theorem Joins.converts (hs : s.IsOwned) (ht : t.IsOwned) (h : s.Joins t c) : s.Converts c ∧ t.Converts c := by
  induction s using Ty.inductOnParts generalizing t c with
  | leaf s leaf =>
    cases other : s.areLiterals t with
    | false =>
      obtain ⟨back, rfl⟩ | ⟨-, forth, rfl⟩ := (joins_leaf leaf other).mp h
      · exact ⟨back.target hs, back⟩
      · exact ⟨forth, forth.target ht⟩
    | true =>
      obtain ⟨n, m, rfl, rfl⟩ | ⟨a, b, rfl, rfl⟩ := areLiterals_cases other
      · obtain ⟨s, w, rfl, first, second⟩ := joins_numLits_cases h
        exact ⟨converts_of_integerFor first, converts_of_integerFor second⟩
      · obtain rfl := joins_boolLits.mp h
        exact ⟨converts_boolLit.mpr (.inl rfl), converts_boolLit.mpr (.inl rfl)⟩
  | tuple ts ih =>
    obtain ⟨us, cs, rfl, rfl, parts⟩ := joins_tuple.mp h
    have hs := AnnTy.areOwned_types hs
    have ht := AnnTy.areOwned_types ht
    have both : AnnTy.Parts (fun s t c => s.Converts c ∧ t.Converts c) ts us cs :=
      parts.imp fun a ha b hb c common => ih a ha (hs a ha) (ht b hb) common
    exact ⟨converts_tuple.mpr ⟨cs, rfl, (both.imp fun _ _ _ _ _ h => h.1).left⟩,
      converts_tuple.mpr ⟨cs, rfl, (both.imp fun _ _ _ _ _ h => h.2).right⟩⟩

theorem Joins.comm_leaf (leaf : s.isTuple = false) (other : s.areLiterals t = false) (hs : s.IsOwned)
    (ht : t.IsOwned) (h : s.Joins t c) : ∃ d, t.Joins s d ∧ c.Converts d ∧ d.Converts c := by
  replace h := (joins_leaf leaf other).mp h
  have single : t.isTuple = false := by
    obtain ⟨back, -⟩ | ⟨-, forth, -⟩ := h
    · exact (isTuple_of_convertsTo back.2).symm.trans leaf
    · exact (isTuple_of_convertsTo forth.2).trans leaf
  have symm : t.areLiterals s = false := by cases s <;> cases t <;> first | rfl | cases other
  by_cases forth : s.Converts t
  · refine ⟨t, (joins_leaf single symm).mpr (.inl ⟨forth, rfl⟩), ?_⟩
    obtain ⟨back, rfl⟩ | ⟨-, -, rfl⟩ := h
    · exact ⟨forth, back⟩
    · exact ⟨forth.target ht, forth.target ht⟩
  · obtain ⟨back, rfl⟩ | ⟨-, impossible, -⟩ := h
    · exact ⟨_, (joins_leaf single symm).mpr (.inr ⟨forth, back, rfl⟩), back.target hs, back.target hs⟩
    · exact absurd impossible forth

/-- In the other order, the operands have a type in common that this one converts to and from. -/
theorem Joins.comm (hs : s.IsOwned) (ht : t.IsOwned) (h : s.Joins t c) :
    ∃ d, t.Joins s d ∧ c.Converts d ∧ d.Converts c := by
  induction s using Ty.inductOnParts generalizing t c with
  | leaf s leaf =>
    cases other : s.areLiterals t with
    | false => exact h.comm_leaf leaf other hs ht
    | true =>
      obtain ⟨n, m, rfl, rfl⟩ | ⟨a, b, rfl, rfl⟩ := areLiterals_cases other
      · have owned (k : Int) : (integerFor k).IsOwned := trivial
        obtain ⟨d, back, there, here⟩ := (joins_numLits.mp h).comm_leaf rfl rfl (owned n) (owned m)
        exact ⟨d, joins_numLits.mpr back, there, here⟩
      · obtain rfl := joins_boolLits.mp h
        exact ⟨.bool, joins_boolLits.mpr rfl, converts_bool.mpr rfl, converts_bool.mpr rfl⟩
  | tuple ts ih =>
    obtain ⟨us, cs, rfl, rfl, parts⟩ := joins_tuple.mp h
    have hs := AnnTy.areOwned_types hs
    have ht := AnnTy.areOwned_types ht
    have back : AnnTy.Parts (fun s t c => ∃ d, t.Joins s d ∧ c.Converts d ∧ d.Converts c) ts us cs :=
      parts.imp fun a ha b hb c common => ih a ha (hs a ha) (ht b hb) common
    obtain ⟨ds, common, there, here⟩ := back.comm
    exact ⟨.tuple ds, joins_tuple.mpr ⟨ts, ds, rfl, rfl, common⟩, converts_tuple.mpr ⟨ds, rfl, there⟩,
      converts_tuple.mpr ⟨cs, rfl, here⟩⟩

/-- A common type of operands, one of which has no literal parts, converts to every type that both convert to. -/
theorem Joins.least (declared : s.IsDeclared) (h : s.Joins t c) (hs : s.Converts v) (ht : t.Converts v) :
    c.Converts v := by
  induction s using Ty.inductOnParts generalizing t c v with
  | leaf s leaf =>
    have declared : s.isLiteral = false := (each_leaf leaf).mp declared
    have other : s.areLiterals t = false := by
      cases s with
      | numLit | boolLit => cases declared
      | _ => rfl
    obtain ⟨-, rfl⟩ | ⟨-, -, rfl⟩ := (joins_leaf leaf other).mp h
    · exact hs
    · exact ht
  | tuple ts ih =>
    have declared := each_tuple.mp declared
    obtain ⟨us, cs, rfl, rfl, parts⟩ := joins_tuple.mp h
    obtain ⟨vs, rfl, first⟩ := converts_tuple.mp hs
    obtain ⟨_, ⟨⟩, second⟩ := converts_tuple.mp ht
    have bound : AnnTy.Parts (fun s t c => ∀ v, s.Converts v → t.Converts v → c.Converts v) ts us cs :=
      parts.imp fun a ha b _ c common v hs ht => ih a ha (declared a ha) common hs ht
    exact converts_tuple.mpr ⟨vs, rfl, bound.least first second⟩

end Ty

mutual

/-- Declared types in place of those of literals, and parts without owners. -/
def Ty.abstractParts : Ty → Ty
  | .tuple ts => .tuple (AnnTy.abstractParts ts)
  | t => t.abstract

def AnnTy.abstractParts : List AnnTy → List AnnTy
  | [] => []
  | ⟨t, _, _, _, _⟩ :: ts => .plain t.abstractParts :: AnnTy.abstractParts ts

end

namespace Ty

variable {ν : Nat → OwnerKey} {t c : Ty}

theorem abstractParts_leaf (leaf : t.isTuple = false) : t.abstractParts = t.abstract := by
  cases t with
  | tuple => cases leaf
  | _ => rfl

theorem parts_self {R : Ty → Ty → Ty → Prop} {P : Ty → Prop} {ts cs : List AnnTy}
    (h : ∀ a ∈ ts, ∀ c, R a.type a.type c ↔ P a.type ∧ c = a.type.abstractParts) :
    AnnTy.Parts R ts ts cs ↔ (∀ a ∈ ts, P a.type) ∧ cs = AnnTy.abstractParts ts := by
  induction ts generalizing cs with
  | nil =>
    constructor
    · rintro ⟨⟩
      exact ⟨List.forall_mem_nil _, rfl⟩
    · rintro ⟨-, rfl⟩
      exact .nil
  | cons a ts ih =>
    obtain ⟨t, p, g, w, d⟩ := a
    obtain ⟨first, others⟩ := List.forall_mem_cons.mp h
    rw [List.forall_mem_cons]
    constructor
    · rintro (_ | ⟨joins, rest⟩)
      obtain ⟨holds, rfl⟩ := (first _).mp joins
      obtain ⟨all, rfl⟩ := (ih others).mp rest
      exact ⟨⟨holds, all⟩, rfl⟩
    · rintro ⟨⟨holds, all⟩, rfl⟩
      exact .cons ((first _).mpr ⟨holds, rfl⟩) ((ih others).mpr ⟨all, rfl⟩)

/-- A type has itself in common with itself, if no array in it has a symbolic length. -/
theorem joins_self_iff (owned : t.IsOwned) :
    t.Joins t c ↔ (t.Each fun p => p.isDefinite = true) ∧ c = t.abstractParts := by
  induction t using Ty.inductOnParts generalizing c with
  | leaf t leaf =>
    rw [each_leaf leaf, abstractParts_leaf leaf]
    cases literal : t.isLiteral with
    | true =>
      cases t with
      | numLit n =>
        have self : (integerFor n).Converts (integerFor n) := converts_integer.mpr (.inr ⟨_, rfl, le_refl _⟩)
        rw [joins_numLits, joins_leaf rfl rfl]
        simp only [self, true_and, not_true, false_and, or_false]
        exact (and_iff_right rfl).symm
      | boolLit b => exact joins_boolLits.trans (and_iff_right rfl).symm
      | _ => cases literal
    | false =>
      have other : t.areLiterals t = false := by
        cases t with
        | numLit | boolLit => cases literal
        | _ => rfl
      have same : t.abstract = t := by
        cases t with
        | numLit | boolLit => cases literal
        | _ => rfl
      rw [joins_leaf leaf other, converts_self_iff owned, each_leaf leaf, same]
      tauto
  | tuple ts ih =>
    have parts {cs : List AnnTy} : AnnTy.Parts Joins ts ts cs ↔
        (∀ a ∈ ts, a.type.Each fun p => p.isDefinite = true) ∧ cs = AnnTy.abstractParts ts :=
      parts_self fun a ha _ => ih a ha (AnnTy.areOwned_types owned a ha)
    rw [joins_tuple, each_tuple]
    constructor
    · rintro ⟨_, cs, ⟨⟩, rfl, common⟩
      obtain ⟨all, rfl⟩ := parts.mp common
      exact ⟨all, rfl⟩
    · rintro ⟨all, rfl⟩
      exact ⟨ts, _, rfl, rfl, parts.mpr ⟨all, rfl⟩⟩

theorem Joins.unique {s c' : Ty} (h : s.Joins t c) (h' : s.Joins t c') : c = c' := by
  cases h.2.symm.trans h'.2
  rfl

end Ty

/-! ## The laws -/

/-- Conversion is a preorder, and common types are bounds in it. -/
structure ConversionLaws (ν : Nat → OwnerKey) : Prop where
  /-- Arrays of symbolic length are the only types that do not convert to themselves. -/
  reflexive : ∀ t : Ty, t.IsOwned → (t.Converts t ↔ t.Each fun p => p.isDefinite = true)
  transitive : ∀ t m u : Ty, t.IsResolved ν → m.IsResolved ν → u.IsResolved ν → m.IsDeclared → t.FitsNumbers →
    t.Converts m → m.Converts u → t.Converts u
  /-- Whether there is a common type does not depend on the order. -/
  symmetric : ∀ s t : Ty, s.IsOwned → t.IsOwned → ((∃ c, s.Joins t c) ↔ ∃ c, t.Joins s c)
  equivalent : ∀ s t c d : Ty, s.IsOwned → t.IsOwned → s.Joins t c → t.Joins s d → c.Converts d ∧ d.Converts c
  upper : ∀ s t c : Ty, s.IsOwned → t.IsOwned → s.Joins t c → s.Converts c ∧ t.Converts c
  least : ∀ s t c v : Ty, s.IsDeclared → s.Joins t c → s.Converts v → t.Converts v → c.Converts v
  /-- A type has itself in common with itself, apart from the owners and literals of parts. -/
  idempotent : ∀ t : Ty, t.IsOwned → (t.Each fun p => p.isDefinite = true) → t.Joins t t.abstractParts ∧
    (t.isLiteral = false → t.isTuple = false → t.abstractParts = t)

theorem conversionLaws (ν : Nat → OwnerKey) : ConversionLaws ν where
  reflexive _ owned := Ty.converts_self_iff owned
  transitive _ _ _ ht hm hu declared fits := Ty.Converts.trans ht hm hu declared fits
  symmetric s t hs ht := by
    constructor
    · rintro ⟨c, h⟩
      obtain ⟨d, back, -⟩ := h.comm hs ht
      exact ⟨d, back⟩
    · rintro ⟨c, h⟩
      obtain ⟨d, back, -⟩ := h.comm ht hs
      exact ⟨d, back⟩
  equivalent s t c d hs ht h h' := by
    obtain ⟨e, back, there, here⟩ := h.comm hs ht
    obtain rfl := h'.unique back
    exact ⟨there, here⟩
  upper _ _ _ hs ht h := h.converts hs ht
  least _ _ _ _ declared h hs ht := h.least declared hs ht
  idempotent t owned definite := by
    refine ⟨(Ty.joins_self_iff owned).mpr ⟨definite, rfl⟩, fun declared leaf => ?_⟩
    rw [Ty.abstractParts_leaf leaf]
    cases t with
    | numLit | boolLit => cases declared
    | _ => rfl

/-- Numbers of so many bits. -/
def Ty.word (n : Nat) : Ty := .integer false (.ofBits n)

/-- Two values with owners. -/
def Ty.pair (t u : Ty) : Ty := .tuple [t.mine, u.mine]

theorem pair_conversionLaws :
    (Ty.pair (.word 8) (.numLit 3)).Converts (.pair (.word 32) (.word 16)) ∧
    (∃ c, (Ty.pair (.word 8) (.word 32)).Joins (.pair (.word 16) (.numLit 3)) c ∧
      (Ty.pair (.word 16) (.numLit 3)).Converts c ∧ c.Converts (.pair (.word 32) (.word 32))) ∧
    (Ty.pair (.word 8) (.word 32)).Joins (.pair (.word 8) (.word 32))
      (.tuple [.plain (.word 8), .plain (.word 32)]) := by
  have laws := conversionLaws fun _ => .me
  have resolved (t u : Ty) (ht : t.IsResolved fun _ => .me) (hu : u.IsResolved fun _ => .me) :
      (Ty.pair t u).IsResolved fun _ => .me := ⟨⟨ht, .me, rfl, fun _ => rfl⟩, ⟨hu, .me, rfl, fun _ => rfl⟩, trivial⟩
  have small : (Ty.pair (.word 8) (.word 32)).IsOwned := ⟨⟨trivial, rfl⟩, ⟨trivial, rfl⟩, trivial⟩
  have large : (Ty.pair (.word 16) (.numLit 3)).IsOwned := ⟨⟨trivial, rfl⟩, ⟨trivial, rfl⟩, trivial⟩
  refine ⟨?_, ?_, ?_⟩
  · refine laws.transitive _ (.pair (.word 16) (.word 16)) _ (resolved _ (.numLit 3) trivial trivial)
      (resolved (.word 16) (.word 16) trivial trivial) (resolved (.word 32) (.word 16) trivial trivial)
      ⟨rfl, rfl, trivial⟩ ⟨nofun, ?_, trivial⟩ (by decide) (by decide)
    rintro n ⟨⟩
    decide
  · have back : (Ty.pair (.word 16) (.numLit 3)).Joins (.pair (.word 8) (.word 32))
        (.tuple [.plain (.word 16), .plain (.word 32)]) := ⟨rfl, rfl⟩
    obtain ⟨c, joins⟩ := (laws.symmetric _ _ small large).mpr ⟨_, back⟩
    exact ⟨c, joins, (laws.upper _ _ _ small large joins).2,
      laws.least (.pair (.word 8) (.word 32)) _ _ _ ⟨rfl, rfl, trivial⟩ joins (by decide) (by decide)⟩
  · exact (laws.idempotent (.pair (.word 8) (.word 32)) small ⟨rfl, rfl, trivial⟩).1

/-- Arrays of symbolic length do not convert to themselves, literals in tuples and partly resolved names may stand
between types that do not convert, and owners of parts get lost. -/
theorem conversion_exceptions : (¬ ∀ t : Ty, t.isLiteral = false → t.Converts t) ∧
    (¬ ∀ t m u : Ty, m.isLiteral = false → t.Converts m → m.Converts u → t.Converts u) ∧
    (¬ ∀ t m u : Ty, m.IsDeclared → t.FitsNumbers → t.Converts m → m.Converts u → t.Converts u) ∧
    ¬ ∀ t : Ty, t.isLiteral = false → ∃ c, t.Joins t c ∧ c.same t = true := by
  refine ⟨fun law => ?_, fun law => ?_, fun law => ?_, fun law => ?_⟩
  · have other := (law (.array .publicUint (some (.nameAt 1 "n"))) rfl).2
    cases other
  · have first : (Ty.pair (.numLit 300) (.word 8)).Converts (.pair (.numLit 3) (.word 8)) := by decide
    have second : (Ty.pair (.numLit 3) (.word 8)).Converts (.pair (.word 8) (.word 8)) := by decide
    exact absurd (law _ _ _ rfl first second) (by decide)
  · let known : NamedTarget := ⟨.decl .enum 1, ["C", "E"]⟩
    have other := law (.named .enum ["E"] none) (.named .enum ["E"] (some known)) (.named .enum ["C", "E"] (some known))
      rfl nofun (by decide) (by decide)
    exact absurd other (by decide)
  · obtain ⟨c, ⟨-, common⟩, same⟩ := law (.pair (.word 8) (.word 8)) rfl
    cases common
    exact absurd same (by decide)

end Shroud
