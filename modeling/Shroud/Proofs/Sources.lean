import Shroud.Proofs.Consistency

/-!
# Where types come from

The types of operators, casts and values for another owner are computed from those of their parts. A type that could not
be declared comes from one of a few sources, in which nobody has checked it. This module names the sources and follows
them through the conversions that the check inserts.

**Data.** A value that is handed to another owner has its type checked (`Expr.grounded_reclassify`). So a private value
only has data that circuits do not know if it was cast to them, if constants were folded, if it was computed on
ciphertexts, or if it was chosen by a private condition (`Expr.isWidened`).

**Homomorphisms.** Only handing a value to an owner and operating on ciphertexts make new homomorphic types, and a cast
that is put around a ciphertext keeps its homomorphism (`Expr.isRehomed`).

**Operations on ciphertexts.** Their private operands were brought to the homomorphism of the result. Of the two factors of
a product, one is seen by everybody, or one of them is handed over and can be used in plain (`Expr.Shares`).
-/

namespace Shroud

/-! ## Sources -/

mutual

/-- The type of the data may come from a cast, or from an operator that does not look at it. -/
def Expr.isWidened : Expr → Bool
  | .cast _ u _ _ => !u.canBePrivate
  | .reclassify _ _ e _ _ => e.isWidened
  | .call _ (.operator _ op p h _) as _ _ => h != .nonHomomorphic || (op == .ite && p) || Expr.anyWidened as
  | .call i f as o k => (Expr.call i f as o k).isCastCall
  | _ => false

def Expr.anyWidened : List Expr → Bool
  | [] => false
  | e :: es => e.isWidened || Expr.anyWidened es

end

mutual

/-- The homomorphism may be one that the value was handed over with, or that of an operation on ciphertexts. -/
def Expr.isRehomed : Expr → Bool
  | .cast _ u e _ => u.notHomomorphic?.isSome || e.isRehomed
  | .reclassify .. => true
  | .call _ (.operator _ _ _ h _) as _ _ => h != .nonHomomorphic || Expr.anyRehomed as
  | _ => false

def Expr.anyRehomed : List Expr → Bool
  | [] => false
  | e :: es => e.isRehomed || Expr.anyRehomed es

end

/-- A type with the data of declared private types. Names of enums may not have been resolved, and constants have the
types of their values. -/
def Ty.isFitting (t : Ty) : Bool := t.canBePrivate || t.isUnresolved || t.isLiteral

/-- The expression is in parentheses. -/
def Expr.isEnclosed : Expr → Bool
  | .call _ (.operator _ .paren _ _ _) _ _ _ => true
  | _ => false

/-- An operand of an operation on ciphertexts: a value that is no tuple, and has the homomorphism if it is private. -/
structure Expr.SharesHom (h : Hom) (a : Expr) : Prop where
  single : a.checkedType.type.isTuple = false
  hom : a.checkedType.isPublic = false → a.checkedType.hom = h

/-- Everybody sees one of two factors, or just one of them is a value that is handed to another owner. Nothing is known of
factors in parentheses. -/
def Expr.HavePlain (as : List Expr) : Prop :=
  ∃ a b, as = [a, b] ∧ (a.isEnclosed = true ∨ b.isEnclosed = true ∨ a.checkedType.isPublic = true ∨
    b.checkedType.isPublic = true ∨ a.isReclassify ≠ b.isReclassify)

/-- What the type of an expression tells about its parts. The operands of an operation on ciphertexts have its
homomorphism, the one of its type, unless they are in parentheses. Parentheses and choices are no such operations: their
values are ciphertexts already. -/
structure Expr.Shares (e : Expr) (t : AnnTy) : Prop where
  operation : ∀ i j op p h r as o k, e = .call i (.operator j op p h r) as o k → op ≠ .paren → op ≠ .ite →
    t.hom ≠ .nonHomomorphic →
      h = t.hom ∧ (∀ a ∈ as, a.isEnclosed = false → a.SharesHom h) ∧ (op = .mul → Expr.HavePlain as)
  everybody : ∀ i m a p h, e = .reclassify i m a p h → p.isAll = true → t.isPublic = true

/-- The type obeys the laws, except for what may come from the sources. -/
structure Expr.Grounded (e : Expr) (t : AnnTy) : Prop where
  data : t.isPublic = false → t.type.isFitting = true ∨ e.isWidened = true
  hom : t.hom ≠ .nonHomomorphic →
    t.type.notHomomorphic? = none ∨ t.type.isUnresolved = true ∨ e.isRehomed = true
  operands : e.Shares t

/-- The type of a derived expression obeys the laws, except for what may come from the sources. -/
def Expr.Derives (e : Expr) : Prop := e.isDerived = true → ∀ t, e.type? = some t → e.Grounded t

section Sources

variable {e : Expr} {es : List Expr} {t : AnnTy}

theorem Expr.anyWidened_iff : Expr.anyWidened es = true ↔ ∃ e ∈ es, e.isWidened = true := by
  induction es with
  | nil => exact ⟨nofun, nofun⟩
  | cons e es ih => rw [anyWidened, Bool.or_eq_true, ih, List.exists_mem_cons_iff]

theorem Expr.anyRehomed_iff : Expr.anyRehomed es = true ↔ ∃ e ∈ es, e.isRehomed = true := by
  induction es with
  | nil => exact ⟨nofun, nofun⟩
  | cons e es ih => rw [anyRehomed, Bool.or_eq_true, ih, List.exists_mem_cons_iff]

/-- What everybody sees is no ciphertext. -/
theorem Expr.shares_public (plain : t.hom = .nonHomomorphic) (visible : t.isPublic = true) : e.Shares t :=
  ⟨fun _ _ _ _ _ _ _ _ _ _ _ _ differs => absurd plain differs, fun _ _ _ _ _ _ _ => visible⟩

/-- What is not derived has no operands. -/
theorem Expr.shares_declared (declared : e.isDerived = false) : e.Shares t := by
  constructor
  · rintro i j op p h r as o k rfl
    cases declared
  · rintro i m a p h rfl
    cases declared

/-- A call has no operands of ciphertexts unless it applies an operator. -/
theorem Expr.Shares.ofCall {i : Info} {f : Expr} {o : Int} {k : Option CircuitVar}
    (operation : ∀ j op p h r, f = .operator j op p h r → op ≠ .paren → op ≠ .ite → t.hom ≠ .nonHomomorphic →
      h = t.hom ∧ (∀ a ∈ es, a.isEnclosed = false → a.SharesHom h) ∧ (op = .mul → Expr.HavePlain es)) :
    (Expr.call i f es o k).Shares t := by
  constructor
  · rintro _ j op p h r _ _ _ ⟨⟩
    exact operation j op p h r rfl
  · rintro _ _ _ _ _ ⟨⟩

/-- Parentheses and choices are no operations on ciphertexts. -/
theorem Expr.shares_neutral {i j : Info} {op : Op} {p : Bool} {h : Hom} {r : Option Expr} {o : Int}
    {k : Option CircuitVar} (neutral : op = .paren ∨ op = .ite) : (Expr.call i (.operator j op p h r) es o k).Shares t := by
  refine .ofCall ?_
  rintro _ _ _ _ _ ⟨⟩ paren choice
  exact (neutral.elim paren choice).elim

/-- Values that are no ciphertexts are no results of such operations. -/
theorem Expr.shares_call {i : Info} {f : Expr} {o : Int} {k : Option CircuitVar} (plain : t.hom = .nonHomomorphic) :
    (Expr.call i f es o k).Shares t := .ofCall fun _ _ _ _ _ _ _ _ differs => absurd plain differs

/-- Declared types obey all laws. -/
theorem AnnTy.Declarable.grounded (h : t.Declarable) (operands : e.Shares t) : e.Grounded t := by
  have lawful := h.lawful
  refine ⟨fun hidden => .inl ?_, fun differs => ?_, operands⟩
  · unfold Ty.isFitting
    rcases lawful with lawful | unresolved
    · unfold AnnTy.isLawful at lawful
      rw [hidden] at lawful
      simp [((Bool.and_eq_true _ _).mp lawful).1]
    · simp [unresolved]
  · rcases lawful with lawful | unresolved
    · cases visible : t.isPublic with
      | true => exact absurd (h.isOpen.plain visible) differs
      | false =>
        unfold AnnTy.isLawful at lawful
        rw [visible] at lawful
        obtain ⟨-, small⟩ := (Bool.and_eq_true _ _).mp lawful
        rcases (Bool.or_eq_true _ _).mp small with plain | small
        · exact absurd (eq_of_beq plain) differs
        · exact .inl (Option.isNone_iff_eq_none.mp small)
    · exact .inr (.inl unresolved)

/-- What everybody can see is not homomorphic, so nothing more is asked of it. -/
theorem AnnTy.Sound.grounded (h : t.Sound) (visible : t.isPublic = true) : e.Grounded t := by
  refine ⟨fun hidden => ?_, fun differs => absurd (h.2.plain visible) differs, Expr.shares_public (h.2.plain visible) visible⟩
  rw [visible] at hidden
  cases hidden

theorem Expr.Derives.checked (h : e.Derives) (derived : e.isDerived = true) : e.Grounded e.checkedType := by
  unfold checkedType
  cases ht : e.type? with
  | none =>
    exact (AnnTy.written_plain trivial : (AnnTy.plain .bool).Written).declarable.grounded (shares_public rfl rfl)
  | some t => exact h derived t ht

/-- The type of a value obeys the laws, be it declared or derived. -/
theorem Expr.Derives.grounded (h : e.Derives) (sound : e.HasSound) : e.Grounded e.checkedType := by
  cases derived : e.isDerived with
  | true => exact h.checked derived
  | false =>
    unfold checkedType
    cases ht : e.type? with
    | none =>
      exact (AnnTy.written_plain trivial : (AnnTy.plain .bool).Written).declarable.grounded (shares_public rfl rfl)
    | some t => exact ((sound.type t ht).2 derived).grounded (shares_declared derived)

end Sources

/-- The types of an expression and of all expressions below it are derived within the laws. -/
def Expr.Derived (e : Expr) : Prop := ∀ x ∈ e.subexprs, x.Derives

theorem Expr.Derived.self {e : Expr} (h : e.Derived) : e.Derives := h e e.mem_subexprs

/-- An expression whose own type is declared. -/
theorem Expr.derives_declared {e : Expr} (declared : e.isDerived = false) : e.Derives := fun derived => by
  rw [declared] at derived
  cases derived

theorem Expr.derives_withType {e : Expr} {t : AnnTy} (h : e.isDerived = true → (e.withType t).Grounded t) :
    (e.withType t).Derives := by
  intro derived u hu
  rw [type?_withType] at hu
  cases hu
  exact h ((e.isDerived_withType t).symm.trans derived)

theorem Expr.Derived.withType {e : Expr} {t : AnnTy} (h : ∀ x ∈ e.subexprs.tail, x.Derives)
    (whole : e.isDerived = true → (e.withType t).Grounded t) : (e.withType t).Derived := by
  unfold Derived
  rw [subexprs_withType]
  exact List.forall_mem_cons.mpr ⟨derives_withType whole, h⟩

/-! ## Conversions -/

section Conversions

variable {k : Option Knowledge} {t expected : AnnTy} {e x : Expr} {u : Ty} {site : Site} {spot : Spot}

theorem checkPrivateType_ok {v : Unit} (h : checkPrivateType t = .ok v) (hidden : t.isPublic = false) :
    t.type.isFitting = true := by
  unfold checkPrivateType at h
  split at h
  · cases h
  · rename_i fits
    simp only [AnnTy.isPrivate, hidden, Bool.not_false, Bool.true_and, Bool.not_eq_true, Bool.not_eq_false'] at fits
    simp [Ty.isFitting, fits]

theorem Expr.shares_reclassify {i : Info} {m : ReclassifyForm} {p : Expr} {h : Option Hom}
    (everybody : p.isAll = true → t.isPublic = true) : (Expr.reclassify i m e p h).Shares t := by
  refine ⟨nofun, ?_⟩
  rintro _ _ _ _ _ ⟨⟩
  exact everybody

theorem Expr.shares_cast {i : Info} {b : Bool} : (Expr.cast i u e b).Shares t := ⟨nofun, nofun⟩

/-- A value that is handed over has its type checked. -/
theorem Expr.grounded_reclassify {i : Info} {m : ReclassifyForm} {p : Expr} {h : Option Hom}
    (data : t.isPublic = false → t.type.isFitting = true ∨ e.isWidened = true)
    (everybody : p.isAll = true → t.isPublic = true) : (Expr.reclassify i m e p h).Grounded t :=
  ⟨data, fun _ => .inr (.inr rfl), shares_reclassify everybody⟩

theorem Expr.reclassifyTo_derived {p : Expr} {h : Hom} (he : e.Derived) (hx : e.reclassifyTo p h = .ok x) :
    x.Derived := by
  unfold reclassifyTo at hx
  split at hx
  · cases hx
  · split at hx
    · cases hx
    · obtain ⟨_, checked, hx⟩ := except_bind_ok hx
      cases hx
      refine each_reclassify.mpr ⟨fun _ t ht => ?_, he, (each_leaf (isLeaf_ofLabel _)).mpr (derives_declared ?_)⟩
      · cases ht
        exact grounded_reclassify (fun hidden => .inl (checkPrivateType_ok checked hidden)) fun visible => visible
      · exact isDerived_ofLabel _

theorem Expr.rehomTo_derived (he : e.Derived) (hx : e.rehomTo k expected = .ok x) : x.Derived := by
  unfold rehomTo at hx
  split at hx
  · cases hx
  · split at hx
    · cases hx
    · split at hx
      · cases hx
      · obtain ⟨_, checked, hx⟩ := except_bind_ok hx
        cases hx
        refine each_reclassify.mpr ⟨fun _ t ht => ?_, he, (each_leaf rfl).mpr (derives_declared rfl)⟩
        cases ht
        exact grounded_reclassify (fun hidden => .inl (checkPrivateType_ok checked hidden)) nofun

theorem Expr.IsCast.isWidened (h : IsCast u e x) (unfit : u.canBePrivate = false) : x.isWidened = true := by
  induction h with
  | around => simp [Expr.isWidened, unfit]
  | inside _ _ ih => exact ih

theorem Expr.IsCast.isRehomed (h : IsCast u e x) (large : u.notHomomorphic? ≠ none) : x.isRehomed = true := by
  cases h with
  | around => simp [Expr.isRehomed, Option.isSome_iff_ne_none.mpr large]
  | inside => rfl

/-- A cast leaves a type that circuits know, or is itself the reason why they do not. -/
theorem Expr.IsCast.derived (h : IsCast u e x) (he : e.Derived) :
    x.Derived ∧ (x.checkedType.type.isFitting = true ∨ x.isWidened = true) := by
  induction h with
  | around =>
    have data : u.isFitting = true ∨ (!u.canBePrivate) = true := by
      cases fits : u.canBePrivate <;> simp [Ty.isFitting, fits]
    refine ⟨each_cast.mpr ⟨fun _ t ht => ?_, he⟩, data⟩
    cases ht
    refine ⟨fun _ => data, fun _ => ?_, shares_cast⟩
    cases small : u.notHomomorphic? with
    | none => exact .inl small
    | some => exact .inr (.inr (by simp [Expr.isRehomed, small]))
  | @inside i _ _ _ _ _ _ _ ih =>
    obtain ⟨whole, inner, owner⟩ := each_reclassify.mp he
    obtain ⟨derived, data⟩ := ih inner
    refine ⟨each_reclassify.mpr ⟨fun _ t ht => ?_, derived, owner⟩, ?_⟩
    · obtain ⟨a, ha, rfl⟩ := Option.map_eq_some_iff.mp ht
      exact grounded_reclassify (fun _ => data) ((whole rfl a ha).operands.everybody _ _ _ _ _ rfl)
    · cases ht : i.type with
      | none => exact .inl (by simp [checkedType, type?, info]; rfl)
      | some a => exact data.imp_left fun data => by simpa [checkedType, type?, info, ht] using data

/-- The type of the data stays. -/
theorem Expr.Grounded.withHom {h : Hom} (grounded : e.Grounded t) (widened : e.isWidened = true → x.isWidened = true)
    (rehomed : x.isRehomed = true) (operands : x.Shares (t.withHom h)) : x.Grounded (t.withHom h) :=
  ⟨fun hidden => (grounded.data hidden).imp_right widened, fun _ => .inr (.inr rehomed), operands⟩

/-- A value under another homomorphism has been encrypted again, and it still comes from the same cast. -/
theorem Expr.ChangesHom.sources (h : ChangesHom k expected e x) :
    x.isRehomed = true ∧ (e.isWidened = true → x.isWidened = true) := by
  induction h with
  | again _ _ rehom =>
    obtain ⟨_, -, -, rfl⟩ := rehomTo_ok rehom
    exact ⟨rfl, fun widened => widened⟩
  | handed => exact ⟨rfl, fun widened => widened⟩
  | cast _ _ _ ih =>
    refine ⟨?_, fun widened => widened⟩
    simp [retyped, withType, mapInfo, isRehomed, ih.1]
  | choice _ _ _ _ first second =>
    refine ⟨?_, fun widened => ?_⟩
    · simp [retyped, withType, mapInfo, isRehomed, anyRehomed, first.1]
    · simp only [retyped, withType, mapInfo, isWidened, anyWidened, Bool.or_eq_true] at widened ⊢
      have := first.2
      have := second.2
      tauto

/-- A value of a derived expression with new parts, under another homomorphism. -/
theorem Expr.retyped_derived {h : Hom} (he : e.Derives) (derived : e.isDerived = true)
    (parts : ∀ y ∈ x.subexprs.tail, y.Derives) (same : x.checkedType = e.checkedType)
    (widened : e.isWidened = true → (x.retyped h).isWidened = true) (rehomed : (x.retyped h).isRehomed = true)
    (operands : (x.retyped h).Shares (x.checkedType.withHom h)) : (x.retyped h).Derived := by
  have grounded : e.Grounded x.checkedType := same ▸ he.checked derived
  exact .withType parts fun _ => grounded.withHom widened rehomed operands

theorem Expr.ChangesHom.derived (h : ChangesHom k expected e x) (he : e.Derived) : x.Derived := by
  have sources := h.sources
  induction h with
  | again _ _ rehom => exact rehomTo_derived he rehom
  | handed =>
    obtain ⟨whole, inner, owner⟩ := each_reclassify.mp he
    refine retyped_derived whole rfl (List.forall_mem_append.mpr ⟨inner, owner⟩) rfl sources.2 sources.1 ?_
    exact shares_reclassify ((whole.checked rfl).operands.everybody _ _ _ _ _ rfl)
  | cast _ _ value ih =>
    obtain ⟨whole, inner⟩ := each_cast.mp he
    exact retyped_derived whole rfl (ih inner value.sources) rfl sources.2 sources.1 shares_cast
  | choice _ _ first second hfirst hsecond =>
    obtain ⟨whole, func, args⟩ := each_call.mp he
    simp only [List.forall_mem_cons] at args
    refine retyped_derived whole rfl (List.forall_mem_append.mpr ⟨func, each_all.mpr ?_⟩) rfl sources.2 sources.1
      (shares_neutral (.inr rfl))
    simp only [List.forall_mem_cons]
    exact ⟨args.1, hfirst args.2.1 first.sources, hsecond args.2.2.1 second.sources, args.2.2.2⟩

theorem Expr.coercePlain_derived (he : e.Derived) (h : (e.coercePlain k spot t).result = .ok x) : x.Derived := by
  obtain ⟨_, _, y, -, -, cast, steps⟩ := coercePlain_steps h
  have cast : y.Derived := by
    obtain ⟨-, rfl⟩ | ⟨-, cast⟩ := castStep_cases cast
    · exact he
    · exact (cast.derived he).1
  obtain ⟨-, encrypt⟩ | ⟨-, -, rfl⟩ | ⟨-, -, change⟩ := steps
  · exact reclassifyTo_derived cast encrypt
  · exact cast
  · exact change.derived cast

mutual

theorem Expr.Converted.derived : ∀ {e x : Expr} {t : AnnTy}, Converted k e t x → e.Derived → x.Derived
  | _, _, _, .steps h, he => Expr.coercePlain_derived he h
  | _, _, _, .parts _ _ each, he => Expr.each_tuple.mpr ⟨Expr.derives_declared rfl, each.derived (Expr.each_tuple.mp he).2⟩

theorem Expr.AllConverted.derived : ∀ {es xs : List Expr} {ts : List AnnTy}, AllConverted k es ts xs →
    (∀ e ∈ es, e.Derived) → ∀ x ∈ xs, x.Derived
  | _, _, _, .noValues, _ | _, _, _, .noTypes, _ => List.forall_mem_nil _
  | _, _, _, .cons first rest, he => by
    obtain ⟨e, es⟩ := List.forall_mem_cons.mp he
    exact List.forall_mem_cons.mpr ⟨first.derived e, rest.derived es⟩

end

/-- Converting a value derives types within the laws. -/
theorem Expr.coerce_derived {s : Symbols} {spot : Spot} {nested : Bool} (he : e.Derived)
    (h : (e.coerce s k spot nested t).result = .ok x) : x.Derived := (converted_of_coerce h).derived he

theorem Expr.coerceAll_derived {s : Symbols} {spot : List Expr → Site} {ds es xs : List Expr} {ts : List AnnTy}
    (he : ∀ e ∈ es, e.Derived) (h : (Expr.coerceAll s k spot ds es ts).2 = .ok xs) : ∀ x ∈ xs, x.Derived :=
  (allConverted_of_coerceAll h).derived he

/-! ### Operands -/

theorem Ty.isFitting_of_same {v w : Ty} (h : v.same w = true) : v.isFitting = w.isFitting := by
  cases v <;> cases w <;> first
    | rfl
    | (cases h; done)
    | (simp [Ty.isFitting, Ty.isLiteral]; done)
    | (simp only [Ty.same, Bool.and_eq_true, beq_iff_eq] at h
       obtain ⟨rfl, rfl⟩ := h
       rfl)
    | (simp only [Ty.same, Bool.and_eq_true, beq_iff_eq] at h
       obtain ⟨rfl, -⟩ := h
       cases ‹NamedSort› <;> rfl)

theorem Ty.notHomomorphic?_of_same {v w : Ty} (h : v.same w = true) (declared : w.isLiteral = false) :
    v.notHomomorphic? = w.notHomomorphic? := by
  cases v <;> cases w <;> first
    | rfl
    | (cases h; done)
    | (cases declared; done)
    | (simp only [Ty.same, Bool.and_eq_true, beq_iff_eq] at h
       obtain ⟨rfl, rfl⟩ := h
       rfl)

theorem Ty.isUnresolved_of_same {v w : Ty} (h : v.same w = true) (unresolved : v.isUnresolved = true) :
    w.isUnresolved = true := by
  cases v with
  | named sort =>
    cases w with
    | named =>
      simp only [Ty.same, Bool.and_eq_true, beq_iff_eq] at h
      obtain ⟨rfl, -⟩ := h
      cases sort with
      | user => rfl
      | _ => cases unresolved
    | _ => cases h
  | _ => cases unresolved

/-- Values that are no tuples are not converted part by part. -/
theorem Expr.Converted.single (h : Converted k e t x) (single : t.type.isTuple = false) :
    ∃ spot, (e.coercePlain k spot t).result = .ok x := by
  cases h with
  | steps h => exact ⟨_, h⟩
  | parts expected =>
    rw [expected] at single
    cases single

/-- A private operand of data that circuits do not know has been cast to them. -/
theorem Expr.Converted.isWidened (h : Converted k e t x) (he : e.Grounded e.checkedType)
    (hidden : e.checkedType.isPublic = false) (single : t.type.isTuple = false) (unfit : t.type.isFitting = false) :
    x.isWidened = true := by
  obtain ⟨_, h⟩ := h.single single
  obtain ⟨_, _, y, -, -, cast, steps⟩ := coercePlain_steps h
  have unknown : t.type.canBePrivate = false := by
    simp only [Ty.isFitting, Bool.or_eq_false_iff] at unfit
    exact unfit.1.1
  have widened : y.isWidened = true := by
    obtain ⟨same, rfl⟩ | ⟨-, cast⟩ := castStep_cases cast
    · refine (he.data hidden).resolve_left fun fitting => ?_
      rw [Ty.isFitting_of_same same, unfit] at fitting
      cases fitting
    · exact cast.isWidened unknown
  obtain ⟨-, encrypt⟩ | ⟨-, -, rfl⟩ | ⟨-, -, change⟩ := steps
  · obtain ⟨_, -, -, rfl⟩ := reclassifyTo_ok encrypt
    exact widened
  · exact widened
  · exact change.sources.2 widened

/-- A private operand with a homomorphism that its data may not have was brought to it. -/
theorem Expr.coerce_rehomed {s : Symbols} {nested : Bool} (he : e.Grounded e.checkedType)
    (hidden : e.checkedType.isPublic = false) (single : t.type.isTuple = false) (declared : t.type.isLiteral = false)
    (resolved : t.type.isUnresolved = false) (homomorphic : t.hom ≠ .nonHomomorphic)
    (large : t.type.notHomomorphic? ≠ none) (h : (e.coerce s k spot nested t).result = .ok x) : x.isRehomed = true := by
  obtain ⟨_, h⟩ := (converted_of_coerce h).single single
  obtain ⟨_, _, y, used, tried, cast, steps⟩ := coercePlain_steps h
  obtain ⟨-, encrypt⟩ | ⟨-, rfl, rfl⟩ | ⟨-, -, change⟩ := steps
  · obtain ⟨_, -, -, rfl⟩ := reclassifyTo_ok encrypt
    rfl
  · obtain ⟨same, rfl⟩ | ⟨-, cast⟩ := castStep_cases cast
    · have compound : x.checkedType.type.isTuple = false := by
        rw [← Ty.isTuple_of_convertsTo (tried.convertsTo used)]
        exact single
      have homs := ((tried.simple used compound).1 rfl).resolve_left (Bool.eq_false_iff.mp hidden)
      obtain small | unresolved | rehomed := he.hom (homs ▸ homomorphic)
      · rw [Ty.notHomomorphic?_of_same same declared] at small
        exact absurd small large
      · rw [Ty.isUnresolved_of_same same unresolved] at resolved
        cases resolved
      · exact rehomed
    · exact cast.isRehomed large
  · exact change.sources.1

/-- One of the operands that are brought to a common type is private. -/
theorem Expr.AllConverted.isWidened {es xs : List Expr} (h : AllConverted k es (es.map fun _ => t) xs)
    (he : ∀ e ∈ es, e.Grounded e.checkedType) (hidden : ∃ e ∈ es, e.checkedType.isPublic = false)
    (single : t.type.isTuple = false) (unfit : t.type.isFitting = false) : ∃ x ∈ xs, x.isWidened = true := by
  induction es generalizing xs with
  | nil => simp at hidden
  | cons e es ih =>
    obtain ⟨grounded, rest⟩ := List.forall_mem_cons.mp he
    rw [List.map_cons] at h
    cases h with
    | @cons _ x _ _ _ _ first others =>
      rcases (List.exists_mem_cons_iff ..).mp hidden with hidden | hidden
      · exact ⟨x, List.mem_cons_self, first.isWidened grounded hidden single unfit⟩
      · obtain ⟨y, hy, widened⟩ := ih others rest hidden
        exact ⟨y, List.mem_cons_of_mem _ hy, widened⟩

end Conversions

end Shroud
