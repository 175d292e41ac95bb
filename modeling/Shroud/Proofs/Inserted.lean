import Shroud.Proofs.Coercions

/-!
# What conversions insert

A conversion rebuilds an expression around its operands and puts in casts and reclassifications (`Expr.Adapted`). It casts
data only to types that the data converts to, and below the casts that are there already the data stays what it is.

**Nodes.** What holds of all nodes of a value holds of all nodes of the converted one, if it is insensitive to the nodes
that are rebuilt (`Node.IsStable`).

**Results.** `Expr.coerce_adapted`, `Expr.Adapted.nodes`.
-/

namespace Shroud

/-- A value of the first type may be used where the second is expected. -/
def Ty.Converts (t u : Ty) : Prop := t.asksRange u = false ∧ t.convertsTo u = true

instance (t u : Ty) : Decidable (t.Converts u) := instDecidableAnd

section Adapting

variable (R : Ty → Ty → Prop)

mutual

/-- The second expression is the first with casts between related types and with reclassifications put in. -/
inductive Expr.Adapted : Expr → Expr → Prop
  | same (e : Expr) : Adapted e e
  | cast {e x : Expr} {i : Info} {u : Ty} (operand : Adapted e x) (word : u.isPrimitive = true)
      (related : R x.checkedType.type u) : Adapted e (.cast i u x true)
  | owned {e x : Expr} {i : Info} {m : ReclassifyForm} {l : Label} {h : Option Hom} (operand : Adapted e x) :
      Adapted e (.reclassify i m x (.ofLabel l) h)
  | reclassify {e x p : Expr} {i j : Info} {m : ReclassifyForm} {g h : Option Hom} (operand : Adapted e x) :
      Adapted (.reclassify i m e p g) (.reclassify j m x p h)
  | recast {e x : Expr} {i j : Info} {u : Ty} {b : Bool} (operand : Adapted e x)
      (data : x.checkedType.type = e.checkedType.type) : Adapted (.cast i u e b) (.cast j u x b)
  | applied {es xs : List Expr} {i j n : Info} {op : Op} {p : Bool} {h : Hom} {r : Option Expr} {o : Int}
      {key : Option CircuitVar} (operands : AllAdapted es xs) :
      Adapted (.call i (.operator n op p h r) es o key) (.call j (.operator n op p h r) xs o key)
  | tuple {es xs : List Expr} {i j : Info} (parts : AllAdapted es xs) : Adapted (.tuple i es) (.tuple j xs)

/-- The same of lists of expressions, one by one. -/
inductive Expr.AllAdapted : List Expr → List Expr → Prop
  | nil : AllAdapted [] []
  | cons {e x : Expr} {es xs : List Expr} (first : Adapted e x) (rest : AllAdapted es xs) :
      AllAdapted (e :: es) (x :: xs)

end

end Adapting

namespace Expr

variable {R S : Ty → Ty → Prop}

theorem AllAdapted.same (es : List Expr) : AllAdapted R es es := by
  induction es with
  | nil => exact .nil
  | cons e es ih => exact .cons (.same e) ih

mutual

theorem Adapted.trans : ∀ {e y x : Expr}, Adapted R e y → Adapted R y x → Adapted R e x
  | _, _, _, h, .same _ => h
  | _, _, _, h, .cast operand word related => .cast (h.trans operand) word related
  | _, _, _, h, .owned operand => .owned (h.trans operand)
  | _, _, _, .same _, .reclassify operand => .reclassify operand
  | _, _, _, .owned inner, .reclassify operand => .owned (inner.trans operand)
  | _, _, _, .reclassify inner, .reclassify operand => .reclassify (inner.trans operand)
  | _, _, _, .same _, .recast operand data => .recast operand data
  | _, _, _, .cast inner word related, .recast operand data => .cast (inner.trans operand) word (data ▸ related)
  | _, _, _, .recast inner data, .recast operand data' => .recast (inner.trans operand) (data'.trans data)
  | _, _, _, .same _, .applied operands => .applied operands
  | _, _, _, .applied inner, .applied operands => .applied (inner.trans operands)
  | _, _, _, .same _, .tuple parts => .tuple parts
  | _, _, _, .tuple inner, .tuple parts => .tuple (inner.trans parts)

theorem AllAdapted.trans : ∀ {es ys xs : List Expr}, AllAdapted R es ys → AllAdapted R ys xs → AllAdapted R es xs
  | _, _, _, .nil, .nil => .nil
  | _, _, _, .cons first rest, .cons first' rest' => .cons (first.trans first') (rest.trans rest')

end

mutual

theorem Adapted.mono (h : ∀ t u, R t u → S t u) : ∀ {e x : Expr}, Adapted R e x → Adapted S e x
  | _, _, .same _ => .same _
  | _, _, .cast operand word related => .cast (operand.mono h) word (h _ _ related)
  | _, _, .owned operand => .owned (operand.mono h)
  | _, _, .reclassify operand => .reclassify (operand.mono h)
  | _, _, .recast operand data => .recast (operand.mono h) data
  | _, _, .applied operands => .applied (operands.mono h)
  | _, _, .tuple parts => .tuple (parts.mono h)

theorem AllAdapted.mono (h : ∀ t u, R t u → S t u) : ∀ {es xs : List Expr}, AllAdapted R es xs → AllAdapted S es xs
  | _, _, .nil => .nil
  | _, _, .cons first rest => .cons (first.mono h) (rest.mono h)

end

end Expr

/-! ## Steps of a conversion -/

/-- A value that fits has data that converts. -/
theorem Expr.asksRange_of_fits {k : Option Knowledge} {e : Expr} {t : AnnTy} {fit : Fit} (h : e.fits k t = .ok fit) :
    e.checkedType.type.asksRange t.type = false := by
  unfold Expr.fits at h
  obtain ⟨_, hconverts, -⟩ := except_bind_ok h
  unfold Expr.convertsTo? at hconverts
  split at hconverts
  · cases hconverts
  · exact Bool.eq_false_iff.mpr ‹_›

theorem Expr.FitsEither.asksRange {k : Option Knowledge} {e : Expr} {t : AnnTy} {fit : Fit} {rehom : Bool}
    (fits : e.FitsEither k t fit rehom) : e.checkedType.type.asksRange t.type = false := by
  rcases fits with ⟨-, fits⟩ | ⟨-, fits, -⟩ <;> exact asksRange_of_fits fits

/-- A value that is brought to another homomorphism keeps its data. -/
theorem Expr.ChangesHom.data {k : Option Knowledge} {t : AnnTy} {e x : Expr} (h : ChangesHom k t e x) :
    x.checkedType.type = e.checkedType.type := by
  have retyped (x : Expr) (g : Hom) : (x.retyped g).checkedType.type = x.checkedType.type := by
    have type : (x.retyped g).checkedType = x.checkedType.withHom g := checkedType_of_type (type?_withType _ _)
    rw [type]
    rfl
  cases h with
  | again _ _ rehom =>
    obtain ⟨l, -, -, rfl⟩ := rehomTo_ok rehom
    rfl
  | handed | cast | choice => exact retyped _ _

namespace Expr.Adapted

variable {k : Option Knowledge} {e x : Expr} {t expected : AnnTy} {u : Ty} {site : Site} {spot : Spot} {i : Info}

/-- Data is cast around the value or, if it is handed to another owner, around what is handed over. -/
theorem cast_data (h : IsCast u e x) (consistent : e.Consistent k) (converts : e.checkedType.type.Converts u) :
    Adapted Ty.Converts e x := by
  induction h with
  | around word => exact .cast (.same _) (Ty.isPrimitive_of_convertsTo word converts.2) converts
  | @inside i m e y p hom _ _ ih =>
    obtain ⟨⟨t, ht, data⟩, inner⟩ := consistent
    rw [checkedType_of_type (e := .reclassify i m e p hom) ht, data] at converts
    exact .reclassify (ih inner converts)

theorem reclassifyTo {p : Expr} {hom : Hom} (h : e.reclassifyTo p hom = .ok x) : Adapted Ty.Converts e x := by
  obtain ⟨l, -, -, rfl⟩ := reclassifyTo_ok h
  exact .owned (.same e)

theorem rehomTo (h : e.rehomTo k expected = .ok x) : Adapted Ty.Converts e x := by
  obtain ⟨l, -, -, rfl⟩ := rehomTo_ok h
  exact .owned (l := .me) (.same e)

theorem changesHom (h : ChangesHom k expected e x) : Adapted Ty.Converts e x := by
  induction h with
  | again _ _ rehom => exact rehomTo rehom
  | handed => exact .reclassify (.same _)
  | cast _ _ value ih => exact .recast ih value.data
  | choice _ _ _ _ first second => exact .applied (.cons (.same _) (.cons first (.cons second (.same _))))

theorem coercePlain (consistent : e.Consistent k) (h : (e.coercePlain k spot t).result = .ok x) :
    Adapted Ty.Converts e x := by
  obtain ⟨_, _, y, used, fits, cast, steps⟩ := coercePlain_steps h
  have cast : Adapted Ty.Converts e y := by
    obtain ⟨-, rfl⟩ | ⟨-, cast⟩ := castStep_cases cast
    · exact .same y
    · exact cast_data cast consistent ⟨fits.asksRange, fits.convertsTo used⟩
  obtain ⟨-, encrypt⟩ | ⟨-, -, rfl⟩ | ⟨-, -, change⟩ := steps
  · exact cast.trans (reclassifyTo encrypt)
  · exact cast
  · exact cast.trans (changesHom change)

end Expr.Adapted

mutual

theorem Expr.Converted.adapted {k : Option Knowledge} : ∀ {e x : Expr} {t : AnnTy}, Converted k e t x → e.Consistent k →
    Adapted Ty.Converts e x
  | _, _, _, .steps h, he => .coercePlain he h
  | _, _, _, .parts _ length each, he => .tuple (each.adapted length he.2)

theorem Expr.AllConverted.adapted {k : Option Knowledge} : ∀ {es xs : List Expr} {ts : List AnnTy},
    AllConverted k es ts xs → ts.length = es.length → Expr.AllConsistent k es → AllAdapted Ty.Converts es xs
  | _, _, _, .noValues, _, _ => .nil
  | _, _, _, .noTypes, length, _ => nomatch length
  | _, _, _, .cons first rest, length, he => .cons (first.adapted he.1) (rest.adapted (Nat.succ.inj length) he.2)

end

/-- A converted value is the value itself with casts and reclassifications put in. -/
theorem Expr.coerce_adapted {s : Symbols} {k : Option Knowledge} {nested : Bool} {spot : Spot} {e x : Expr} {t : AnnTy}
    (consistent : e.Consistent k) (h : (e.coerce s k spot nested t).result = .ok x) : Adapted Ty.Converts e x :=
  (converted_of_coerce h).adapted consistent

/-! ## Nodes of converted values -/

/-- Nodes that conversions put in or build anew, apart from casts. -/
def Node.isRebuilt : Node → Bool
  | .expr (.tuple ..) | .expr (.reclassify ..) | .expr (.call _ (.operator ..) _ _ _) => true
  | .expr (.ident ..) | .expr (.me _) | .expr (.all _) | .ident _ | .ty _ => true
  | _ => false

/-- A property of nodes that conversions keep. -/
structure Node.IsStable (P : Node → Prop) : Prop where
  rebuilt : ∀ n : Node, n.isRebuilt = true → P n
  exchanged : ∀ {i j u e x b}, P (.expr (.cast i u e b)) → x.checkedType.type = e.checkedType.type →
    P (.expr (.cast j u x b))
  inserted : ∀ {i u e}, e.checkedType.type.Converts u → P (.expr (.cast i u e true))

section Forms

variable {P : Node → Prop} {i : Info} {e : Expr} {es : List Expr} {u : Ty}

theorem Expr.forall_nodesAll : (∀ n ∈ Expr.nodesAll es, P n) ↔ ∀ e ∈ es, ∀ n ∈ e.nodes, P n := by
  induction es with
  | nil => exact ⟨fun _ => List.forall_mem_nil _, fun _ => List.forall_mem_nil _⟩
  | cons e es ih => rw [Expr.nodesAll, List.forall_mem_append, List.forall_mem_cons, ih]

theorem Expr.forall_tuple :
    (∀ n ∈ (Expr.tuple i es).nodes, P n) ↔ P (.expr (.tuple i es)) ∧ ∀ e ∈ es, ∀ n ∈ e.nodes, P n := by
  rw [Expr.nodes, List.forall_mem_cons, Expr.forall_nodesAll]

theorem Expr.forall_cast {b : Bool} : (∀ n ∈ (Expr.cast i u e b).nodes, P n) ↔
    P (.expr (.cast i u e b)) ∧ (∀ n ∈ u.nodes, P n) ∧ ∀ n ∈ e.nodes, P n := by
  rw [Expr.nodes, List.cons_append, List.forall_mem_cons, List.forall_mem_append]

theorem Expr.forall_reclassify {m : ReclassifyForm} {p : Expr} {h : Option Hom} :
    (∀ n ∈ (Expr.reclassify i m e p h).nodes, P n) ↔
      P (.expr (.reclassify i m e p h)) ∧ (∀ n ∈ e.nodes, P n) ∧ ∀ n ∈ p.nodes, P n := by
  rw [Expr.nodes, List.cons_append, List.forall_mem_cons, List.forall_mem_append]

theorem Expr.forall_call {f : Expr} {as : List Expr} {o : Int} {key : Option CircuitVar} :
    (∀ n ∈ (Expr.call i f as o key).nodes, P n) ↔
      P (.expr (.call i f as o key)) ∧ (∀ n ∈ f.nodes, P n) ∧ ∀ a ∈ as, ∀ n ∈ a.nodes, P n := by
  rw [Expr.nodes, List.cons_append, List.forall_mem_cons, List.forall_mem_append, Expr.forall_nodesAll]

theorem Ty.nodes_primitive (primitive : u.isPrimitive = true) : u.nodes = [.ty u] := by
  cases u with
  | mapping | array | cipher | publicKey | randomness | tuple | function => cases primitive
  | _ => rfl

end Forms

theorem Node.IsStable.ofLabel {P : Node → Prop} (stable : IsStable P) (l : Label) : ∀ n ∈ (Expr.ofLabel l).nodes, P n := by
  cases l with
  | me | all => exact List.forall_mem_singleton.mpr (stable.rebuilt _ rfl)
  | var => exact List.forall_mem_cons.mpr ⟨stable.rebuilt _ rfl, List.forall_mem_singleton.mpr (stable.rebuilt _ rfl)⟩

mutual

theorem Expr.Adapted.nodes {P : Node → Prop} (stable : Node.IsStable P) :
    ∀ {e x : Expr}, Adapted Ty.Converts e x → (∀ n ∈ e.nodes, P n) → ∀ n ∈ x.nodes, P n
  | _, _, .same _, h => h
  | _, _, .cast operand word converts, h => by
    rw [forall_cast, Ty.nodes_primitive word, List.forall_mem_singleton]
    exact ⟨stable.inserted converts, stable.rebuilt _ rfl, operand.nodes stable h⟩
  | _, _, .owned operand, h =>
    forall_reclassify.mpr ⟨stable.rebuilt _ rfl, operand.nodes stable h, stable.ofLabel _⟩
  | _, _, .reclassify operand, h =>
    have ⟨_, inner, owner⟩ := forall_reclassify.mp h
    forall_reclassify.mpr ⟨stable.rebuilt _ rfl, operand.nodes stable inner, owner⟩
  | _, _, .recast operand data, h =>
    have ⟨self, type, inner⟩ := forall_cast.mp h
    forall_cast.mpr ⟨stable.exchanged self data, type, operand.nodes stable inner⟩
  | _, _, .applied operands, h =>
    have ⟨_, name, inner⟩ := forall_call.mp h
    forall_call.mpr ⟨stable.rebuilt _ rfl, name, operands.nodes stable inner⟩
  | _, _, .tuple parts, h => forall_tuple.mpr ⟨stable.rebuilt _ rfl, parts.nodes stable (forall_tuple.mp h).2⟩

theorem Expr.AllAdapted.nodes {P : Node → Prop} (stable : Node.IsStable P) :
    ∀ {es xs : List Expr}, AllAdapted Ty.Converts es xs → (∀ e ∈ es, ∀ n ∈ e.nodes, P n) → ∀ x ∈ xs, ∀ n ∈ x.nodes, P n
  | _, _, .nil, _ => List.forall_mem_nil _
  | _, _, .cons first rest, h =>
    have ⟨here, there⟩ := List.forall_mem_cons.mp h
    List.forall_mem_cons.mpr ⟨first.nodes stable here, rest.nodes stable there⟩

end

end Shroud
