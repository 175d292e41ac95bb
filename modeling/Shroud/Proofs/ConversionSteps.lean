import Shroud.Proofs.Marking
import Shroud.Typing.Coercion

/-!
# Steps of a conversion

What the steps of a conversion leave of an operand when they succeed. Properties of converted values are shown for these
forms; how a step goes on at a place of the program, and where it fails, does not matter to them.

**Casts.** The data is cast around the operand, but below it if it is a value that is handed to another owner
(`Expr.IsCast`).

**Homomorphisms.** A value of the sender is encrypted again. With any other private value, what is handed to its owner is
given the homomorphism to begin with, below casts and choices (`Expr.ChangesHom`).

**Results.** `Expr.coercePlain_steps`: a value that is no tuple literal is cast, unless it has the data already, and then
encrypted, left alone or brought to another homomorphism. `Expr.converted_of_coerce`: the parts of a tuple literal are
converted one by one (`Expr.Converted`).
-/

namespace Shroud

section Steps

variable {k : Option Knowledge} {e x y : Expr} {u : Ty} {t : AnnTy} {site : Site} {spot : Spot}

/-! ## Casts -/

/-- A cast around the operand. -/
theorem Expr.plainCast_ok (h : (castTo.plainCast u site e).result = .ok x) :
    e.checkedType.type.isPrimitive = true ∧
      x = .cast (.inPlaceOf e (.owned u e.checkedType.privacy e.checkedType.hom)) u e true := by
  unfold castTo.plainCast at h
  dsimp only at h
  split at h
  · cases h
  · rename_i primitive
    obtain ⟨_, _, h⟩ := except_bind_ok h
    cases h
    exact ⟨by simpa using primitive, rfl⟩

/-- The second expression is the first one with its data cast to a type. -/
inductive Expr.IsCast (u : Ty) : Expr → Expr → Prop
  | around {e : Expr} (word : e.checkedType.type.isPrimitive = true) (here : e.castsInside = false) :
      IsCast u e (.cast (.inPlaceOf e (.owned u e.checkedType.privacy e.checkedType.hom)) u e true)
  | inside {i : Info} {m : ReclassifyForm} {e x p : Expr} {h : Option Hom} (handed : p.isAll = false)
      (value : IsCast u e x) : IsCast u (.reclassify i m e p h)
        (.reclassify { i with type := i.type.map fun t => { t with type := x.checkedType.type } } m x p h)

theorem Expr.isCast_of_castTo (h : (e.castTo u site).result = .ok x) : IsCast u e x := by
  have plain {e x : Expr} (here : e.castsInside = false) (h : (castTo.plainCast u site e).result = .ok x) :
      IsCast u e x := by
    obtain ⟨word, rfl⟩ := plainCast_ok h
    exact .around word here
  induction e using Expr.inductOn generalizing x with
  | reclassify i m e p hom ih =>
    unfold castTo at h
    dsimp only at h
    split at h
    · rename_i everybody
      refine plain ?_ h
      rw [castsInside, everybody]
      rfl
    · rename_i handed
      split at h
      · cases h
      · cases h
        exact .inside (Bool.eq_false_iff.mpr handed) (ih ‹_›)
  | leaf e hl =>
    cases e with
    | operator | boolLit | numLit | ident | me | all => exact plain rfl h
    | _ => cases hl
  | _ => exact plain rfl h

/-- The data is cast by wrapping the operand, unless it is handed to another owner. -/
theorem Expr.IsCast.cast (h : IsCast u e x) (around : e.castsInside = false) : ∃ i, x = .cast i u e true := by
  cases h with
  | around => exact ⟨_, rfl⟩
  | inside handed =>
    rw [castsInside, Bool.not_eq_false'] at around
    rw [handed] at around
    cases around

/-- The data of the value is cast, unless it has the expected type already. -/
def Expr.castStep (spot : Spot) (e : Expr) (t : AnnTy) : Conversion :=
  if e.checkedType.type.same t.type then .inPlace e else e.castTo t.type (spot e)

theorem Expr.castStep_same (same : e.checkedType.type.same t.type = true) : e.castStep spot t = .inPlace e := if_pos same

theorem Expr.castStep_differ (differ : e.checkedType.type.same t.type = false) :
    e.castStep spot t = e.castTo t.type (spot e) :=
  if_neg (Bool.eq_false_iff.mp differ)

theorem Expr.castStep_cases (h : (e.castStep spot t).result = .ok x) :
    e.checkedType.type.same t.type = true ∧ x = e ∨ e.checkedType.type.same t.type = false ∧ IsCast t.type e x := by
  cases differ : e.checkedType.type.same t.type with
  | true =>
    rw [castStep_same differ] at h
    cases h
    exact .inl ⟨rfl, rfl⟩
  | false =>
    rw [castStep_differ differ] at h
    exact .inr ⟨rfl, isCast_of_castTo h⟩

/-! ## Owners and homomorphisms -/

/-- A value that is encrypted for another owner. -/
theorem Expr.reclassifyTo_ok {p : Expr} {hom : Hom} (h : e.reclassifyTo p hom = .ok x) :
    ∃ l, p.label? = some l ∧ p.isAll = false ∧
      x = .reclassify (.inPlaceOf e (.owned e.checkedType.type (.ofLabel l) hom)) .reveal e (.ofLabel l) (some hom) := by
  unfold reclassifyTo at h
  split at h
  · cases h
  · rename_i l label
    split at h
    · cases h
    · rename_i hidden
      obtain ⟨_, _, h⟩ := except_bind_ok h
      cases h
      exact ⟨l, label, Bool.eq_false_iff.mpr hidden, rfl⟩

/-- The sender's value that is encrypted again. -/
theorem Expr.rehomTo_ok (h : e.rehomTo k t = .ok x) :
    ∃ l, t.privacy.label? = some l ∧ t.isMine k = true ∧
      x = .reclassify (.inPlaceOf e (.owned e.checkedType.type (.ofLabel l) t.hom)) .rehom e .meLabel (some t.hom) := by
  unfold rehomTo at h
  split at h
  · cases h
  · rename_i l label
    split at h
    · cases h
    · rename_i mine
      split at h
      · cases h
      · obtain ⟨_, _, h⟩ := except_bind_ok h
        cases h
        refine ⟨l, label, ?_, rfl⟩
        simp only [Bool.not_eq_true', Bool.not_eq_false, Bool.and_eq_true] at mine
        exact mine.2

/-- The second expression is the first one, a private value, under the homomorphism of a type. -/
inductive Expr.ChangesHom (k : Option Knowledge) (t : AnnTy) : Expr → Expr → Prop
  | again {e x : Expr} (hidden : e.checkedType.isPublic = false) (mine : e.checkedType.isMine k = true)
      (rehom : e.rehomTo k t = .ok x) : ChangesHom k t e x
  | handed {i : Info} {m : ReclassifyForm} {e p : Expr} {h : Option Hom}
      (hidden : (Expr.reclassify i m e p h).checkedType.isPublic = false) :
      ChangesHom k t (.reclassify i m e p h) ((Expr.reclassify i m e p (some t.hom)).retyped t.hom)
  | cast {i : Info} {u : Ty} {e x : Expr} {b : Bool} (hidden : (Expr.cast i u e b).checkedType.isPublic = false)
      (foreign : (Expr.cast i u e b).checkedType.isMine k = false) (value : ChangesHom k t e x) :
      ChangesHom k t (.cast i u e b) ((Expr.cast i u x b).retyped t.hom)
  | choice {i j : Info} {p : Bool} {g : Hom} {r : Option Expr} {o : Int} {key : Option CircuitVar}
      {c a b x y : Expr} {rest : List Expr}
      (isChoice : (Expr.call i (.operator j .ite p g r) (c :: a :: b :: rest) o key).isPublicChoice = true)
      (hidden : (Expr.call i (.operator j .ite p g r) (c :: a :: b :: rest) o key).checkedType.isPublic = false)
      (first : ChangesHom k t a x) (second : ChangesHom k t b y) :
      ChangesHom k t (.call i (.operator j .ite p g r) (c :: a :: b :: rest) o key)
        ((Expr.call i (.operator j .ite p g r) (c :: x :: y :: rest) o key).retyped t.hom)

theorem Expr.isPublicChoice_call {i : Info} {f : Expr} {as : List Expr} {o : Int} {key : Option CircuitVar}
    (h : (Expr.call i f as o key).isPublicChoice = true) : ∃ j p hom r, f = .operator j .ite p hom r := by
  cases f with
  | operator j op p hom r =>
    cases op with
    | ite => exact ⟨j, p, hom, r, rfl⟩
    | _ => cases h
  | _ => cases h

theorem Expr.changesHom_of_changeHom (h : (e.changeHom k t spot).result = .ok x) : ChangesHom k t e x := by
  induction e using Expr.inductOn generalizing x spot with
  | call i f as o key hf has =>
    unfold changeHom at h
    dsimp only at h
    split at h
    · cases h
    · rename_i visible
      have hidden := Bool.eq_false_iff.mpr visible
      split at h
      · exact .again hidden ‹_› h
      · split at h
        · rename_i isChoice
          obtain ⟨j, p, g, r, rfl⟩ := isPublicChoice_call isChoice
          rcases as with _ | ⟨c, _ | ⟨a, _ | ⟨b, rest⟩⟩⟩
          · cases h
          · cases h
          · cases h
          · dsimp only at h
            split at h
            · cases h
            · rename_i ha
              split at h
              · cases h
              · rename_i hb
                cases h
                exact .choice isChoice hidden (has a (by simp) ha) (has b (by simp) hb)
        · cases h
  | cast i u e b ih =>
    unfold changeHom at h
    dsimp only at h
    split at h
    · cases h
    · rename_i visible
      have hidden := Bool.eq_false_iff.mpr visible
      split at h
      · exact .again hidden ‹_› h
      · rename_i foreign
        split at h
        · cases h
        · rename_i y hy
          cases h
          exact .cast hidden (Bool.eq_false_iff.mpr foreign) (ih hy)
  | reclassify i m e p hom =>
    unfold changeHom at h
    dsimp only at h
    split at h
    · cases h
    · rename_i visible
      have hidden := Bool.eq_false_iff.mpr visible
      split at h
      · exact .again hidden ‹_› h
      · split at h
        · cases h
        · cases h
          exact .handed hidden
  | new | arrayLit | tuple | member | index =>
    unfold changeHom at h
    split at h
    · cases h
    · rename_i visible
      split at h
      · exact .again (Bool.eq_false_iff.mpr visible) ‹_› h
      · cases h
  | leaf e hl =>
    cases e with
    | operator | boolLit | numLit | ident | me | all =>
      unfold changeHom at h
      split at h
      · cases h
      · rename_i visible
        split at h
        · exact .again (Bool.eq_false_iff.mpr visible) ‹_› h
        · cases h
    | _ => cases hl

/-- The homomorphism of a cast that was just put around a private value. -/
theorem Conversion.changesHom_of_changeHomBelow {c : Conversion} {i : Info} {b : Bool}
    (cast : c.result = .ok (.cast i u e b)) (h : (c.changeHomBelow k t spot).result = .ok x) :
    Expr.ChangesHom k t (.cast i u e b) x := by
  unfold changeHomBelow at h
  rw [cast] at h
  dsimp only at h
  split at h
  · cases h
  · rename_i visible
    have hidden := Bool.eq_false_iff.mpr visible
    split at h
    · exact .again hidden ‹_› h
    · rename_i foreign
      obtain ⟨y, hy, rfl⟩ := except_map_ok h
      exact .cast hidden (Bool.eq_false_iff.mpr foreign) (Expr.changesHom_of_changeHom hy)

/-! ## All steps -/

/-- The value fits, as it is or under another homomorphism. -/
def Expr.FitsEither (k : Option Knowledge) (e : Expr) (t : AnnTy) (fit : Fit) (rehom : Bool) : Prop :=
  rehom = false ∧ e.fits k t = .ok fit ∨
    rehom = true ∧ e.fits k t = .ok .no ∧ e.fits k (t.withHom e.checkedType.hom) = .ok fit

/-- What becomes of a value that is no tuple literal. -/
inductive Expr.PlainOutcome (k : Option Knowledge) (spot : Spot) (e : Expr) (t : AnnTy) : Except Error Expr → Prop
  | undecided {error : Error} : e.fits k t = .error error ∨ (spot e).checkCopy t.type = .error error ∨
      e.fits k (t.withHom e.checkedType.hom) = .error error → e.PlainOutcome k spot t (.error error)
  | mismatch {rehom : Bool} : e.FitsEither k t .no rehom →
      e.PlainOutcome k spot t (.error ((spot e).atExpr e (.mismatch (.full t) (.full e.checkedType))))
  | uncast {fit : Fit} {rehom : Bool} {error : Error} : fit ≠ .no → e.FitsEither k t fit rehom →
      (e.castStep spot t).result = .error error → e.PlainOutcome k spot t (.error error)
  | encrypted {rehom : Bool} {y : Expr} : e.FitsEither k t .makePrivate rehom → (e.castStep spot t).result = .ok y →
      e.PlainOutcome k spot t (y.reclassifyTo t.privacy t.hom)
  | kept {y : Expr} : e.FitsEither k t .yes false → (e.castStep spot t).result = .ok y →
      e.PlainOutcome k spot t (.ok y)
  | rehomed {y : Expr} : e.FitsEither k t .yes true → (e.castStep spot t).result = .ok y →
      (e.checkedType.type.same t.type || e.castsInside) = true → e.PlainOutcome k spot t (y.changeHom k t spot).result
  | rehomedBelow {y : Expr} : e.FitsEither k t .yes true → (e.castStep spot t).result = .ok y →
      e.checkedType.type.same t.type = false → e.castsInside = false →
      e.PlainOutcome k spot t ((e.castTo t.type (spot e)).changeHomBelow k t spot).result

theorem except_bind_failed {ε α β : Type} {x : Except ε α} {f : α → Except ε β} {b : ε} (h : (x >>= f) = .error b) :
    x = .error b ∨ ∃ a, x = .ok a ∧ f a = .error b := by
  cases x with
  | error => exact .inl (congrArg Except.error (Except.error.inj h))
  | ok a => exact .inr ⟨a, rfl, h⟩

/-- The steps of converting a value that is no tuple literal. -/
theorem Expr.coercePlain_outcome (k : Option Knowledge) (spot : Spot) (e : Expr) (t : AnnTy) :
    e.PlainOutcome k spot t (e.coercePlain k spot t).result := by
  unfold coercePlain
  extract_lets fit
  have tried (f : Fit) (rehom : Bool) (hf : fit = .ok (f, rehom)) : e.FitsEither k t f rehom := by
    obtain ⟨first, hfirst, hf⟩ := except_bind_ok hf
    split at hf
    · obtain ⟨_, _, hf⟩ := except_bind_ok hf
      obtain ⟨second, hsecond, hf⟩ := except_bind_ok hf
      cases hf
      exact .inr ⟨rfl, hfirst, hsecond⟩
    · cases hf
      exact .inl ⟨rfl, hfirst⟩
  have untold (error : Error) (hf : fit = .error error) : e.fits k t = .error error ∨
      (spot e).checkCopy t.type = .error error ∨ e.fits k (t.withHom e.checkedType.hom) = .error error := by
    obtain failed | ⟨first, -, hf⟩ := except_bind_failed hf
    · exact .inl failed
    · split at hf
      · obtain failed | ⟨_, -, hf⟩ := except_bind_failed hf
        · exact .inr (.inl failed)
        · obtain failed | ⟨_, -, ⟨⟩⟩ := except_bind_failed hf
          exact .inr (.inr failed)
      · cases hf
  clear_value fit
  split
  · exact .undecided (untold _ rfl)
  · exact .mismatch (tried _ _ rfl)
  · rename_i same cast _ fit rehom used
    have fits := tried fit rehom rfl
    split
    · rename_i hcast
      rw [hcast]
      exact .uncast used fits hcast
    · exact .encrypted fits ‹_›
    · rename_i fit _ _ y other hy
      have direct : fit = .yes := by
        cases fit with
        | no => exact absurd rfl used
        | yes => rfl
        | makePrivate => exact absurd rfl other
      subst direct
      split
      · rename_i keep
        rw [hy]
        cases rehom with
        | false => exact .kept fits hy
        | true => cases keep
      · rename_i change
        cases rehom with
        | false => cases change rfl
        | true =>
          split
          · exact .rehomed fits hy ‹_›
          · rename_i below
            obtain ⟨differ, around⟩ := not_or.mp fun h => below ((Bool.or_eq_true _ _).mpr h)
            have differ : same = false := Bool.eq_false_iff.mpr differ
            rw [show cast = e.castTo t.type (spot e) from castStep_differ differ]
            exact .rehomedBelow fits hy differ (Bool.eq_false_iff.mpr around)

/-- The steps of a conversion that succeeds: the value fits, its data is cast, and then it is encrypted, left alone, or
brought to another homomorphism. -/
theorem Expr.coercePlain_steps (h : (e.coercePlain k spot t).result = .ok x) : ∃ fit rehom y, fit ≠ .no ∧
    e.FitsEither k t fit rehom ∧ (e.castStep spot t).result = .ok y ∧
    (fit = .makePrivate ∧ y.reclassifyTo t.privacy t.hom = .ok x ∨ fit = .yes ∧ rehom = false ∧ x = y ∨
      fit = .yes ∧ rehom = true ∧ ChangesHom k t y x) := by
  have outcome := coercePlain_outcome k spot e t
  generalize (e.coercePlain k spot t).result = r at outcome h
  cases outcome with
  | undecided | mismatch | uncast => cases h
  | encrypted fits cast => exact ⟨_, _, _, by decide, fits, cast, .inl ⟨rfl, h⟩⟩
  | kept fits cast =>
    cases h
    exact ⟨_, _, _, by decide, fits, cast, .inr (.inl ⟨rfl, rfl, rfl⟩)⟩
  | rehomed fits cast _ => exact ⟨_, _, _, by decide, fits, cast, .inr (.inr ⟨rfl, rfl, changesHom_of_changeHom h⟩)⟩
  | rehomedBelow fits cast differ around =>
    have wrapped := cast
    rw [castStep_differ differ] at wrapped
    obtain ⟨i, rfl⟩ := (isCast_of_castTo wrapped).cast around
    exact ⟨_, _, _, by decide, fits, cast, .inr (.inr ⟨rfl, rfl, Conversion.changesHom_of_changeHomBelow wrapped h⟩)⟩

/-! ## Parts of tuples -/

mutual

/-- The last expression is the first one converted to the type: a tuple literal part by part, another value in steps. -/
inductive Expr.Converted (k : Option Knowledge) : Expr → AnnTy → Expr → Prop
  | steps {spot : Spot} {e x : Expr} {t : AnnTy} (h : (e.coercePlain k spot t).result = .ok x) : Converted k e t x
  | parts {i : Info} {es xs : List Expr} {t : AnnTy} {ts : List AnnTy} (expected : t.type = .tuple ts)
      (length : ts.length = es.length) (each : AllConverted k es ts xs) : Converted k (.tuple i es) t
        (.tuple { Info.synthetic with pos := i.pos, type := some (.plain (.tuple (xs.map Expr.checkedType))) } xs)

/-- The last expressions are the first ones converted to the types, as far as there are types. -/
inductive Expr.AllConverted (k : Option Knowledge) : List Expr → List AnnTy → List Expr → Prop
  | noValues {ts : List AnnTy} : AllConverted k [] ts []
  | noTypes {e : Expr} {es : List Expr} : AllConverted k (e :: es) [] []
  | cons {e x : Expr} {es xs : List Expr} {t : AnnTy} {ts : List AnnTy} (first : Converted k e t x)
      (rest : AllConverted k es ts xs) : AllConverted k (e :: es) (t :: ts) (x :: xs)

end

mutual

theorem Expr.converted_of_coerce {s : Symbols} {nested : Bool} : ∀ {spot : Spot} {e x : Expr} {t : AnnTy},
    (e.coerce s k spot nested t).result = .ok x → Converted k e t x
  | spot, .tuple i es, x, t, h => by
    unfold coerce at h
    extract_lets whole mismatch at h
    split at h
    · rename_i ts expected
      split at h
      · rename_i length
        split at h
        rename_i operands results hes
        dsimp only at h
        split at h
        · cases h
        · split at h
          · cases h
          · cases h
            exact .parts expected length (allConverted_of_coerceAll (congrArg Prod.snd hes))
      · cases h
    · cases h
  | _, .operator .., _, _, h | _, .call .., _, _, h | _, .new .., _, _, h | _, .cast .., _, _, h
  | _, .boolLit .., _, _, h | _, .numLit .., _, _, h | _, .arrayLit .., _, _, h | _, .ident .., _, _, h
  | _, .member .., _, _, h | _, .index .., _, _, h | _, .me _, _, _, h | _, .all _, _, _, h
  | _, .reclassify .., _, _, h => .steps h

theorem Expr.allConverted_of_coerceAll {s : Symbols} : ∀ {spot : List Expr → Site} {ds es xs : List Expr}
    {ts : List AnnTy}, (coerceAll s k spot ds es ts).2 = .ok xs → AllConverted k es ts xs
  | _, _, [], _, _, h => by
    cases h
    exact .noValues
  | _, _, _ :: _, _, [], h => by
    cases h
    exact .noTypes
  | spot, ds, e :: es, xs, t :: ts, h => by
    unfold coerceAll at h
    extract_lets c at h
    split at h
    · cases h
    · rename_i x hx
      obtain ⟨ys, hys, rfl⟩ := except_map_ok h
      exact .cons (converted_of_coerce hx) (allConverted_of_coerceAll hys)

end

end Steps

end Shroud
