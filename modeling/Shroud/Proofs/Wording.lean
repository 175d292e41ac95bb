import Shroud.Proofs.Inserted

/-!
# What conversions show

A complaint about a conversion quotes the types of the value and of the place where it is used, and the statement around
both. Function types have no written form, so a complaint that would have to show one cannot be worded.

**Quotable conversions.** Everything that may be quoted has a written form (`Expr.Quotable`). The places of the parts of a
value show these parts as far as they have been converted, and conversions keep written forms (`Conversion.Printable`).

**Result.** `Site.complain_remark`: of something quotable, complaints are worded.
-/

namespace Shroud

/-! ## Complaints -/

/-- The checker complains about the program. -/
def Error.IsComplaint (error : Error) : Prop := ∃ f p, error = .fault f p

/-- The checker complains about the program, or it would but for something without a written form, which is out of the
question given `W`. -/
def Error.IsRemark (W : Prop) (error : Error) : Prop := error.IsComplaint ∨ error = .functionType ∧ ¬W

/-- The statement that the surroundings show, if any, has a written form. -/
def Site.Written (s : Site) : Prop := ∀ stmt, s.stmt = some stmt → stmt.isPrintable = true

theorem Site.complain_remark {W : Prop} {s : Site} {f : Fault} {p : Place}
    (worded : W → f.isWordable = true ∧ s.Written) : (s.complain f p).IsRemark W := by
  unfold complain
  extract_lets statement
  split
  · exact .inl ⟨f, p, rfl⟩
  · rename_i unworded
    refine .inr ⟨rfl, fun w => unworded ?_⟩
    obtain ⟨fault, around⟩ := worded w
    rw [Bool.and_eq_true]
    refine ⟨fault, ?_⟩
    unfold statement
    split
    · exact around _ ‹_›
    · rfl

/-! ## Written forms -/

theorem Expr.arePrintable_iff {es : List Expr} : Expr.arePrintable es = true ↔ ∀ e ∈ es, e.isPrintable = true := by
  induction es with
  | nil => exact ⟨fun _ => nofun, fun _ => rfl⟩
  | cons e es ih =>
    rw [arePrintable, Bool.and_eq_true, ih, List.forall_mem_cons]

theorem AnnTy.arePrintable_iff {ts : List AnnTy} : AnnTy.arePrintable ts = true ↔ ∀ t ∈ ts, t.isPrintable = true := by
  induction ts with
  | nil => exact ⟨fun _ => nofun, fun _ => rfl⟩
  | cons t ts ih =>
    rw [arePrintable, Bool.and_eq_true, ih, List.forall_mem_cons]

/-- Owners are named. -/
theorem Expr.isPrintable_of_label {p : Expr} {l : Label} (h : p.label? = some l) : p.isPrintable = true := by
  cases p with
  | ident | me | all => rfl
  | _ => cases h

section Forms

variable {i : Info} {e f p : Expr} {es as : List Expr}

theorem Expr.isPrintable_call {o : Int} {key : Option CircuitVar} :
    (Expr.call i f as o key).isPrintable = true ↔ f.isPrintable = true ∧ ∀ a ∈ as, a.isPrintable = true := by
  rw [isPrintable, Bool.and_eq_true, arePrintable_iff]

theorem Expr.isPrintable_tuple : (Expr.tuple i es).isPrintable = true ↔ ∀ e ∈ es, e.isPrintable = true := by
  rw [isPrintable, arePrintable_iff]

theorem Expr.isPrintable_cast {u : Ty} {b : Bool} :
    (Expr.cast i u e b).isPrintable = true ↔ e.isPrintable = true ∧ (b || u.isPrintable) = true := by
  rw [isPrintable, Bool.and_eq_true]

theorem Expr.isPrintable_reclassify {m : ReclassifyForm} {h : Option Hom} :
    (Expr.reclassify i m e p h).isPrintable = true ↔ e.isPrintable = true ∧ (m == .rehom || p.isPrintable) = true := by
  rw [isPrintable, Bool.and_eq_true]

end Forms

/-! ## Conversions keep written forms -/

/-- What the conversion leaves and what it gives have a written form. -/
structure Conversion.Printable (c : Conversion) : Prop where
  operand : c.operand.isPrintable = true
  result : ∀ x, c.result = .ok x → x.isPrintable = true

section Keeping

variable {k : Option Knowledge} {e x : Expr} {t : AnnTy} {u : Ty} {site : Site} {spot : Spot}

theorem Conversion.Printable.failed {error : Error} (h : e.isPrintable = true) : (Conversion.failed e error).Printable :=
  ⟨h, nofun⟩

theorem Conversion.Printable.inPlace (h : e.isPrintable = true) : (Conversion.inPlace e).Printable := by
  refine ⟨h, ?_⟩
  rintro _ ⟨⟩
  exact h

theorem Expr.castTo_printable (h : e.isPrintable = true) : (e.castTo u site).Printable := by
  have plain {e : Expr} (h : e.isPrintable = true) : (castTo.plainCast u site e).Printable := by
    unfold castTo.plainCast
    dsimp only
    split
    · exact .failed h
    · refine ⟨h, fun x hx => ?_⟩
      obtain ⟨_, -, hx⟩ := except_bind_ok hx
      cases hx
      exact isPrintable_cast.mpr ⟨h, rfl⟩
  induction e using Expr.inductOn with
  | reclassify i m e p hom ih =>
    obtain ⟨value, owner⟩ := isPrintable_reclassify.mp h
    unfold castTo
    dsimp only
    split
    · exact plain h
    · have inner := ih value
      split
      · exact .failed (isPrintable_reclassify.mpr ⟨inner.operand, owner⟩)
      · exact .inPlace (isPrintable_reclassify.mpr ⟨inner.result _ ‹_›, owner⟩)
  | leaf e hl =>
    cases e with
    | operator | boolLit | numLit | ident | me | all => exact plain h
    | _ => cases hl
  | _ => exact plain h

theorem Expr.reclassifyTo_printable {hom : Hom} (h : e.isPrintable = true) (hx : e.reclassifyTo p hom = .ok x) :
    x.isPrintable = true := by
  unfold reclassifyTo at hx
  split at hx
  · cases hx
  · rename_i l _
    split at hx
    · cases hx
    · obtain ⟨_, -, hx⟩ := except_bind_ok hx
      cases hx
      exact isPrintable_reclassify.mpr ⟨h, by cases l <;> rfl⟩

theorem Expr.rehomTo_printable (h : e.isPrintable = true) (hx : e.rehomTo k t = .ok x) : x.isPrintable = true := by
  unfold rehomTo at hx
  split at hx
  · cases hx
  · split at hx
    · cases hx
    · split at hx
      · cases hx
      · obtain ⟨_, -, hx⟩ := except_bind_ok hx
        cases hx
        exact isPrintable_reclassify.mpr ⟨h, rfl⟩

theorem Expr.changeHom_printable (h : e.isPrintable = true) : (e.changeHom k t spot).Printable := by
  have again (e : Expr) (h : e.isPrintable = true) : Conversion.Printable ⟨e, e.rehomTo k t⟩ :=
    ⟨h, fun _ hx => rehomTo_printable h hx⟩
  induction e using Expr.inductOn generalizing spot with
  | reclassify i m e p hom =>
    unfold changeHom
    dsimp only
    split
    · exact .failed h
    · split
      · exact again _ h
      · split
        · exact .failed h
        · exact .inPlace (isPrintable_reclassify.mpr (isPrintable_reclassify.mp h))
  | cast i u e b ih =>
    obtain ⟨value, type⟩ := isPrintable_cast.mp h
    unfold changeHom
    dsimp only
    split
    · exact .failed h
    · split
      · exact again _ h
      · have inner : (e.changeHom k t fun x => spot (.cast i u x b)).Printable := ih value
        split
        · exact .failed (isPrintable_cast.mpr ⟨inner.operand, type⟩)
        · exact .inPlace (isPrintable_cast.mpr ⟨inner.result _ ‹_›, type⟩)
  | call i f as o key hf has =>
    obtain ⟨func, args⟩ := isPrintable_call.mp h
    unfold changeHom
    dsimp only
    split
    · exact .failed h
    · split
      · exact again _ h
      · split
        · split
          · rename_i c a b rest _ _ _
            simp only [List.forall_mem_cons] at args
            obtain ⟨cond, first, second, others⟩ := args
            have call {x y : Expr} (hx : x.isPrintable = true) (hy : y.isPrintable = true) :
                (Expr.call i f (c :: x :: y :: rest) o key).isPrintable = true :=
              isPrintable_call.mpr ⟨func, List.forall_mem_cons.mpr ⟨cond, List.forall_mem_cons.mpr ⟨hx,
                List.forall_mem_cons.mpr ⟨hy, others⟩⟩⟩⟩
            have left : (a.changeHom k t fun x => spot (.call i f (c :: x :: b :: rest) o key)).Printable :=
              has a (by simp) first
            split
            · exact .failed (call left.operand second)
            · rename_i a' ha
              have right : (b.changeHom k t fun x => spot (.call i f (c :: a' :: x :: rest) o key)).Printable :=
                has b (by simp) second
              split
              · exact .failed (call (left.result _ ha) right.operand)
              · exact .inPlace (call (left.result _ ha) (right.result _ ‹_›))
          · exact .failed h
        · exact .failed h
  | new | arrayLit | tuple | member | index =>
    unfold changeHom
    split
    · exact .failed h
    · split
      · exact again _ h
      · exact .failed h
  | leaf e hl =>
    cases e with
    | operator | boolLit | numLit | ident | me | all =>
      unfold changeHom
      split
      · exact .failed h
      · split
        · exact again _ h
        · exact .failed h
    | _ => cases hl

theorem Conversion.Printable.changeHomBelow {c : Conversion} (h : c.Printable) : (c.changeHomBelow k t spot).Printable := by
  unfold Conversion.changeHomBelow
  split
  · rename_i i u inner b hc
    have whole := h.result _ hc
    obtain ⟨value, type⟩ := Expr.isPrintable_cast.mp whole
    dsimp only
    split
    · exact .failed h.operand
    · split
      · exact ⟨h.operand, fun _ hx => Expr.rehomTo_printable whole hx⟩
      · have changed : (inner.changeHom k t spot).Printable := Expr.changeHom_printable value
        refine ⟨changed.operand, fun x hx => ?_⟩
        obtain ⟨y, hy, rfl⟩ := except_map_ok hx
        exact Expr.isPrintable_cast.mpr ⟨changed.result y hy, type⟩
  · exact h

theorem Expr.coercePlain_printable (h : e.isPrintable = true) : (e.coercePlain k spot t).Printable := by
  unfold coercePlain
  extract_lets tried
  clear_value tried
  split
  · exact .failed h
  · exact .failed h
  · rename_i same cast _ _ _ _
    have step : cast.Printable := by
      unfold cast
      split
      · exact .inPlace h
      · exact castTo_printable h
    split
    · exact step
    · exact ⟨step.operand, fun x hx => reclassifyTo_printable (step.result _ ‹_›) hx⟩
    · split
      · exact step
      · split
        · exact changeHom_printable (step.result _ ‹_›)
        · exact step.changeHomBelow

mutual

/-- Converting a value keeps its written form. -/
theorem Expr.coerce_printable (s : Symbols) (k : Option Knowledge) (nested : Bool) : ∀ (spot : Spot) (e : Expr) (t : AnnTy),
    e.isPrintable = true → (e.coerce s k spot nested t).Printable
  | spot, .tuple i es, t, h => by
    unfold Expr.coerce
    extract_lets whole mismatch
    have failed : mismatch.Printable := .failed h
    split
    · rename_i ts _
      split
      · have parts := Expr.coerceAll_printable s k (fun xs => spot (.tuple i xs)) [] es ts nofun (isPrintable_tuple.mp h)
        split
        rename_i operands results hes
        rw [hes] at parts
        split
        · exact .failed (isPrintable_tuple.mpr parts.1)
        · rename_i xs _
          have converted := parts.2 _ rfl
          dsimp only
          split
          · exact .failed (isPrintable_tuple.mpr parts.1)
          · refine ⟨isPrintable_tuple.mpr parts.1, ?_⟩
            rintro _ ⟨⟩
            exact isPrintable_tuple.mpr converted
      · exact failed
    · exact failed
  | _, .operator .., _, h | _, .call .., _, h | _, .new .., _, h | _, .cast .., _, h | _, .boolLit .., _, h
  | _, .numLit .., _, h | _, .arrayLit .., _, h | _, .ident .., _, h | _, .member .., _, h | _, .index .., _, h
  | _, .me _, _, h | _, .all _, _, h | _, .reclassify .., _, h => Expr.coercePlain_printable h

theorem Expr.coerceAll_printable (s : Symbols) (k : Option Knowledge) : ∀ (spot : List Expr → Site) (ds es : List Expr)
    (ts : List AnnTy), (∀ d ∈ ds, d.isPrintable = true) → (∀ e ∈ es, e.isPrintable = true) →
      (∀ d ∈ (Expr.coerceAll s k spot ds es ts).1, d.isPrintable = true) ∧
        ∀ xs, (Expr.coerceAll s k spot ds es ts).2 = .ok xs → ∀ x ∈ xs, x.isPrintable = true
  | _, ds, [], _, hds, _ => by
    refine ⟨List.forall_mem_append.mpr ⟨hds, nofun⟩, ?_⟩
    rintro _ ⟨⟩
    exact nofun
  | _, ds, e :: es, [], hds, hes => by
    refine ⟨List.forall_mem_append.mpr ⟨hds, hes⟩, ?_⟩
    rintro _ ⟨⟩
    exact nofun
  | spot, ds, e :: es, t :: ts, hds, hes => by
    obtain ⟨here, there⟩ := List.forall_mem_cons.mp hes
    unfold Expr.coerceAll
    extract_lets c
    have first : c.Printable := Expr.coerce_printable s k true (fun x => spot (ds ++ x :: es)) e t here
    split
    · exact ⟨List.forall_mem_append.mpr ⟨hds, List.forall_mem_cons.mpr ⟨first.operand, there⟩⟩, nofun⟩
    · rename_i x hx
      have rest := Expr.coerceAll_printable s k spot (ds ++ [c.operand]) es ts
        (List.forall_mem_append.mpr ⟨hds, List.forall_mem_singleton.mpr first.operand⟩) there
      refine ⟨rest.1, fun xs hxs => ?_⟩
      obtain ⟨ys, hys, rfl⟩ := except_map_ok hxs
      exact List.forall_mem_cons.mpr ⟨first.result x hx, rest.2 ys hys⟩

end

end Keeping

/-! ## Quotable conversions -/

/-- The expression, its type and the owner in it have a written form. -/
structure Expr.IsShown (e : Expr) : Prop where
  form : e.isPrintable = true
  type : ∀ t, e.type? = some t → t.isPrintable = true ∧ t.privacy.isPrintable = true

/-- The expression, its parts and their types have a written form. -/
def Expr.Written (e : Expr) : Prop := ∀ x ∈ e.subexprs, x.IsShown

/-- All that a complaint about the conversion may show has a written form. -/
structure Expr.Quotable (e : Expr) (t : AnnTy) (spot : Spot) : Prop where
  value : e.Written
  type : t.isPrintable = true
  around : ∀ x, x.isPrintable = true → (spot x).Written

section Quoting

variable {i : Info} {e f x : Expr} {as es : List Expr} {t : AnnTy} {u : Ty} {b : Bool} {o : Int} {key : Option CircuitVar}
  {site : Site} {spot : Spot}

theorem AnnTy.isPrintable_iff :
    t.isPrintable = true ↔ t.type.isPrintable = true ∧ (!t.annotated || t.privacy.isPrintable) = true := by
  cases t
  rw [isPrintable, Bool.and_eq_true]

namespace Expr

theorem Written.self (h : e.Written) : e.IsShown := h e e.mem_subexprs

theorem Written.checkedType (h : e.Written) : e.checkedType.isPrintable = true ∧ e.checkedType.privacy.isPrintable = true := by
  unfold Expr.checkedType
  cases found : e.type? with
  | none => exact ⟨rfl, rfl⟩
  | some t => exact h.self.type t found

theorem Written.inCast (h : (Expr.cast i u e b).Written) : e.Written := fun x hx => h x (List.mem_cons_of_mem _ hx)

theorem Written.argument (h : (Expr.call i f as o key).Written) : ∀ a ∈ as, a.Written := fun a ha x hx =>
  h x (List.mem_append_right _ (mem_subexprsAll.mpr ⟨a, ha, hx⟩))

theorem Written.part (h : (Expr.tuple i es).Written) : ∀ e ∈ es, e.Written := fun e he x hx =>
  h x (List.mem_cons_of_mem _ (mem_subexprsAll.mpr ⟨e, he, hx⟩))

theorem castTo_written (h : e.Written) (type : u.isPrintable = true) (hx : (e.castTo u site).result = .ok x) :
    x.Written := by
  have plain {e x : Expr} (h : e.Written) (hx : (castTo.plainCast u site e).result = .ok x) : x.Written := by
    unfold castTo.plainCast at hx
    dsimp only at hx
    split at hx
    · cases hx
    · obtain ⟨_, -, hx⟩ := except_bind_ok hx
      cases hx
      refine List.forall_mem_cons.mpr ⟨⟨isPrintable_cast.mpr ⟨h.self.form, rfl⟩, ?_⟩, h⟩
      rintro _ ⟨⟩
      exact ⟨AnnTy.isPrintable_iff.mpr ⟨type, h.checkedType.2⟩, h.checkedType.2⟩
  induction e using Expr.inductOn generalizing x with
  | reclassify i m e p hom ih =>
    have value : e.Written := fun y hy => h y (List.mem_cons_of_mem _ (List.mem_append_left _ hy))
    have owner : p.Written := fun y hy => h y (List.mem_cons_of_mem _ (List.mem_append_right _ hy))
    unfold castTo at hx
    dsimp only at hx
    split at hx
    · exact plain h hx
    · split at hx
      · cases hx
      · rename_i y hy
        cases hx
        have inner := ih value hy
        refine List.forall_mem_cons.mpr ⟨⟨?_, fun t ht => ?_⟩, List.forall_mem_append.mpr ⟨inner, owner⟩⟩
        · exact isPrintable_reclassify.mpr ⟨inner.self.form, (isPrintable_reclassify.mp h.self.form).2⟩
        · obtain ⟨s, hs, rfl⟩ := Option.map_eq_some_iff.mp ht
          obtain ⟨whole, named⟩ := h.self.type s hs
          have data := (AnnTy.isPrintable_iff.mp inner.checkedType.1).1
          exact ⟨AnnTy.isPrintable_iff.mpr ⟨data, (AnnTy.isPrintable_iff.mp whole).2⟩, named⟩
  | leaf e hl =>
    cases e with
    | operator | boolLit | numLit | ident | me | all => exact plain h hx
    | _ => cases hl
  | _ => exact plain h hx

theorem Quotable.inCast (h : (Expr.cast i u e b).Quotable t spot) : e.Quotable t fun x => spot (.cast i u x b) :=
  ⟨h.value.inCast, h.type, fun _ hx => h.around _ (isPrintable_cast.mpr ⟨hx, (isPrintable_cast.mp h.value.self.form).2⟩)⟩

/-- A value of a choice can be quoted together with the other one. -/
theorem Quotable.inChoice {c a d : Expr} (h : (Expr.call i f [c, a, d] o key).Quotable t spot) {a' : Expr}
    (form : a'.isPrintable = true) :
    a.Quotable t (fun x => spot (.call i f [c, x, d] o key)) ∧ d.Quotable t fun x => spot (.call i f [c, a', x] o key) := by
  obtain ⟨func, args⟩ := isPrintable_call.mp h.value.self.form
  simp only [List.forall_mem_cons] at args
  have args' := h.value.argument
  simp only [List.forall_mem_cons] at args'
  refine ⟨⟨args'.2.1, h.type, fun x hx => h.around _ (isPrintable_call.mpr ⟨func, ?_⟩)⟩,
    ⟨args'.2.2.1, h.type, fun x hx => h.around _ (isPrintable_call.mpr ⟨func, ?_⟩)⟩⟩
  · exact List.forall_mem_cons.mpr ⟨args.1, List.forall_mem_cons.mpr ⟨hx, List.forall_mem_singleton.mpr args.2.2.1⟩⟩
  · exact List.forall_mem_cons.mpr ⟨args.1, List.forall_mem_cons.mpr ⟨form, List.forall_mem_singleton.mpr hx⟩⟩

/-- After its data has been cast, a value can be quoted as before. -/
theorem Quotable.castStep (h : e.Quotable t spot) (hx : (e.castStep spot t).result = .ok x) : x.Quotable t spot := by
  refine ⟨?_, h.type, h.around⟩
  unfold Expr.castStep at hx
  split at hx
  · cases hx
    exact h.value
  · exact castTo_written h.value (AnnTy.isPrintable_iff.mp h.type).1 hx

end Expr

end Quoting

end Shroud
