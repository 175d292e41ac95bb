import Shroud.Proofs.Operators
import Shroud.Proofs.Types

/-!
# Types of converted values

The casts and encryptions that conversions put into a program have sound types again. Their types need not be lawful:
a cast keeps the homomorphism of its operand although it may make it wider.
-/

namespace Shroud

/-! ## Expressions with sound types -/

/-- The expression computes its value from others: by an operator, a conversion, or for another owner. -/
def Expr.isDerived : Expr → Bool
  | .cast .. | .reclassify .. | .call _ (.operator ..) _ _ _ => true
  | e => e.isCastCall

/-- The type of an expression is sound, and a declared one unless its value is derived. The keyword for everybody is no
value. -/
structure Expr.HasSound (e : Expr) : Prop where
  type : ∀ t, e.type? = some t → t.Sound ∧ (e.isDerived = false → t.Declarable)
  keyword : e.label? = some .all → e.isAll = true ∧ e.type? = none

/-- The types of an expression and of all expressions below it are sound. -/
def Expr.Sound (e : Expr) : Prop := ∀ x ∈ e.subexprs, x.HasSound

section Parts

variable {P : Expr → Prop} {i : Info} {e k p f : Expr} {as es : List Expr} {t : AnnTy}

theorem Expr.mem_subexprs (e : Expr) : e ∈ e.subexprs := by
  cases e <;> exact List.mem_cons_self

theorem Expr.Sound.self (h : e.Sound) : e.HasSound := h e e.mem_subexprs

theorem Expr.mem_subexprsAll {x : Expr} : x ∈ Expr.subexprsAll es ↔ ∃ e ∈ es, x ∈ e.subexprs := by
  induction es with
  | nil => exact ⟨nofun, nofun⟩
  | cons e es ih =>
    rw [List.exists_mem_cons_iff, ← ih]
    exact List.mem_append

/-- What holds of everything below some expressions holds of everything below each. -/
theorem Expr.each_all : (∀ x ∈ Expr.subexprsAll es, P x) ↔ ∀ e ∈ es, ∀ x ∈ e.subexprs, P x := by
  constructor
  · exact fun h e he x hx => h x (mem_subexprsAll.mpr ⟨e, he, hx⟩)
  · intro h x hx
    obtain ⟨e, he, hx⟩ := mem_subexprsAll.mp hx
    exact h e he x hx

/-- What holds of everything in an expression holds at its top and in its parts. -/
theorem Expr.each_cons {rest : List Expr} (h : e.subexprs = e :: rest) :
    (∀ x ∈ e.subexprs, P x) ↔ P e ∧ ∀ x ∈ rest, P x := by
  rw [h, List.forall_mem_cons]

/-- Parts of parts are parts. -/
theorem Expr.subexprs_trans {x y : Expr} (hx : x ∈ y.subexprs) (hy : y ∈ e.subexprs) : x ∈ e.subexprs := by
  have all {es : List Expr} (ih : ∀ e ∈ es, y ∈ e.subexprs → x ∈ e.subexprs) (hy : y ∈ Expr.subexprsAll es) :
      x ∈ Expr.subexprsAll es := by
    obtain ⟨e, he, hy⟩ := mem_subexprsAll.mp hy
    exact mem_subexprsAll.mpr ⟨e, he, ih e he hy⟩
  induction e using Expr.inductOn with
  | call i f as o k hf has =>
    rcases List.mem_append.mp hy with hy | hy
    · rcases List.mem_cons.mp hy with rfl | hy
      · exact hx
      · exact List.mem_append_left _ (List.mem_cons_of_mem _ (hf hy))
    · exact List.mem_append_right _ (all has hy)
  | new i as has | arrayLit i as b has | tuple i as has =>
    rcases List.mem_cons.mp hy with rfl | hy
    · exact hx
    · exact List.mem_cons_of_mem _ (all has hy)
  | cast i t e b ih | member i e n r ih =>
    rcases List.mem_cons.mp hy with rfl | hy
    · exact hx
    · exact List.mem_cons_of_mem _ (ih hy)
  | index i e k r he hk | reclassify i m e k hom he hk =>
    rcases List.mem_append.mp hy with hy | hy
    · rcases List.mem_cons.mp hy with rfl | hy
      · exact hx
      · exact List.mem_append_left _ (List.mem_cons_of_mem _ (he hy))
    · exact List.mem_append_right _ (hk hy)
  | leaf e hl =>
    cases e with
    | operator | boolLit | numLit | ident | me | all =>
      cases List.mem_singleton.mp hy
      exact hx
    | _ => cases hl

theorem Expr.each_call {o : Int} {key : Option CircuitVar} : (∀ x ∈ (Expr.call i f as o key).subexprs, P x) ↔
    P (Expr.call i f as o key) ∧ (∀ x ∈ f.subexprs, P x) ∧ ∀ a ∈ as, ∀ x ∈ a.subexprs, P x := by
  rw [← each_all]
  exact (each_cons rfl).trans (and_congr_right fun _ => List.forall_mem_append)

theorem Expr.each_new : (∀ x ∈ (Expr.new i as).subexprs, P x) ↔
    P (Expr.new i as) ∧ ∀ a ∈ as, ∀ x ∈ a.subexprs, P x := by
  rw [← each_all]
  exact each_cons rfl

theorem Expr.each_arrayLit {b : Bool} : (∀ x ∈ (Expr.arrayLit i es b).subexprs, P x) ↔
    P (Expr.arrayLit i es b) ∧ ∀ e ∈ es, ∀ x ∈ e.subexprs, P x := by
  rw [← each_all]
  exact each_cons rfl

theorem Expr.each_tuple : (∀ x ∈ (Expr.tuple i es).subexprs, P x) ↔
    P (Expr.tuple i es) ∧ ∀ e ∈ es, ∀ x ∈ e.subexprs, P x := by
  rw [← each_all]
  exact each_cons rfl

theorem Expr.each_cast {u : Ty} {b : Bool} : (∀ x ∈ (Expr.cast i u e b).subexprs, P x) ↔
    P (Expr.cast i u e b) ∧ ∀ x ∈ e.subexprs, P x := each_cons rfl

theorem Expr.each_member {n : Ident} {r : Option Ref} : (∀ x ∈ (Expr.member i e n r).subexprs, P x) ↔
    P (Expr.member i e n r) ∧ ∀ x ∈ e.subexprs, P x := each_cons rfl

theorem Expr.each_index {r : Option Ref} : (∀ x ∈ (Expr.index i e k r).subexprs, P x) ↔
    P (Expr.index i e k r) ∧ (∀ x ∈ e.subexprs, P x) ∧ ∀ x ∈ k.subexprs, P x :=
  (each_cons rfl).trans (and_congr_right fun _ => List.forall_mem_append)

theorem Expr.each_reclassify {m : ReclassifyForm} {hom : Option Hom} :
    (∀ x ∈ (Expr.reclassify i m e p hom).subexprs, P x) ↔
      P (Expr.reclassify i m e p hom) ∧ (∀ x ∈ e.subexprs, P x) ∧ ∀ x ∈ p.subexprs, P x :=
  (each_cons rfl).trans (and_congr_right fun _ => List.forall_mem_append)

/-- The expression has no parts. -/
def Expr.isLeaf : Expr → Bool
  | .operator .. | .boolLit .. | .numLit .. | .ident .. | .me _ | .all _ => true
  | _ => false

theorem Expr.each_leaf (h : e.isLeaf = true) : (∀ x ∈ e.subexprs, P x) ↔ P e := by
  cases e with
  | operator | boolLit | numLit | ident | me | all => exact List.forall_mem_singleton
  | _ => cases h

theorem Expr.allSound_iff : (∀ x ∈ Expr.subexprsAll es, x.HasSound) ↔ ∀ e ∈ es, e.Sound := each_all

theorem Expr.sound_call {o : Int} {key : Option CircuitVar} :
    (Expr.call i f as o key).Sound ↔ (Expr.call i f as o key).HasSound ∧ f.Sound ∧ ∀ a ∈ as, a.Sound := each_call

theorem Expr.sound_new : (Expr.new i as).Sound ↔ (Expr.new i as).HasSound ∧ ∀ a ∈ as, a.Sound := each_new

theorem Expr.sound_arrayLit {b : Bool} :
    (Expr.arrayLit i es b).Sound ↔ (Expr.arrayLit i es b).HasSound ∧ ∀ e ∈ es, e.Sound := each_arrayLit

theorem Expr.sound_tuple : (Expr.tuple i es).Sound ↔ (Expr.tuple i es).HasSound ∧ ∀ e ∈ es, e.Sound := each_tuple

theorem Expr.sound_cast {u : Ty} {b : Bool} :
    (Expr.cast i u e b).Sound ↔ (Expr.cast i u e b).HasSound ∧ e.Sound := each_cast

theorem Expr.sound_reclassify {m : ReclassifyForm} {hom : Option Hom} :
    (Expr.reclassify i m e p hom).Sound ↔ (Expr.reclassify i m e p hom).HasSound ∧ e.Sound ∧ p.Sound :=
  each_reclassify

theorem Expr.sound_leaf (h : e.isLeaf = true) : e.Sound ↔ e.HasSound := each_leaf h

theorem Expr.HasSound.checkedType (h : e.HasSound) : e.checkedType.Sound := by
  unfold Expr.checkedType
  cases ht : e.type? with
  | none => exact AnnTy.sound_plain trivial
  | some t => exact (h.type t ht).1

theorem Expr.type?_withType (e : Expr) (t : AnnTy) : (e.withType t).type? = some t := by cases e <;> rfl

theorem Expr.isDerived_withType (e : Expr) (t : AnnTy) : (e.withType t).isDerived = e.isDerived := by
  cases e with
  | call i f => cases f <;> rfl
  | _ => rfl

theorem Expr.hasSound_withType (ht : t.Sound) (declared : e.isDerived = false → t.Declarable)
    (keyword : e.label? ≠ some .all) : (e.withType t).HasSound := by
  refine ⟨fun u hu => ?_, fun label => absurd ?_ keyword⟩
  · rw [type?_withType] at hu
    cases hu
    exact ⟨ht, fun h => declared ((e.isDerived_withType t).symm.trans h)⟩
  · rw [← label]
    cases e with
    | ident i n r => rcases r with _ | _ | _ | _ <;> rfl
    | _ => rfl

theorem Expr.subexprs_withType (e : Expr) (t : AnnTy) :
    (e.withType t).subexprs = e.withType t :: e.subexprs.tail := by
  cases e <;> rfl

/-- Giving an expression another type. -/
theorem Expr.Sound.withType (h : ∀ x ∈ e.subexprs.tail, x.HasSound) (ht : t.Sound)
    (declared : e.isDerived = false → t.Declarable) (keyword : e.label? ≠ some .all) : (e.withType t).Sound := by
  unfold Sound
  rw [subexprs_withType]
  exact List.forall_mem_cons.mpr ⟨hasSound_withType ht declared keyword, h⟩

end Parts

/-! ## Conversions -/

section Conversions

variable {k : Option Knowledge} {expected : AnnTy} {e x : Expr}

/-- An expression that is derived from others and no owner. -/
theorem Expr.hasSound_derived (derived : e.isDerived = true) (owner : e.label? = none)
    (h : ∀ t, e.type? = some t → t.Sound) : e.HasSound := by
  refine ⟨fun t ht => ⟨h t ht, fun computed => ?_⟩, fun keyword => ?_⟩
  · rw [derived] at computed
    cases computed
  · rw [owner] at keyword
    cases keyword

theorem Expr.sound_ofLabel (l : Label) : (Expr.ofLabel l).Sound := by
  cases l with
  | me => exact (sound_leaf rfl).mpr ⟨nofun, nofun⟩
  | all => exact (sound_leaf rfl).mpr ⟨nofun, fun _ => ⟨rfl, rfl⟩⟩
  | var k d n =>
    refine (sound_leaf rfl).mpr ⟨fun t ht => ?_, nofun⟩
    cases ht
    exact ⟨AnnTy.sound_plain trivial, fun _ => ⟨AnnTy.isOpen_plain _, .inl rfl⟩⟩

theorem Expr.isLeaf_ofLabel (l : Label) : (Expr.ofLabel l).isLeaf = true := by cases l <;> rfl

theorem Expr.isDerived_ofLabel (l : Label) : (Expr.ofLabel l).isDerived = false := by cases l <;> rfl

theorem Expr.label?_ofLabel (l : Label) : (Expr.ofLabel l).label? = some l := by cases l <;> rfl

theorem Expr.isAll_ofLabel {l : Label} : (Expr.ofLabel l).isAll = true ↔ l = .all := by cases l <;> simp [ofLabel] <;> rfl

/-- An owner that is named anew. -/
theorem AnnTy.isOpen_ofLabel {u : Ty} {l : Label} {h : Hom} (plain : l = .all → h = .nonHomomorphic) :
    (AnnTy.owned u (.ofLabel l) h).IsOpen := by
  refine ⟨fun label => ?_, fun visible => plain (Expr.isAll_ofLabel.mp visible)⟩
  exact Expr.isAll_ofLabel.mpr (Option.some.inj ((Expr.label?_ofLabel l).symm.trans label))

theorem Expr.IsCast.sound {u : Ty} (h : IsCast u e x) (hu : u.Sound) (he : e.Sound) : x.Sound := by
  induction h with
  | around =>
    refine sound_cast.mpr ⟨hasSound_derived rfl rfl fun t ht => ?_, he⟩
    cases ht
    exact ⟨hu, he.self.checkedType.2.keyword, he.self.checkedType.2.plain⟩
  | @inside _ _ _ y _ _ _ _ ih =>
    obtain ⟨whole, inner, owner⟩ := sound_reclassify.mp he
    have value : y.Sound := ih inner
    refine sound_reclassify.mpr ⟨hasSound_derived rfl rfl fun t ht => ?_, value, owner⟩
    obtain ⟨a, ha, rfl⟩ := Option.map_eq_some_iff.mp ht
    obtain ⟨old, -⟩ := whole.type a ha
    exact ⟨value.self.checkedType.1, old.2.keyword, old.2.plain⟩

theorem Expr.reclassifyTo_sound (he : e.Sound) (ht : expected.Sound)
    (h : e.reclassifyTo expected.privacy expected.hom = .ok x) : x.Sound := by
  obtain ⟨l, label, isPrivate, rfl⟩ := reclassifyTo_ok h
  refine sound_reclassify.mpr ⟨hasSound_derived rfl rfl fun t ht' => ?_, he, sound_ofLabel l⟩
  cases ht'
  refine ⟨he.self.checkedType.1, AnnTy.isOpen_ofLabel fun all => absurd ?_ (Bool.eq_false_iff.mp isPrivate)⟩
  exact ht.2.keyword (label.trans (congrArg some all))

theorem Expr.rehomTo_sound (he : e.Sound) (ht : expected.Sound) (h : e.rehomTo k expected = .ok x) : x.Sound := by
  obtain ⟨l, label, -, rfl⟩ := rehomTo_ok h
  refine sound_reclassify.mpr ⟨hasSound_derived rfl rfl fun t ht' => ?_, he, sound_ofLabel .me⟩
  cases ht'
  refine ⟨he.self.checkedType.1, AnnTy.isOpen_ofLabel fun all => ?_⟩
  exact ht.2.plain (ht.2.keyword (label.trans (congrArg some all)))

/-- A private value of a derived expression under another homomorphism. -/
theorem Expr.retyped_sound {h : Hom} (derived : e.isDerived = true) (owner : e.label? = none) (he : e.Sound)
    (isPrivate : e.checkedType.isPublic = false) : (e.retyped h).Sound := by
  refine .withType (fun y hy => he y (List.mem_of_mem_tail hy)) ?_ ?_ ?_
  · exact ⟨he.self.checkedType.1, AnnTy.isOpen_of_private he.self.checkedType.2.keyword isPrivate⟩
  · rw [derived]
    nofun
  · rw [owner]
    nofun

/-- A private value of a derived expression with new parts, under another homomorphism. -/
theorem Expr.ChangesHom.sound (h : ChangesHom k expected e x) (he : e.Sound) (ht : expected.Sound) : x.Sound := by
  induction h with
  | again _ _ rehom => exact rehomTo_sound he ht rehom
  | handed hidden =>
    obtain ⟨whole, parts⟩ := sound_reclassify.mp he
    refine retyped_sound rfl rfl (sound_reclassify.mpr ⟨hasSound_derived rfl rfl fun t ht => ?_, parts⟩) hidden
    exact (whole.type t ht).1
  | cast hidden _ _ ih =>
    obtain ⟨whole, inner⟩ := sound_cast.mp he
    refine retyped_sound rfl rfl (sound_cast.mpr ⟨hasSound_derived rfl rfl fun t ht => ?_, ih inner⟩) hidden
    exact (whole.type t ht).1
  | choice _ hidden _ _ first second =>
    obtain ⟨whole, func, args⟩ := sound_call.mp he
    refine retyped_sound rfl rfl (sound_call.mpr ⟨hasSound_derived rfl rfl fun t ht => ?_, func, ?_⟩) hidden
    · exact (whole.type t ht).1
    · simp only [List.forall_mem_cons] at args ⊢
      exact ⟨args.1, first args.2.1, second args.2.2.1, args.2.2.2⟩

theorem Expr.coercePlain_sound {spot : Spot} (he : e.Sound) (ht : expected.Sound)
    (h : (e.coercePlain k spot expected).result = .ok x) : x.Sound := by
  obtain ⟨_, _, y, -, -, cast, steps⟩ := coercePlain_steps h
  have sound : y.Sound := by
    obtain ⟨-, rfl⟩ | ⟨-, cast⟩ := castStep_cases cast
    · exact he
    · exact cast.sound ht.1 he
  obtain ⟨-, encrypt⟩ | ⟨-, -, rfl⟩ | ⟨-, -, change⟩ := steps
  · exact reclassifyTo_sound sound ht encrypt
  · exact sound
  · exact change.sound sound ht

mutual

theorem Expr.Converted.sound : ∀ {e x : Expr} {t : AnnTy}, Converted k e t x → e.Sound → t.Sound → x.Sound
  | _, _, _, .steps h, he, ht => Expr.coercePlain_sound he ht h
  | _, _, _, .parts expected _ each, he, ht => by
    have types : (Ty.tuple _).Sound := expected ▸ ht.1
    have parts := each.sound (Expr.sound_tuple.mp he).2 (AnnTy.allSound_iff.mp types)
    refine Expr.sound_tuple.mpr ⟨⟨fun t ht => ?_, nofun⟩, parts⟩
    cases ht
    have written := AnnTy.written_tuple (List.forall_mem_map.mpr fun x hx => (parts x hx).self.checkedType)
    exact ⟨written.sound, fun _ => written.declarable⟩

theorem Expr.AllConverted.sound : ∀ {es xs : List Expr} {ts : List AnnTy}, AllConverted k es ts xs →
    (∀ e ∈ es, e.Sound) → (∀ t ∈ ts, t.Sound) → ∀ x ∈ xs, x.Sound
  | _, _, _, .noValues, _, _ | _, _, _, .noTypes, _, _ => List.forall_mem_nil _
  | _, _, _, .cons first rest, he, ht => by
    obtain ⟨e, es⟩ := List.forall_mem_cons.mp he
    obtain ⟨t, ts⟩ := List.forall_mem_cons.mp ht
    exact List.forall_mem_cons.mpr ⟨first.sound e t, rest.sound es ts⟩

end

/-- Converting a value gives an expression with sound types. -/
theorem Expr.coerce_sound {s : Symbols} {spot : Spot} {nested : Bool} (he : e.Sound) (ht : expected.Sound)
    (h : (e.coerce s k spot nested expected).result = .ok x) : x.Sound :=
  (converted_of_coerce h).sound he ht

theorem Expr.coerceAll_sound {s : Symbols} {spot : List Expr → Site} {ds es xs : List Expr} {ts : List AnnTy}
    (he : ∀ e ∈ es, e.Sound) (ht : ∀ t ∈ ts, t.Sound) (h : (Expr.coerceAll s k spot ds es ts).2 = .ok xs) :
    ∀ x ∈ xs, x.Sound :=
  (allConverted_of_coerceAll h).sound he ht

end Conversions

end Shroud
