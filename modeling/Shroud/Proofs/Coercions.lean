import Shroud.Proofs.ConversionSteps
import Shroud.Proofs.Plaintexts
import Shroud.Proofs.Sketch

/-!
# Converted operands

What the conversions that the checker inserts make of an operand (`Expr.coerce_ok`): it gets the expected data, owner
and homomorphism, it keeps its plaintext, and nothing private becomes public.

**Steps.** The data is cast first, inside of a value that is handed to another owner (`Expr.CastTo`). Then a public value
is encrypted, or a private one is brought to another homomorphism, which is done below casts and choices where the value
cannot be read (`Expr.Rehomed`). None of the steps touches the plaintext, but the cast only because the wider type holds
the word.

**Everybody.** The laws of owners are lost if the analysis believes that everybody is one of the owners. So it is assumed
that the label for everybody is equal to no other one (`IsApart`).
-/

namespace Shroud

/-! ## Owners -/

/-- No owner is known to be everybody. -/
def IsApart (k : Option Knowledge) : Prop := ∀ l, sameLabel k l .all = true → l = .all

section Owners

variable {k : Option Knowledge} {a b c : Label} {p q r : Expr} {t u : AnnTy}

theorem sameLabel_refl (k : Option Knowledge) (a : Label) : sameLabel k a a = true := by
  unfold sameLabel
  rw [beq_self_eq_true, Bool.true_or]

theorem sameLabel_comm (k : Option Knowledge) (a b : Label) : sameLabel k a b = sameLabel k b a := by
  unfold sameLabel
  rw [Bool.beq_comm]
  cases k with
  | none => rfl
  | some k => exact congrArg _ (k.same_comm a b)

theorem sameLabel_trans (h : sameLabel k a b = true) (h' : sameLabel k b c = true) : sameLabel k a c = true := by
  unfold sameLabel at *
  cases k with
  | none =>
    simp only [Bool.or_false, beq_iff_eq] at *
    exact h.trans h'
  | some k =>
    -- a state relates equal labels anyway
    have related {a b : Label} (h : (a == b || k.same a b) = true) : k.same a b = true := by
      rcases (Bool.or_eq_true _ _).mp h with h | h
      · rw [eq_of_beq h]
        exact k.same_refl b
      · exact h
    exact (Bool.or_eq_true _ _).mpr (.inr (k.same_trans (related h) (related h')))

theorem SameOwner.symm (h : SameOwner k p q) : SameOwner k q p := by
  obtain ⟨l, m, hl, hm, same⟩ := h
  exact ⟨m, l, hm, hl, (sameLabel_comm k m l).trans same⟩

theorem SameOwner.trans (h : SameOwner k p q) (h' : SameOwner k q r) : SameOwner k p r := by
  obtain ⟨l, m, hl, hm, same⟩ := h
  obtain ⟨m', n, hm', hn, same'⟩ := h'
  cases hm.symm.trans hm'
  exact ⟨l, n, hl, hn, sameLabel_trans same same'⟩

theorem SameOwner.isSome (h : SameOwner k p q) : q.label?.isSome = true := by
  obtain ⟨_, m, _, hm, _⟩ := h
  exact Option.isSome_iff_exists.mpr ⟨m, hm⟩

theorem Expr.label?_of_isAll (h : p.isAll = true) : p.label? = some .all := by
  cases p with
  | all => rfl
  | _ => cases h

theorem Expr.label?_of_isMe (h : p.isMe = true) : p.label? = some .me := by
  cases p with
  | me => rfl
  | _ => cases h

/-- What belongs to the owner of something public is public. -/
theorem SameOwner.isPublic (apart : IsApart k) (h : SameOwner k t.privacy u.privacy) (ht : t.IsOpen)
    (visible : u.isPublic = true) : t.isPublic = true := by
  obtain ⟨l, m, hl, hm, same⟩ := h
  cases hm.symm.trans (Expr.label?_of_isAll visible)
  exact ht.keyword (hl.trans (congrArg some (apart l same)))

theorem SameOwner.isPublic_eq (apart : IsApart k) (h : SameOwner k t.privacy u.privacy) (ht : t.IsOpen) (hu : u.IsOpen) :
    t.isPublic = u.isPublic :=
  Bool.eq_iff_iff.mpr ⟨h.symm.isPublic apart hu, h.isPublic apart ht⟩

/-- The owner of what is the sender's. -/
theorem AnnTy.isMine_label (h : t.isMine k = true) {l : Label} (label : t.privacy.label? = some l) :
    sameLabel k l .me = true := by
  rcases (Bool.or_eq_true _ _).mp h with me | known
  · cases label.symm.trans (Expr.label?_of_isMe me)
    exact sameLabel_refl k .me
  · cases k with
    | none => cases known
    | some k =>
      rw [label] at known
      exact (Bool.or_eq_true _ _).mpr (.inr known)

theorem IsApart.not_mine (apart : IsApart k) (h : t.isMine k = true) : t.privacy.label? ≠ some .all := by
  intro label
  have same := AnnTy.isMine_label h label
  rw [sameLabel_comm] at same
  cases apart .me same

/-- Whether a value is the sender's depends on its owner only. -/
theorem AnnTy.isMine_congr (h : t.privacy = u.privacy) : t.isMine k = u.isMine k := by
  unfold isMine
  rw [h]

end Owners

/-! ## Steps of a conversion -/

section Steps

variable {k : Option Knowledge} {e x y : Expr} {u : Ty} {t expected : AnnTy} {site : Site} {spot : Spot}

/-- The second expression is the first with its data cast to a type. -/
structure Expr.CastTo (k : Option Knowledge) (e x : Expr) (u : Ty) : Prop where
  consistent : x.Consistent k
  data : x.checkedType.type = u
  owner : x.checkedType.privacy = e.checkedType.privacy
  hom : x.checkedType.hom = e.checkedType.hom
  plaintext : ∀ ρ, (e.plaintext ρ).Fits u → x.plaintext ρ = e.plaintext ρ

theorem Expr.castTo_ok (consistent : e.Consistent k) (h : (e.castTo u site).result = .ok x) :
    e.checkedType.type.isPrimitive = true ∧ e.CastTo k x u := by
  replace h := isCast_of_castTo h
  induction h with
  | around word =>
    refine ⟨word, ⟨⟨_, rfl, rfl, .inr (.inr ⟨rfl, rfl⟩)⟩, consistent⟩, rfl, rfl, rfl, fun ρ fits => ?_⟩
    exact Plaintext.cast_of_fits fits
  | @inside i m e y p hom _ _ ih =>
    obtain ⟨⟨t, ht, data⟩, inner⟩ := consistent
    obtain ⟨primitive, cast⟩ := ih inner
    have typed : (i.type.map fun a => { a with type := y.checkedType.type }) =
        some { t with type := y.checkedType.type } := congrArg _ ht
    have type : (Expr.reclassify i m e p hom).checkedType = t := checkedType_of_type ht
    have type' : (Expr.reclassify { i with type := i.type.map fun a => { a with type := y.checkedType.type } } m y p
        hom).checkedType = { t with type := y.checkedType.type } := checkedType_of_type typed
    rw [type]
    refine ⟨data ▸ primitive, ⟨⟨_, typed, rfl⟩, cast.consistent⟩, ?_, ?_, ?_, cast.plaintext⟩
    · rw [type']
      exact cast.data
    · rw [type', type]
    · rw [type', type]

/-- The second expression is the first, a private one, under another homomorphism. -/
structure Expr.Rehomed (k : Option Knowledge) (h : Hom) (e x : Expr) : Prop where
  consistent : x.Consistent k
  data : x.checkedType.type = e.checkedType.type
  hom : x.checkedType.hom = h
  wasHidden : e.checkedType.isPublic = false
  hidden : x.checkedType.isPublic = false
  owner : SameOwner k x.checkedType.privacy e.checkedType.privacy
  stays : e.checkedType.isMine k = false → x.checkedType.privacy = e.checkedType.privacy
  plaintext : ∀ ρ, x.plaintext ρ = e.plaintext ρ

namespace Expr.Rehomed

/-- The sender's value, encrypted again. -/
theorem again (apart : IsApart k) (consistent : e.Consistent k) (owner : SameOwner k expected.privacy e.checkedType.privacy)
    (hidden : e.checkedType.isPublic = false) (mine : e.checkedType.isMine k = true) (h : e.rehomTo k expected = .ok x) :
    e.Rehomed k expected.hom x := by
  obtain ⟨l, label, mine', rfl⟩ := rehomTo_ok h
  refine ⟨⟨⟨_, rfl, rfl⟩, consistent⟩, rfl, rfl, hidden, ?_, ?_, ?_, fun _ => rfl⟩
  · refine Bool.eq_false_iff.mpr fun visible => apart.not_mine mine' ?_
    rw [label, isAll_ofLabel.mp visible]
  · obtain ⟨l', m, label', hm, same⟩ := owner
    cases label.symm.trans label'
    exact ⟨l, m, label?_ofLabel l, hm, same⟩
  · rw [mine]
    nofun

/-- An expression whose type names another homomorphism. -/
theorem retyped {h : Hom} (consistent : (x.retyped h).Consistent k) (type : x.checkedType = e.checkedType)
    (hidden : e.checkedType.isPublic = false) (owner : e.checkedType.privacy.label?.isSome = true)
    (plaintext : ∀ ρ, (x.retyped h).plaintext ρ = e.plaintext ρ) : e.Rehomed k h (x.retyped h) := by
  have type' : (x.retyped h).checkedType = e.checkedType.withHom h := by
    rw [← type]
    exact checkedType_of_type (type?_withType _ _)
  obtain ⟨l, label⟩ := Option.isSome_iff_exists.mp owner
  refine ⟨consistent, ?_, ?_, hidden, ?_, ?_, ?_, plaintext⟩
  · rw [type']
    rfl
  · rw [type']
    rfl
  · rw [type']
    exact hidden
  · rw [type']
    exact ⟨l, l, label, label, sameLabel_refl k l⟩
  · rw [type']
    exact fun _ => rfl

/-- A cast of a value that cannot be read, which is brought to another homomorphism below the cast. -/
theorem cast {i : Info} {b : Bool} {h : Hom} (consistent : (Expr.cast i u e b).Consistent k)
    (hidden : (Expr.cast i u e b).checkedType.isPublic = false)
    (foreign : (Expr.cast i u e b).checkedType.isMine k = false)
    (owner : (Expr.cast i u e b).checkedType.privacy.label?.isSome = true)
    (inner : e.checkedType.privacy = (Expr.cast i u e b).checkedType.privacy → e.Rehomed k h x) :
    (Expr.cast i u e b).Rehomed k h ((Expr.cast i u x b).retyped h) := by
  obtain ⟨⟨t, ht, data, owned⟩, -⟩ := consistent
  have type : (Expr.cast i u e b).checkedType = t := checkedType_of_type ht
  have type' : (Expr.cast i u x b).checkedType = t := checkedType_of_type ht
  rw [type] at hidden foreign owner inner
  obtain ⟨sameOwner, sameHom⟩ : t.privacy = e.checkedType.privacy ∧ t.hom = e.checkedType.hom := by
    rcases owned with visible | me | same
    · rw [visible] at hidden
      cases hidden
    · unfold AnnTy.isMine at foreign
      rw [me] at foreign
      cases foreign
    · exact same
  have below := inner sameOwner.symm
  have stays : x.checkedType.privacy = t.privacy :=
    (below.stays ((AnnTy.isMine_congr sameOwner.symm).trans foreign)).trans sameOwner.symm
  refine retyped ⟨⟨t.withHom h, ?_, data, .inr (.inr ⟨stays.symm, below.hom.symm⟩)⟩, below.consistent⟩
    (type'.trans type.symm) (type ▸ hidden) (type ▸ owner) fun ρ => ?_
  · show some ((Expr.cast i u x b).checkedType.withHom h) = _
    rw [type']
  · exact congrArg (Plaintext.cast u) (below.plaintext ρ)

/-- A choice with a public condition, whose values are brought to another homomorphism. -/
theorem choice {i j : Info} {p : Bool} {g h : Hom} {r : Option Expr} {o : Int} {key : Option CircuitVar}
    {c a b a' b' : Expr}
    (consistent : (Expr.call i (.operator j .ite p g r) [c, a, b] o key).Consistent k)
    (hidden : (Expr.call i (.operator j .ite p g r) [c, a, b] o key).checkedType.isPublic = false)
    (owner : (Expr.call i (.operator j .ite p g r) [c, a, b] o key).checkedType.privacy.label?.isSome = true)
    (first : a.Rehomed k h a') (second : b.Rehomed k h b') :
    (Expr.call i (.operator j .ite p g r) [c, a, b] o key).Rehomed k h
      ((Expr.call i (.operator j .ite p g r) [c, a', b'] o key).retyped h) := by
  obtain ⟨⟨t, ht, ha, hb⟩, -, -⟩ := consistent
  have type : (Expr.call i (.operator j .ite p g r) [c, a, b] o key).checkedType = t := checkedType_of_type ht
  have type' : (Expr.call i (.operator j .ite p g r) [c, a', b'] o key).checkedType = t := checkedType_of_type ht
  rw [type] at hidden owner
  have branch {e x : Expr} (old : e.checkedType.IsBranch k c.checkedType.isPublic t) (below : e.Rehomed k h x) :
      x.checkedType.IsBranch k c.checkedType.isPublic (t.withHom h) := by
    refine ⟨fun v hv => old.data v (below.data ▸ hv), fun isOpen => ⟨below.hom, ?_, ?_⟩⟩
    · exact below.hidden.trans hidden.symm
    · exact below.owner.trans (old.owner isOpen).2.2
  refine retyped ⟨⟨t.withHom h, ?_, branch ha first, branch hb second⟩, first.consistent, second.consistent⟩
    (type'.trans type.symm) (type ▸ hidden) (type ▸ owner) fun ρ => ?_
  · show some ((Expr.call i (.operator j .ite p g r) [c, a', b'] o key).checkedType.withHom h) = _
    rw [type']
  · show (if (c.plaintext ρ).isTrue then a'.plaintext ρ else b'.plaintext ρ) =
      if (c.plaintext ρ).isTrue then a.plaintext ρ else b.plaintext ρ
    rw [first.plaintext, second.plaintext]

end Expr.Rehomed

/-- A private value that is brought to another homomorphism. -/
theorem Expr.ChangesHom.rehomed (h : ChangesHom k expected e x) (apart : IsApart k) (consistent : e.Consistent k)
    (owner : SameOwner k expected.privacy e.checkedType.privacy) : e.Rehomed k expected.hom x := by
  induction h with
  | again hidden mine rehom => exact .again apart consistent owner hidden mine rehom
  | @handed i m e p hom hidden =>
    obtain ⟨⟨t, ht, data⟩, inner⟩ := consistent
    have type : (Expr.reclassify i m e p hom).checkedType = t := checkedType_of_type ht
    have type' : (Expr.reclassify i m e p (some expected.hom)).checkedType = t := checkedType_of_type ht
    refine .retyped ⟨⟨t.withHom expected.hom, ?_, data⟩, inner⟩ (type'.trans type.symm) hidden owner.isSome fun _ => rfl
    show some ((Expr.reclassify i m e p (some expected.hom)).checkedType.withHom expected.hom) = _
    rw [type']
  | cast hidden foreign _ ih => exact .cast consistent hidden foreign owner.isSome fun same => ih consistent.2 (same ▸ owner)
  | @choice i j p g r o key c a b a' b' rest isChoice hidden _ _ first second =>
    obtain ⟨c, a, b, t, same, ht, ha, hb, consistentA, consistentB⟩ := consistent_choice consistent
    cases same
    have type : (Expr.call i (.operator j .ite p g r) [c, a, b] o key).checkedType = t := checkedType_of_type ht
    have ownerA := owner.trans (type ▸ (ha.owner isChoice).2.2.symm)
    have ownerB := owner.trans (type ▸ (hb.owner isChoice).2.2.symm)
    exact .choice consistent hidden owner.isSome (first consistentA ownerA) (second consistentB ownerB)

end Steps

/-! ## Fitting values -/

section Fitting

variable {k : Option Knowledge} {e : Expr} {t u : AnnTy} {fit : Fit} {p : Expr}

theorem AnnTy.commonOwner_simple (k : Option Knowledge) (simple : t.type.isTuple = false) (u : AnnTy) :
    t.commonOwner k u = .ok (t.commonOwnerPlain k u) := by
  obtain ⟨type, _⟩ := t
  cases type with
  | tuple => cases simple
  | _ =>
    unfold commonOwner Ty.commonOwner
    rfl

/-- A common owner is the owner of the value, unless everybody can see the value. -/
theorem AnnTy.commonOwnerPlain_one (h : t.commonOwnerPlain k u = .one p) :
    (t.isPublic = true ∨ t.hom = u.hom) ∧
      (p = t.privacy ∧ SameOwner k u.privacy t.privacy ∨
        t.isPublic = true ∧ p = u.privacy ∧ ∃ l, u.privacy.label? = some l ∧ l ≠ .all) := by
  unfold commonOwnerPlain at h
  split at h
  · cases h
  · rename_i homs
    have homs : t.isPublic = true ∨ t.hom = u.hom := by
      simp only [Bool.and_eq_true, bne_iff_ne, ne_eq, Bool.not_eq_true', not_and, Bool.not_eq_false] at homs
      by_cases same : t.hom = u.hom
      · exact .inr same
      · exact .inl (homs same)
    refine ⟨homs, ?_⟩
    split at h
    · rename_i l m hl hm
      split at h
      · cases h
        exact .inl ⟨rfl, l, m, hl, hm, ‹_›⟩
      · rename_i differ
        split at h
        · rename_i visible
          cases h
          refine .inr ⟨visible, rfl, l, hl, ?_⟩
          rintro rfl
          cases hm.symm.trans (Expr.label?_of_isAll visible)
          exact differ (sameLabel_refl k .all)
        · cases h
    · cases h

/-- What is known of a value that can be used at a type. -/
theorem Expr.fits_ok (h : e.fits k t = .ok fit) (used : fit ≠ .no) :
    e.checkedType.type.convertsTo t.type = true ∧
      ((∃ p, e.checkedType.commonOwner k t = .ok (.one p) ∧
          fit = if p.label? == e.checkedType.privacy.label? then .yes else .makePrivate) ∨
        ∃ os ts, e.checkedType.commonOwner k t = .ok (.many os) ∧ e.checkedType.type = .tuple ts ∧ fit = .yes ∧
          os.length = ts.length ∧ ∀ x ∈ os.zip ts, x.1.isKeyword x.2 = true) := by
  unfold fits at h
  obtain ⟨converts, hconverts, h⟩ := except_bind_ok h
  have converts : e.checkedType.type.convertsTo t.type = true := by
    unfold Expr.convertsTo? at hconverts
    split at hconverts
    · cases hconverts
    · cases hconverts
      by_contra differ
      rw [Expr.convertsTo, Bool.eq_false_iff.mpr differ] at h
      cases h
      exact used rfl
  refine ⟨converts, ?_⟩
  split at h
  · cases h
    exact absurd rfl used
  · obtain ⟨owner, howner, h⟩ := except_bind_ok h
    split at h
    · cases h
      exact absurd rfl used
    · cases h
      exact .inl ⟨_, howner, rfl⟩
    · split at h
      · cases h
      · rename_i os _ _ _ ts _ _ _ hts
        replace h := Except.ok.inj h
        split at h
        · rename_i keywords
          obtain ⟨length, keywords⟩ := (Bool.and_eq_true _ _).mp keywords
          refine .inr ⟨os, ts, howner, hts, h.symm, eq_of_beq length, fun x hx => ?_⟩
          exact List.all_eq_true.mp keywords x hx
        · exact absurd h.symm used
      · cases h

/-- A value that is no tuple is used as it is, or has to be encrypted before. -/
theorem Expr.fits_simple (simple : e.checkedType.type.isTuple = false) (h : e.fits k t = .ok fit) (used : fit ≠ .no) :
    (e.checkedType.isPublic = true ∨ e.checkedType.hom = t.hom) ∧
      (fit = .yes ∧ SameOwner k t.privacy e.checkedType.privacy ∨
        fit = .makePrivate ∧ e.checkedType.isPublic = true ∧ ∃ l, t.privacy.label? = some l ∧ l ≠ .all) := by
  obtain ⟨-, ⟨p, howner, rfl⟩ | ⟨os, ts, howner, htype, -⟩⟩ := fits_ok h used
  · rw [AnnTy.commonOwner_simple k simple] at howner
    obtain ⟨homs, ⟨rfl, owner⟩ | ⟨visible, rfl, l, hl, other⟩⟩ := AnnTy.commonOwnerPlain_one (Except.ok.inj howner)
    · exact ⟨homs, .inl ⟨if_pos (beq_self_eq_true _), owner⟩⟩
    · refine ⟨homs, .inr ⟨if_neg ?_, visible, l, hl, other⟩⟩
      rw [hl, label?_of_isAll visible, beq_iff_eq]
      exact fun same => other (Option.some.inj same)
  · rw [htype] at simple
    cases simple

/-- The homomorphism of a tuple is that of its parts. -/
theorem Expr.fits_tuple (compound : e.checkedType.type.isTuple = true) (h : Hom) :
    e.fits k (t.withHom h) = e.fits k t := by
  have owners : e.checkedType.commonOwner k (t.withHom h) = e.checkedType.commonOwner k t := by
    generalize e.checkedType = s at compound
    obtain ⟨type, q, g, a, d⟩ := s
    cases type with
    | tuple =>
      unfold AnnTy.commonOwner Ty.commonOwner
      rfl
    | _ => cases compound
  unfold fits
  dsimp only
  rw [owners]
  rfl

/-- The homomorphism is of no account if everybody can see the value, or if it is the same anyway. -/
theorem Expr.fits_withHom (either : e.checkedType.isPublic = true ∨ e.checkedType.hom = t.hom) :
    e.fits k (t.withHom e.checkedType.hom) = e.fits k t := by
  cases compound : e.checkedType.type.isTuple with
  | true => exact fits_tuple compound e.checkedType.hom
  | false =>
    have owners : e.checkedType.commonOwnerPlain k (t.withHom e.checkedType.hom) = e.checkedType.commonOwnerPlain k t := by
      have skip : (e.checkedType.hom != t.hom && !e.checkedType.isPublic) = false := by
        rcases either with visible | same
        · rw [visible, Bool.not_true, Bool.and_false]
        · rw [same, bne_self_eq_false, Bool.false_and]
      unfold AnnTy.commonOwnerPlain
      rw [skip, show (t.withHom e.checkedType.hom).hom = e.checkedType.hom from rfl, bne_self_eq_false, Bool.false_and]
      rfl
    unfold fits
    dsimp only
    rw [AnnTy.commonOwner_simple k compound, AnnTy.commonOwner_simple k compound, owners]
    rfl

end Fitting

/-! ## Converted types -/

/-- A value of the first type that is converted to the third has the second: the expected data, homomorphism and owner;
nothing private has become public. -/
structure AnnTy.Reaches (k : Option Knowledge) (source result expected : AnnTy) : Prop where
  data : result.type.same expected.type = true
  hom : result.hom = expected.hom
  visible : result.isPublic = expected.isPublic
  owner : SameOwner k result.privacy expected.privacy
  secret : expected.isPublic = true → source.isPublic = true

mutual

/-- The parts of a tuple are converted, and any other value as a whole. -/
def Ty.Coerced (k : Option Knowledge) : Ty → AnnTy → AnnTy → AnnTy → Prop
  | .tuple ss, _, result, expected =>
    ∃ rs ts, result.type = .tuple rs ∧ expected.type = .tuple ts ∧ AnnTy.AllCoerced k ss rs ts
  | _, source, result, expected => source.Reaches k result expected
termination_by structural t => t

def AnnTy.AllCoerced (k : Option Knowledge) : List AnnTy → List AnnTy → List AnnTy → Prop
  | [], [], [] => True
  | ⟨t, p, h, a, d⟩ :: ss, r :: rs, e :: es => t.Coerced k ⟨t, p, h, a, d⟩ r e ∧ AnnTy.AllCoerced k ss rs es
  | _, _, _ => False
termination_by structural ts => ts

end

/-- A value of the first type that is converted to the third has the second, component by component. -/
def AnnTy.Coerced (k : Option Knowledge) (source result expected : AnnTy) : Prop :=
  source.type.Coerced k source result expected

section Types

variable {k : Option Knowledge} {s r t : AnnTy}

theorem Ty.isTuple_iff {u : Ty} : u.isTuple = true ↔ ∃ ts, u = .tuple ts := by
  cases u with
  | tuple ts => exact ⟨fun _ => ⟨ts, rfl⟩, fun _ => rfl⟩
  | _ => exact ⟨nofun, nofun⟩

theorem AnnTy.coerced_simple (simple : s.type.isTuple = false) : s.Coerced k r t ↔ s.Reaches k r t := by
  obtain ⟨type, _⟩ := s
  cases type with
  | tuple => cases simple
  | _ => exact Iff.rfl

theorem AnnTy.coerced_tuple {ss : List AnnTy} (type : s.type = .tuple ss) : s.Coerced k r t ↔
    ∃ rs ts, r.type = .tuple rs ∧ t.type = .tuple ts ∧ AnnTy.AllCoerced k ss rs ts := by
  obtain ⟨_, _⟩ := s
  cases type
  exact Iff.rfl

theorem AnnTy.allCoerced_cons {ss rs ts : List AnnTy} :
    AnnTy.AllCoerced k (s :: ss) (r :: rs) (t :: ts) ↔ s.Coerced k r t ∧ AnnTy.AllCoerced k ss rs ts := by
  obtain ⟨_, _⟩ := s
  exact Iff.rfl

/-- The owners of a tuple are those of its parts. -/
theorem AnnTy.commonOwner_tuple {ss : List AnnTy} {o : CommonOwner} (type : s.type = .tuple ss)
    (h : s.commonOwner k t = .ok o) :
    ∃ ts os, t.type = .tuple ts ∧ o = .many os ∧ AnnTy.commonOwners k ss ts = .ok os := by
  obtain ⟨_, _⟩ := s
  cases type
  unfold commonOwner Ty.commonOwner at h
  split at h
  · split at h
    · obtain ⟨os, hos, h⟩ := except_bind_ok h
      cases h
      exact ⟨_, os, ‹_›, rfl, hos⟩
    · cases h
  · cases h

/-- A part of a tuple that is used as it is. -/
theorem AnnTy.reaches_keyword {o : CommonOwner} (apart : IsApart k) (hs : s.IsOpen) (ht : t.IsOpen)
    (same : s.same t = true) (owner : s.commonOwner k t = .ok o) (keyword : o.isKeyword s = true) : s.Coerced k s t := by
  have simple : s.type.isTuple = false := Bool.eq_false_iff.mpr fun compound => by
    -- the owners of a nested tuple are several, so none of them is a keyword
    obtain ⟨ss, type⟩ := Ty.isTuple_iff.mp compound
    obtain ⟨_, _, _, rfl, _⟩ := commonOwner_tuple type owner
    cases keyword
  rw [coerced_simple simple]
  rw [commonOwner_simple k simple] at owner
  have owner := Except.ok.inj owner
  obtain ⟨type, p, h, a, d⟩ := s
  obtain ⟨dataHom, -⟩ := (Bool.and_eq_true _ _).mp same
  obtain ⟨data, hom⟩ := (Bool.and_eq_true _ _).mp dataHom
  cases o with
  | none | many => cases keyword
  | one q =>
    obtain ⟨-, ⟨-, owner⟩ | ⟨visible, rfl, l, hl, other⟩⟩ := commonOwnerPlain_one owner
    · exact ⟨data, eq_of_beq hom, owner.symm.isPublic_eq apart hs ht, owner.symm, owner.symm.isPublic apart hs⟩
    · -- what everybody can see has only the keyword for everybody as its owner
      rcases (Bool.or_eq_true _ _).mp keyword with me | all
      · obtain ⟨-, me⟩ := (Bool.and_eq_true _ _).mp me
        cases (Expr.label?_of_isMe me).symm.trans (Expr.label?_of_isAll visible)
      · obtain ⟨all, -⟩ := (Bool.and_eq_true _ _).mp all
        cases hl.symm.trans (Expr.label?_of_isAll all)
        exact absurd rfl other

/-- A tuple that is used as it is. -/
theorem AnnTy.allCoerced_keywords (apart : IsApart k) : ∀ (ss ts : List AnnTy) (os : List CommonOwner),
    (∀ s ∈ ss, s.IsOpen) → (∀ t ∈ ts, t.IsOpen) → AnnTy.sameAll ss ts = true → AnnTy.commonOwners k ss ts = .ok os →
    (∀ x ∈ os.zip ss, x.1.isKeyword x.2 = true) → AnnTy.AllCoerced k ss ss ts
  | [], [], _, _, _, _, _, _ => trivial
  | [], _ :: _, _, _, _, same, _, _ | _ :: _, [], _, _, _, same, _, _ => nomatch same
  | s :: ss, t :: ts, os, hs, ht, same, owners, keywords => by
    unfold AnnTy.commonOwners at owners
    obtain ⟨o, ho, owners⟩ := except_bind_ok owners
    obtain ⟨os, hos, owners⟩ := except_bind_ok owners
    cases owners
    obtain ⟨first, rest⟩ := (Bool.and_eq_true _ _).mp (AnnTy.sameAll.eq_2 .. ▸ same)
    obtain ⟨openS, opensS⟩ := List.forall_mem_cons.mp hs
    obtain ⟨openT, opensT⟩ := List.forall_mem_cons.mp ht
    obtain ⟨keyword, keywords⟩ := List.forall_mem_cons.mp keywords
    exact allCoerced_cons.mpr ⟨reaches_keyword apart openS openT first ho keyword,
      allCoerced_keywords apart ss ts os opensS opensT rest hos keywords⟩

end Types

/-! ## Converted expressions -/

section Coercing

variable {k : Option Knowledge} {e x : Expr} {t expected : AnnTy} {spot : Spot}

/-- The second expression is the first converted to a type. -/
structure Expr.CoercedTo (k : Option Knowledge) (e x : Expr) (expected : AnnTy) : Prop where
  consistent : x.Consistent k
  type : e.checkedType.Coerced k x.checkedType expected
  plaintext : ∀ ρ, x.plaintext ρ = e.plaintext ρ

/-- Words convert to words only. -/
theorem Ty.isPrimitive_of_convertsTo {t u : Ty} (primitive : t.isPrimitive = true) (h : t.convertsTo u = true) :
    u.isPrimitive = true := by
  cases u with
  | bool | boolLit | number | numLit | elementary | address | integer => rfl
  | named sort ns r =>
    cases t with
    | named sort' ns' r' =>
      cases sort with
      | enum | enumValue => rfl
      | _ => cases sort' with
        | enum | enumValue => cases h
        | _ => cases primitive
    | address =>
      obtain ⟨_, other⟩ := convertsTo_address h
      cases other
    | mapping | array | cipher | publicKey | randomness | tuple | function => cases primitive
    | _ => cases h
  | mapping | array | cipher | publicKey | randomness | tuple | function =>
    cases t with
    | named =>
      obtain ⟨_, _, _, other⟩ := convertsTo_named h
      cases other
    | address =>
      obtain ⟨_, other⟩ := convertsTo_address h
      cases other
    | mapping | array | cipher | publicKey | randomness | tuple | function => cases primitive
    | _ => cases h

theorem Ty.same_self {u : Ty} (primitive : u.isPrimitive = true) : u.same u = true := by
  cases u with
  | bool | boolLit | number | numLit => rfl
  | elementary | address => exact beq_self_eq_true _
  | integer => exact (Bool.and_eq_true _ _).mpr ⟨beq_self_eq_true _, beq_self_eq_true _⟩
  | named sort ns r =>
    refine (Bool.and_eq_true _ _).mpr ⟨beq_self_eq_true _, ?_⟩
    cases r <;> exact beq_self_eq_true _
  | mapping | array | cipher | publicKey | randomness | tuple | function => cases primitive

theorem Expr.castStep_ok (consistent : e.Consistent k) (converts : e.checkedType.type.convertsTo t.type = true)
    (h : (e.castStep spot t).result = .ok x) :
    x.Consistent k ∧ x.checkedType.type.same t.type = true ∧ x.checkedType.privacy = e.checkedType.privacy ∧
      x.checkedType.hom = e.checkedType.hom ∧ ∀ ρ, x.plaintext ρ = e.plaintext ρ := by
  cases differ : e.checkedType.type.same t.type with
  | true =>
    rw [castStep_same differ] at h
    cases h
    exact ⟨consistent, differ, rfl, rfl, fun _ => rfl⟩
  | false =>
    rw [castStep_differ differ] at h
    obtain ⟨primitive, cast⟩ := castTo_ok consistent h
    have fits (ρ : Reading) : (e.plaintext ρ).Fits t.type := fun v hv =>
      (plaintext_fits ρ consistent v hv).convert converts differ
    refine ⟨cast.consistent, ?_, cast.owner, cast.hom, fun ρ => cast.plaintext ρ (fits ρ)⟩
    rw [cast.data]
    exact Ty.same_self (Ty.isPrimitive_of_convertsTo primitive converts)

theorem Ty.convertsTo_tuple {ss : List AnnTy} {u : Ty} (h : (Ty.tuple ss).convertsTo u = true) : ∃ ts, u = .tuple ts := by
  cases u with
  | tuple ts => exact ⟨ts, rfl⟩
  | _ => cases h

/-- A tuple that is no literal is used as it is. -/
theorem Expr.fits_compound (apart : IsApart k) {ss : List AnnTy} {fit : Fit} (type : e.checkedType.type = .tuple ss)
    (sound : e.checkedType.Sound) (expected : t.Sound) (h : e.fits k t = .ok fit) (used : fit ≠ .no)
    (same : e.checkedType.type.same t.type = true) : fit = .yes ∧ e.checkedType.Coerced k e.checkedType t := by
  obtain ⟨-, common⟩ := fits_ok h used
  rw [type] at same
  obtain ⟨p, howner, -⟩ | ⟨os, ss', howner, hss, rfl, -, keywords⟩ := common
  · obtain ⟨_, _, _, other, _⟩ := AnnTy.commonOwner_tuple type howner
    cases other
  · cases type.symm.trans hss
    obtain ⟨ts, os', type', hos, owners⟩ := AnnTy.commonOwner_tuple type howner
    cases hos
    have parts {t : AnnTy} {ts : List AnnTy} (type : t.type = .tuple ts) (sound : t.Sound) : ∀ t ∈ ts, t.IsOpen :=
      fun s hs => (AnnTy.allSound_iff.mp (show (Ty.tuple ts).Sound from type ▸ sound.1) s hs).2
    rw [type'] at same
    exact ⟨rfl, (AnnTy.coerced_tuple type).mpr ⟨ss, ts, type, type',
      AnnTy.allCoerced_keywords apart ss ts os (parts type sound) (parts type' expected) same owners keywords⟩⟩

namespace Expr.FitsEither

variable {fit : Fit} {rehom : Bool}

theorem convertsTo (fits : e.FitsEither k t fit rehom) (used : fit ≠ .no) :
    e.checkedType.type.convertsTo t.type = true := by
  rcases fits with ⟨-, fits⟩ | ⟨-, -, fits⟩
  · exact (fits_ok fits used).1
  · exact (fits_ok fits used).1

/-- The homomorphism is changed for a private value that has another one. -/
theorem differs (fits : e.FitsEither k t fit true) (used : fit ≠ .no) :
    e.checkedType.isPublic = false ∧ e.checkedType.hom ≠ t.hom := by
  obtain ⟨⟨⟩, -⟩ | ⟨-, no, again⟩ := fits
  have neither : ¬(e.checkedType.isPublic = true ∨ e.checkedType.hom = t.hom) := fun either => by
    rw [fits_withHom either, no] at again
    exact used (Except.ok.inj again).symm
  exact ⟨Bool.eq_false_iff.mpr fun visible => neither (.inl visible), fun same => neither (.inr same)⟩

/-- The parts of a tuple decide about the homomorphism. -/
theorem direct (fits : e.FitsEither k t fit rehom) (used : fit ≠ .no) (compound : e.checkedType.type.isTuple = true) :
    rehom = false ∧ e.fits k t = .ok fit := by
  refine fits.resolve_right fun ⟨_, no, again⟩ => ?_
  rw [fits_tuple compound, no] at again
  exact used (Except.ok.inj again).symm

/-- A value that is no tuple belongs to the expected owner, or has to be encrypted for him. -/
theorem simple (fits : e.FitsEither k t fit rehom) (used : fit ≠ .no) (simple : e.checkedType.type.isTuple = false) :
    (rehom = false → e.checkedType.isPublic = true ∨ e.checkedType.hom = t.hom) ∧
      (fit = .yes ∧ SameOwner k t.privacy e.checkedType.privacy ∨
        fit = .makePrivate ∧ e.checkedType.isPublic = true ∧ ∃ l, t.privacy.label? = some l ∧ l ≠ .all) := by
  rcases fits with ⟨-, fits⟩ | ⟨rfl, -, fits⟩
  · obtain ⟨homs, use⟩ := fits_simple simple fits used
    exact ⟨fun _ => homs, use⟩
  · exact ⟨fun keep => absurd keep.symm Bool.false_ne_true, (fits_simple simple fits used).2⟩

end Expr.FitsEither

/-- Converting a value that is no tuple literal. -/
theorem Expr.coercePlain_ok (apart : IsApart k) (consistent : e.Consistent k) (sound : e.checkedType.Sound)
    (expected : t.Sound) (h : (e.coercePlain k spot t).result = .ok x) : e.CoercedTo k x t := by
  obtain ⟨fit, rehom, y, used, tried, hy, steps⟩ := coercePlain_steps h
  obtain ⟨consistentY, data, owner, hom, plaintext⟩ := castStep_ok consistent (tried.convertsTo used) hy
  cases compound : e.checkedType.type.isTuple with
  | true =>
    obtain ⟨ss, type⟩ := Ty.isTuple_iff.mp compound
    have direct := tried.direct used compound
    have same : e.checkedType.type.same t.type = true := by
      by_contra differ
      rw [castStep_differ (Bool.eq_false_iff.mpr differ)] at hy
      have primitive := (castTo_ok consistent hy).1
      rw [type] at primitive
      cases primitive
    obtain ⟨rfl, coerced⟩ := fits_compound apart type sound expected direct.2 used same
    rw [castStep_same same] at hy
    cases hy
    obtain ⟨⟨⟩, -⟩ | ⟨-, -, rfl⟩ | ⟨-, change, -⟩ := steps
    · exact ⟨consistent, coerced, fun _ => rfl⟩
    · rw [direct.1] at change
      cases change
  | false =>
    obtain ⟨homs, use⟩ := tried.simple used compound
    suffices reaches : x.Consistent k ∧ e.checkedType.Reaches k x.checkedType t ∧ ∀ ρ, x.plaintext ρ = e.plaintext ρ from
      ⟨reaches.1, (AnnTy.coerced_simple compound).mpr reaches.2.1, reaches.2.2⟩
    have visibleY : y.checkedType.isPublic = e.checkedType.isPublic := congrArg Expr.isAll owner
    obtain ⟨rfl, ownerE⟩ | ⟨rfl, visible, l, hl, other⟩ := use
    · have visibleE : t.isPublic = e.checkedType.isPublic := ownerE.isPublic_eq apart expected.2 sound.2
      have ownerY : SameOwner k t.privacy y.checkedType.privacy := owner ▸ ownerE
      obtain ⟨⟨⟩, -⟩ | ⟨-, keep, rfl⟩ | ⟨-, -, change⟩ := steps
      · refine ⟨consistentY, ⟨data, ?_, visibleY.trans visibleE.symm, ownerY.symm, visibleE.symm.trans⟩, plaintext⟩
        rcases homs keep with visible | homs
        · rw [hom, sound.2.plain visible, expected.2.plain (visibleE.trans visible)]
        · rw [hom, homs]
      · have rehomed : y.Rehomed k t.hom x := change.rehomed apart consistentY ownerY
        have hidden : t.isPublic = false := by
          rw [visibleE, ← visibleY, rehomed.wasHidden]
        refine ⟨rehomed.consistent, ⟨?_, rehomed.hom, rehomed.hidden.trans hidden.symm, ?_, ?_⟩, fun ρ => ?_⟩
        · rw [rehomed.data]
          exact data
        · exact rehomed.owner.trans ownerY.symm
        · rw [hidden]
          nofun
        · exact (rehomed.plaintext ρ).trans (plaintext ρ)
    · obtain ⟨-, encrypt⟩ | ⟨⟨⟩, -⟩ | ⟨⟨⟩, -⟩ := steps
      obtain ⟨m, hm, hidden, rfl⟩ := reclassifyTo_ok encrypt
      cases hl.symm.trans hm
      refine ⟨⟨⟨_, rfl, rfl⟩, consistentY⟩, ⟨data, rfl, ?_, ?_, ?_⟩, plaintext⟩
      · refine Eq.trans (Bool.eq_false_iff.mpr fun all => other (isAll_ofLabel.mp all)) hidden.symm
      · exact ⟨l, l, label?_ofLabel l, hl, sameLabel_refl k l⟩
      · exact fun visible => absurd visible (Bool.eq_false_iff.mp hidden)

/-- The first expressions converted to the types, in this order. -/
structure Expr.AllCoercedTo (k : Option Knowledge) (es xs : List Expr) (ts : List AnnTy) : Prop where
  consistent : Expr.AllConsistent k xs
  types : AnnTy.AllCoerced k (es.map Expr.checkedType) (xs.map Expr.checkedType) ts
  plaintexts : ∀ ρ, Expr.plaintexts ρ xs = Expr.plaintexts ρ es

mutual

theorem Expr.Converted.coercedTo (apart : IsApart k) : ∀ {e x : Expr} {t : AnnTy}, Converted k e t x →
    e.Consistent k → e.Sound → t.Sound → e.CoercedTo k x t
  | _, _, _, .steps h, he, hs, ht => Expr.coercePlain_ok apart he hs.self.checkedType ht h
  | _, _, _, @Expr.Converted.parts _ i es _ _ ts expected length each, consistent, sound, written => by
    have types : (Ty.tuple ts).Sound := expected ▸ written.1
    have parts := each.allCoercedTo apart length consistent.2 (Expr.sound_tuple.mp sound).2 (AnnTy.allSound_iff.mp types)
    have type : (Expr.tuple i es).checkedType.type = .tuple (es.map Expr.checkedType) := by
      rw [checkedType_of_type (e := .tuple i es) consistent.1]
      rfl
    refine ⟨⟨rfl, parts.consistent⟩, (AnnTy.coerced_tuple type).mpr ⟨_, ts, rfl, expected, parts.types⟩, fun ρ => ?_⟩
    exact congrArg Plaintext.parts (parts.plaintexts ρ)

theorem Expr.AllConverted.allCoercedTo (apart : IsApart k) : ∀ {es xs : List Expr} {ts : List AnnTy},
    AllConverted k es ts xs → ts.length = es.length → Expr.AllConsistent k es → (∀ e ∈ es, e.Sound) →
      (∀ t ∈ ts, t.Sound) → Expr.AllCoercedTo k es xs ts
  | _, _, [], .noValues, _, _, _, _ => ⟨trivial, trivial, fun _ => rfl⟩
  | _, _, _ :: _, .noValues, length, _, _, _ | _, _, _, .noTypes, length, _, _, _ => nomatch length
  | _, _, _, .cons first rest, length, consistent, sound, expected => by
    obtain ⟨e, es⟩ := List.forall_mem_cons.mp sound
    obtain ⟨t, ts⟩ := List.forall_mem_cons.mp expected
    have first := first.coercedTo apart consistent.1 e t
    have rest := rest.allCoercedTo apart (Nat.succ.inj length) consistent.2 es ts
    refine ⟨⟨first.consistent, rest.consistent⟩, AnnTy.allCoerced_cons.mpr ⟨first.type, rest.types⟩, fun ρ => ?_⟩
    exact congrArg₂ List.cons (first.plaintext ρ) (rest.plaintexts ρ)

end

/-- Converting an expression. -/
theorem Expr.coerce_ok {s : Symbols} {nested : Bool} (apart : IsApart k) (consistent : e.Consistent k) (sound : e.Sound)
    (expected : t.Sound) (h : (e.coerce s k spot nested t).result = .ok x) : e.CoercedTo k x t :=
  (converted_of_coerce h).coercedTo apart consistent sound expected

/-- Conversion is faithful: a converted value has the expected data, homomorphism and owner, component by component,
denotes the same plaintext, and was public before if it is expected to be public. -/
theorem Expr.coerce_faithful {s : Symbols} {nested : Bool} (apart : IsApart k) (consistent : e.Consistent k)
    (sound : e.Sound) (expected : t.Sound) (h : (e.coerce s k spot nested t).result = .ok x) :
    e.checkedType.Coerced k x.checkedType t ∧ ∀ ρ, x.plaintext ρ = e.plaintext ρ := by
  have coerced := coerce_ok apart consistent sound expected h
  exact ⟨coerced.type, coerced.plaintext⟩

/-- The sender is known to be `bob`. -/
def asBob : Knowledge := ⟨[[.me, .var .stateVar 1 "bob"], [.all]]⟩

theorem isApart_asBob : IsApart (some asBob) := by
  intro l h
  unfold sameLabel Partition.same Partition.index? asBob at h
  cases l with
  | all => rfl
  | me => cases h
  | var k d n =>
    by_cases bob : Label.var k d n = .var .stateVar 1 "bob"
    · rw [bob] at h
      cases h
    · simp [List.findIdx?_cons, bob] at h

/-- `(x, y)` with a public `x` of 8 bit and a `y` of the sender of 16 bit. -/
def offering : Expr :=
  let u8 : Ty := .integer false (.ofBits 8)
  let u16 : Ty := .integer false (.ofBits 16)
  let x := (Expr.ident .synthetic (.plain "x") (some (.decl .localVar 2))).withType (.plain u8)
  let y := (Expr.ident .synthetic (.plain "y") (some (.decl .localVar 3))).withType (.owned u16 .meLabel .nonHomomorphic)
  (Expr.tuple .synthetic [x, y]).withType (.plain (.tuple [x.checkedType, y.checkedType]))

/-- Two homomorphic values of `bob`. -/
def offered : AnnTy :=
  let u16 : AnnTy := .owned (.integer false (.ofBits 16)) (.ofLabel (.var .stateVar 1 "bob")) .additive
  .plain (.tuple [u16, u16])

theorem offering_faithful : ∃ x, (offering.coerce ⟨[]⟩ (some asBob) (fun _ => .detached) false offered).result = .ok x ∧
    (x matches .tuple _ [.reclassify _ .reveal (.cast ..) _ _, .reclassify _ .rehom (.ident ..) _ _]) = true ∧
    offering.checkedType.Coerced (some asBob) x.checkedType offered ∧ ∀ ρ, x.plaintext ρ = offering.plaintext ρ := by
  obtain ⟨x, hx, shape⟩ := exists_ok_of_any
    (x := (offering.coerce ⟨[]⟩ (some asBob) (fun _ => .detached) false offered).result)
    (p := (· matches .tuple _ [.reclassify _ .reveal (.cast ..) _ _, .reclassify _ .rehom (.ident ..) _ _]))
    (by decide +kernel)
  refine ⟨x, hx, shape, Expr.coerce_faithful isApart_asBob ⟨rfl, trivial, trivial, trivial⟩ ?_ ?_ hx⟩
  · have name {i : Info} {n : Ident} {d : Nat} {t : AnnTy} (type : i.type = some t) (sound : t.Sound)
        (lawful : t.isLawful = true) : (Expr.ident i n (some (.decl .localVar d))).Sound := by
      refine (Expr.sound_leaf rfl).mpr ⟨fun u hu => ?_, nofun⟩
      cases type.symm.trans hu
      exact ⟨sound, fun _ => ⟨sound.2, .inl lawful⟩⟩
    have visible : (AnnTy.plain (.integer false (.ofBits 8))).Sound := AnnTy.sound_plain trivial
    have mine : (AnnTy.owned (.integer false (.ofBits 16)) .meLabel .nonHomomorphic).Sound :=
      ⟨trivial, nofun, fun _ => rfl⟩
    refine Expr.sound_tuple.mpr ⟨⟨fun t ht => ?_, nofun⟩, ?_⟩
    · cases ht
      have written := AnnTy.written_tuple (List.forall_mem_cons.mpr ⟨visible, List.forall_mem_singleton.mpr mine⟩)
      exact ⟨written.sound, fun _ => written.declarable⟩
    · exact List.forall_mem_cons.mpr ⟨name rfl visible rfl, List.forall_mem_singleton.mpr (name rfl mine rfl)⟩
  · have bobs : (AnnTy.owned (.integer false (.ofBits 16)) (.ofLabel (.var .stateVar 1 "bob")) .additive).Sound :=
      ⟨trivial, nofun, nofun⟩
    exact (AnnTy.written_tuple (List.forall_mem_cons.mpr ⟨bobs, List.forall_mem_singleton.mpr bobs⟩)).sound

end Coercing

end Shroud
