import Shroud.Proofs.LinkedOwners
import Shroud.Proofs.Wording

/-!
# Failed conversions

Why a conversion inside of a program fails. A value that cannot be used at a type is the program's fault, and the checker
complains about it (`Error.IsComplaint`), unless the complaint would show something without a written form. All other
failures come from two places (`Expr.Jams`): a literal is used at a type of negative width, or a call has several results
whose data would have to be cast.

* `Expr.coerce_failed`: nothing else fails.
* `Expr.Jams.coerce`: a value that jams is never converted, though it fits.

**Steps.** A value that fits goes through all steps of its conversion. Its data can be cast unless it is a tuple
(`Expr.castTo_failed`). If its homomorphism is to be changed, it is private and of the owner that is expected
(`AnnTy.Rehoms`), also below casts and choices (`Expr.changeHom_failed`).

**Knowledge.** If anything is known of owners, the sender is known to be the sender. Otherwise only the keyword tells, so the
expected type has to use it (`AnnTy.NamesSender`).

**Calls.** A converted tuple is put back into the program, which asks for the side effects of its calls. These are told as
all of them are calls of functions (`Expr.CallsFunctions`).
-/

namespace Shroud

/-! ## Equal types -/

theorem Ref.sameOwner_comm (r s : Ref) : r.sameOwner s = s.sameOwner r := by
  rcases r with ⟨_, _⟩ | ⟨_, _, _⟩ | ⟨_, _ | ⟨_ | _ | _, _⟩⟩
  all_goals
    rcases s with ⟨_, _⟩ | ⟨_, _, _⟩ | ⟨_, _ | ⟨_ | _ | _, _⟩⟩
    all_goals first | rfl | exact Bool.beq_comm

theorem Expr.sameOwner_comm (p q : Expr) : p.sameOwner q = q.sameOwner p := by
  have byId (p q : Expr) : (p.id != 0 && p.id == q.id) = (q.id != 0 && q.id == p.id) := by
    by_cases h : p.id = q.id
    · rw [h]
    · rw [beq_false_of_ne h, beq_false_of_ne (Ne.symm h), Bool.and_false, Bool.and_false]
  cases p with
  | ident i n t =>
    cases q with
    | ident j m u =>
      rcases t with _ | r
      · cases u <;> exact Bool.beq_comm
      · rcases u with _ | s
        · exact Bool.beq_comm
        · exact r.sameOwner_comm s
    | _ => exact byId _ _
  | me | all => cases q <;> first | rfl | exact byId _ _
  | _ => cases q <;> exact byId _ _

theorem sameLength_comm (a b : Option Expr) : sameLength a b = sameLength b a := by
  cases a with
  | none => rcases b with _ | (_ | _) <;> rfl
  | some a =>
    cases b with
    | none => cases a <;> rfl
    | some b => cases a <;> cases b <;> first | rfl | exact Bool.beq_comm

mutual

/-- Equality of types is symmetric. -/
theorem Ty.same_comm (t u : Ty) : t.same u = u.same t := by
  cases t with
  | mapping _ k _ v =>
    cases u with
    | mapping _ k' _ v' => exact congrArg₂ and (Ty.same_comm k k') (AnnTy.same_comm v v')
    | _ => rfl
  | array v n =>
    cases u with
    | array v' n' => exact congrArg₂ and (AnnTy.same_comm v v') (sameLength_comm n n')
    | _ => rfl
  | tuple ts =>
    cases u with
    | tuple us => exact AnnTy.sameAll_comm ts us
    | _ => rfl
  | named a ns r =>
    cases u with
    | named b ms r' =>
      refine congrArg₂ and Bool.beq_comm ?_
      cases r <;> cases r' <;> exact Bool.beq_comm
    | _ => rfl
  | integer s w =>
    cases u with
    | integer s' w' => exact congrArg₂ and Bool.beq_comm Bool.beq_comm
    | _ => rfl
  | function ps ms rs =>
    cases u with
    | function ps' ms' rs' => exact congrArg₂ and (congrArg₂ and Bool.beq_comm Bool.beq_comm) Bool.beq_comm
    | _ => rfl
  | _ => cases u <;> first | rfl | exact Bool.beq_comm
  termination_by structural t

theorem AnnTy.same_comm (t u : AnnTy) : t.same u = u.same t := by
  obtain ⟨t, p, h, _, _⟩ := t
  obtain ⟨u, q, g, _, _⟩ := u
  exact congrArg₂ and (congrArg₂ and (Ty.same_comm t u) Bool.beq_comm) (Expr.sameOwner_comm p q)
  termination_by structural t

theorem AnnTy.sameAll_comm (ts us : List AnnTy) : AnnTy.sameAll ts us = AnnTy.sameAll us ts := by
  cases ts with
  | nil => cases us <;> rfl
  | cons t ts =>
    cases us with
    | nil => rfl
    | cons u us => exact congrArg₂ and (AnnTy.same_comm t u) (AnnTy.sameAll_comm ts us)
  termination_by structural ts

end

/-! ## Types that are no tuples -/

section Converting

variable {k : Option Knowledge} {e : Expr} {s t : AnnTy} {u : Ty}

/-- What converts is used as it is, apart from words and tuples. -/
theorem Ty.isTuple_of_not_same {v : Ty} (converts : v.convertsTo u = true) (differ : v.same u = false)
    (reference : v.isPrimitive = false) : v.isTuple = true := by
  cases v with
  | tuple => rfl
  | elementary | bool | boolLit | number | numLit | integer | address => cases reference
  | named sort ns r =>
    cases sort with
    | enum | enumValue => cases reference
    | _ => exact absurd ((Ty.same_comm _ _).trans converts) (Bool.eq_false_iff.mp differ)
  | mapping | array | cipher | publicKey | randomness | function =>
    exact absurd ((Ty.same_comm _ _).trans converts) (Bool.eq_false_iff.mp differ)

mutual

/-- Types that convert have a common owner, or are found to have none. -/
theorem Ty.commonOwner_total (v : Ty) (whole other : AnnTy) (converts : v.convertsTo other.type = true) :
    ∃ o, v.commonOwner k whole other = .ok o := by
  cases v with
  | tuple ts =>
    obtain ⟨us, type⟩ := Ty.convertsTo_tuple converts
    rw [type] at converts
    obtain ⟨length, os, hos⟩ := AnnTy.commonOwners_total ts us converts
    refine ⟨.many os, ?_⟩
    unfold Ty.commonOwner
    rw [type]
    simp only [length, if_true, hos]
    rfl
  | _ =>
    unfold Ty.commonOwner
    exact ⟨_, rfl⟩
  termination_by structural v

theorem AnnTy.commonOwners_total (ts us : List AnnTy) (converts : AnnTy.convertsAll ts us = true) :
    ts.length = us.length ∧ ∃ os, AnnTy.commonOwners k ts us = .ok os := by
  cases ts with
  | nil =>
    cases us with
    | nil =>
      unfold AnnTy.commonOwners
      exact ⟨rfl, [], rfl⟩
    | cons => cases converts
  | cons t ts =>
    obtain ⟨v, p, h, a, d⟩ := t
    cases us with
    | nil => cases converts
    | cons u us =>
      obtain ⟨first, rest⟩ := (Bool.and_eq_true _ _).mp converts
      obtain ⟨o, ho⟩ := Ty.commonOwner_total v ⟨v, p, h, a, d⟩ u first
      obtain ⟨length, os, hos⟩ := AnnTy.commonOwners_total ts us rest
      refine ⟨congrArg Nat.succ length, o :: os, ?_⟩
      unfold AnnTy.commonOwners AnnTy.commonOwner
      rw [ho, hos]
      rfl
  termination_by structural ts

end

theorem AnnTy.commonOwner_total (converts : s.type.convertsTo t.type = true) : ∃ o, s.commonOwner k t = .ok o := by
  obtain ⟨v, p, h, a, d⟩ := s
  unfold commonOwner
  exact Ty.commonOwner_total v _ t converts

/-- Whether a value can be used at a type is always decided, unless a literal meets a type of negative width. -/
theorem Expr.fits_failed {error : Error} (single : ∀ i es, e ≠ .tuple i es) (h : e.fits k t = .error error) :
    e.checkedType.type.asksRange t.type = true := by
  by_contra ranged
  unfold fits at h
  dsimp only at h
  rw [Expr.convertsTo?, if_neg ranged] at h
  cases converts : e.convertsTo t.type with
  | false =>
    rw [converts] at h
    cases h
  | true =>
    obtain ⟨o, ho⟩ := AnnTy.commonOwner_total (k := k) (t := t) converts
    rw [converts, ho] at h
    cases o with
    | none | one => cases h
    | many os =>
      cases compound : e.checkedType.type.isTuple with
      | true =>
        obtain ⟨ss, type⟩ := Ty.isTuple_iff.mp compound
        rw [type] at h
        split at h
        · exact single _ _ rfl
        · cases h
        · rename_i other
          exact other _ rfl
      | false =>
        rw [AnnTy.commonOwner_simple k compound] at ho
        have plain := Except.ok.inj ho
        unfold AnnTy.commonOwnerPlain at plain
        split at plain
        · cases plain
        · split at plain
          · split at plain
            · cases plain
            · split at plain <;> cases plain
          · cases plain

theorem Expr.fits_asks (asks : e.checkedType.type.asksRange t.type = true) : e.fits k t = .error .noRange := by
  unfold fits
  rw [Expr.convertsTo?, if_pos asks]
  rfl

end Converting

/-! ## Steps that fail -/

mutual

/-- No part of the type belongs to the sender by being an element with the sender as key. -/
def Ty.NamesSender : Ty → Prop
  | .tuple ts => AnnTy.AllNameSender ts
  | _ => True

/-- If the type or a part of it belongs to the sender, the keyword says so. -/
def AnnTy.NamesSender : AnnTy → Prop
  | ⟨t, p, _, _, _⟩ => (p.label? = some .me → p.isMe = true) ∧ t.NamesSender

def AnnTy.AllNameSender : List AnnTy → Prop
  | [] => True
  | t :: ts => t.NamesSender ∧ AnnTy.AllNameSender ts

end

theorem AnnTy.allNameSender_iff {ts : List AnnTy} : AnnTy.AllNameSender ts ↔ ∀ t ∈ ts, t.NamesSender := by
  induction ts with
  | nil => exact ⟨fun _ => nofun, fun _ => trivial⟩
  | cons t ts ih => exact (and_congr_right fun _ => ih).trans List.forall_mem_cons.symm

theorem AnnTy.NamesSender.parts {t : AnnTy} {ts : List AnnTy} (h : t.NamesSender) (type : t.type = .tuple ts) :
    ∀ u ∈ ts, u.NamesSender := by
  obtain ⟨_, p, _, _, _⟩ := t
  cases type
  exact AnnTy.allNameSender_iff.mp h.2

section Failing

variable {W : Prop} {k : Option Knowledge} {e : Expr} {t expected : AnnTy} {u : Ty} {site : Site} {spot : Spot}
  {error : Error}

theorem checkPrivateType_failed (written : W → t.type.isPrintable = true) (h : checkPrivateType t = .error error) :
    error.IsRemark W := by
  unfold checkPrivateType at h
  split at h
  · cases h
    exact Site.complain_remark fun w => ⟨written w, nofun⟩
  · cases h

/-- What becomes of data that would have to be cast but are no word. -/
def Ty.uncast (t : Ty) : Error := if t.isPrintable then .defect (.convertsReference t) else .functionType

/-- Data that cannot be cast. -/
theorem Expr.castTo_failed (shown : site.text.isSome = true) (consistent : e.Consistent k)
    (h : (e.castTo u site).result = .error error) :
    e.checkedType.type.isPrimitive = false ∧ error = e.checkedType.type.uncast := by
  have plain (e : Expr) (h : (castTo.plainCast u site e).result = .error error) :
      e.checkedType.type.isPrimitive = false ∧ error = e.checkedType.type.uncast := by
    unfold castTo.plainCast at h
    dsimp only at h
    split at h
    · rename_i reference
      cases h
      exact ⟨(Bool.not_eq_true' _).mp reference, rfl⟩
    · unfold Site.checkCopy at h
      rw [Option.isNone_eq_false_iff.mpr shown] at h
      cases h
  induction e using Expr.inductOn with
  | reclassify i m e p hom ih =>
    unfold castTo at h
    dsimp only at h
    split at h
    · exact plain _ h
    · split at h
      · rename_i inner
        cases h
        obtain ⟨⟨t, ht, data⟩, below⟩ := consistent
        rw [checkedType_of_type (e := .reclassify i m e p hom) ht, data]
        exact ih below inner
      · cases h
  | leaf e hl =>
    cases e with
    | operator | boolLit | numLit | ident | me | all => exact plain _ h
    | _ => cases hl
  | _ => exact plain _ h

/-- What belongs to the sender is known to if this is said by the keyword or something is known of owners. -/
theorem AnnTy.isMine_of_label (names : k = none → t.NamesSender) (label : t.privacy.label? = some .me) :
    t.isMine k = true := by
  unfold isMine
  cases k with
  | none =>
    obtain ⟨_, p, _, _, _⟩ := t
    exact (Bool.or_eq_true _ _).mpr (.inl ((names rfl).1 label))
  | some κ =>
    rw [label]
    exact (Bool.or_eq_true _ _).mpr (.inr (κ.same_refl .me))

/-- A type is the sender's if a value of the same owner is. -/
theorem SameOwner.isMine (h : SameOwner k expected.privacy t.privacy) (names : k = none → expected.NamesSender)
    (mine : t.isMine k = true) : expected.isMine k = true := by
  obtain ⟨l, m, hl, hm, same⟩ := h
  rcases (Bool.or_eq_true _ _).mp (sameLabel_trans same (AnnTy.isMine_label mine hm)) with equal | known
  · exact AnnTy.isMine_of_label names (eq_of_beq equal ▸ hl)
  · unfold AnnTy.isMine
    rw [hl]
    cases k with
    | none => cases known
    | some κ => exact (Bool.or_eq_true _ _).mpr (.inr known)

/-- The homomorphism of the value is to be changed to that of a type of the same owner. -/
structure AnnTy.Rehoms (k : Option Knowledge) (t expected : AnnTy) : Prop where
  hidden : t.isPublic = false
  owner : SameOwner k expected.privacy t.privacy
  differs : t.hom ≠ expected.hom

theorem Expr.rehomTo_failed (names : k = none → expected.NamesSender) (rehoms : e.checkedType.Rehoms k expected)
    (written : W → e.checkedType.isPrintable = true) (mine : e.checkedType.isMine k = true)
    (h : e.rehomTo k expected = .error error) : error.IsRemark W := by
  obtain ⟨l, label⟩ := Option.isSome_iff_exists.mp rehoms.owner.symm.isSome
  unfold rehomTo at h
  rw [label, rehoms.owner.isMine names mine, mine] at h
  dsimp only at h
  split at h
  · rename_i foreign
    cases foreign
  · split at h
    · rename_i same
      exact absurd (eq_of_beq same) rehoms.differs
    · obtain failed | ⟨_, _, ⟨⟩⟩ := except_bind_failed h
      refine checkPrivateType_failed (fun w => ?_) failed
      exact (AnnTy.isPrintable_iff.mp (written w)).1

/-- Below a cast of a value that cannot be read, the homomorphism is to be changed as well. -/
theorem AnnTy.Rehoms.inCast {i : Info} {b : Bool} (rehoms : (Expr.cast i u e b).checkedType.Rehoms k expected)
    (foreign : (Expr.cast i u e b).checkedType.isMine k = false)
    (consistent : (Expr.cast i u e b).Consistent k) : e.checkedType.Rehoms k expected := by
  obtain ⟨⟨t, ht, data, owned⟩, -⟩ := consistent
  rw [Expr.checkedType_of_type (e := .cast i u e b) ht] at rehoms foreign
  obtain visible | me | ⟨sameOwner, sameHom⟩ := owned
  · exact absurd visible (Bool.eq_false_iff.mp rehoms.hidden)
  · unfold isMine at foreign
    rw [me] at foreign
    cases foreign
  · exact ⟨(congrArg Expr.isAll sameOwner).symm.trans rehoms.hidden, sameOwner ▸ rehoms.owner, sameHom ▸ rehoms.differs⟩

/-- A value of a choice whose homomorphism is to be changed. -/
theorem AnnTy.Rehoms.ofBranch {s : AnnTy} (rehoms : t.Rehoms k expected) (branch : s.IsBranch k true t) :
    s.Rehoms k expected := by
  obtain ⟨hom, visible, owner⟩ := branch.owner rfl
  exact ⟨visible.trans rehoms.hidden, rehoms.owner.trans owner.symm, hom ▸ rehoms.differs⟩

theorem Expr.changeHom_failed (names : k = none → expected.NamesSender) (consistent : e.Consistent k)
    (rehoms : e.checkedType.Rehoms k expected) (quotable : W → e.Quotable expected spot)
    (h : (e.changeHom k expected spot).result = .error error) : error.IsRemark W := by
  have visible : e.checkedType.isPublic ≠ true := Bool.eq_false_iff.mp rehoms.hidden
  have again {e : Expr} {spot : Spot} {error : Error} (rehoms : e.checkedType.Rehoms k expected) 
      (mine : e.checkedType.isMine k = true) (quotable : W → e.Quotable expected spot)
      (h : e.rehomTo k expected = .error error) : error.IsRemark W :=
    rehomTo_failed names rehoms (fun w => (quotable w).value.checkedType.1) mine h
  have mismatch {e : Expr} {spot : Spot} (quotable : W → e.Quotable expected spot) :
      ((spot e).atExpr e (.mismatch (.full expected) (.full e.checkedType))).IsRemark W :=
    Site.complain_remark fun w => ⟨(Bool.and_eq_true _ _).mpr ⟨(quotable w).type, (quotable w).value.checkedType.1⟩,
      (quotable w).around e (quotable w).value.self.form⟩
  induction e using Expr.inductOn generalizing spot error with
  | call i f as o key hf has =>
    unfold changeHom at h
    dsimp only at h
    rw [if_neg visible] at h
    split at h
    · exact again rehoms ‹_› quotable h
    · split at h
      · rename_i isChoice
        obtain ⟨j, p, g, r, rfl⟩ := isPublicChoice_call isChoice
        obtain ⟨c, a, b, t, rfl, ht, ha, hb, consistentA, consistentB⟩ := consistent_choice consistent
        have type : (Expr.call i (.operator j .ite p g r) [c, a, b] o key).checkedType = t := checkedType_of_type ht
        have isOpen : c.checkedType.isPublic = true := isChoice
        rw [type] at rehoms
        rw [isOpen] at ha hb
        have first := rehoms.ofBranch ha
        have second := rehoms.ofBranch hb
        dsimp only at h
        split at h
        · cases h
          exact has a (by simp) consistentA first (fun w => ((quotable w).inChoice (quotable w).value.self.form).1) ‹_›
            (Bool.eq_false_iff.mp first.hidden)
        · rename_i a' ha'
          split at h
          · cases h
            refine has b (by simp) consistentB second (fun w => ((quotable w).inChoice ?_).2) ‹_›
              (Bool.eq_false_iff.mp second.hidden)
            exact (changeHom_printable ((quotable w).value.argument a (by simp)).self.form).result a' ha'
          · cases h
      · cases h
        exact mismatch quotable
  | cast i u e b ih =>
    unfold changeHom at h
    dsimp only at h
    rw [if_neg visible] at h
    split at h
    · exact again rehoms ‹_› quotable h
    · rename_i foreign
      have inner := rehoms.inCast (Bool.eq_false_iff.mpr foreign) consistent
      split at h
      · cases h
        exact ih consistent.2 inner (fun w => (quotable w).inCast) ‹_› (Bool.eq_false_iff.mp inner.hidden)
      · cases h
  | reclassify i m e p hom =>
    unfold changeHom at h
    dsimp only at h
    rw [if_neg visible] at h
    split at h
    · exact again rehoms ‹_› quotable h
    · split at h
      · cases h
        exact mismatch quotable
      · cases h
  | new | arrayLit | tuple | member | index =>
    unfold changeHom at h
    rw [if_neg visible] at h
    split at h
    · exact again rehoms ‹_› quotable h
    · cases h
      exact mismatch quotable
  | leaf e hl =>
    cases e with
    | operator | boolLit | numLit | ident | me | all =>
      unfold changeHom at h
      rw [if_neg visible] at h
      split at h
      · exact again rehoms ‹_› quotable h
      · cases h
        exact mismatch quotable
    | _ => cases hl

theorem Conversion.changeHomBelow_failed {c : Conversion} {i : Info} {b : Bool} (names : k = none → expected.NamesSender)
    (cast : c.result = .ok (.cast i u e b)) (consistent : (Expr.cast i u e b).Consistent k)
    (rehoms : (Expr.cast i u e b).checkedType.Rehoms k expected)
    (quotable : W → (Expr.cast i u e b).Quotable expected spot)
    (h : (c.changeHomBelow k expected spot).result = .error error) : error.IsRemark W := by
  unfold changeHomBelow at h
  rw [cast] at h
  dsimp only at h
  rw [if_neg (Bool.eq_false_iff.mp rehoms.hidden)] at h
  split at h
  · exact Expr.rehomTo_failed names rehoms (fun w => (quotable w).value.checkedType.1) ‹_› h
  · rename_i foreign
    have inner := rehoms.inCast (Bool.eq_false_iff.mpr foreign) consistent
    have below : (e.changeHom k expected spot).result = .error error := by
      cases hx : (e.changeHom k expected spot).result with
      | error =>
        rw [hx] at h
        exact congrArg Except.error (Except.error.inj h)
      | ok =>
        rw [hx] at h
        cases h
    exact Expr.changeHom_failed names consistent.2 inner
      (fun w => ⟨(quotable w).value.inCast, (quotable w).type, (quotable w).around⟩) below

theorem Expr.reclassifyTo_failed {p : Expr} {hom : Hom} {l : Label} (label : p.label? = some l) (other : l ≠ .all)
    (written : W → e.checkedType.isPrintable = true) (h : e.reclassifyTo p hom = .error error) : error.IsRemark W := by
  unfold reclassifyTo at h
  rw [label] at h
  dsimp only at h
  split at h
  · rename_i all
    exact absurd (Option.some.inj (label.symm.trans (label?_of_isAll all))) other
  · obtain failed | ⟨_, _, ⟨⟩⟩ := except_bind_failed h
    refine checkPrivateType_failed (fun w => ?_) failed
    exact (AnnTy.isPrintable_iff.mp (written w)).1

end Failing

/-! ## Failures -/

/-- A conversion that can only fail: a literal is used at a type of negative width, a value that is no tuple literal is
a tuple whose data would have to be cast, or this is the case for a part of a tuple literal. -/
inductive Expr.Jams (k : Option Knowledge) : Expr → AnnTy → Prop
  | range {e : Expr} {t : AnnTy} : (∀ i es, e ≠ .tuple i es) → e.checkedType.type.asksRange t.type = true → e.Jams k t
  | data {e : Expr} {t : AnnTy} : (∀ i es, e ≠ .tuple i es) → e.checkedType.type.isTuple = true →
    e.fits k t = .ok .yes → e.checkedType.type.same t.type = false → e.Jams k t
  | part {i : Info} {es : List Expr} {t u : AnnTy} {ts : List AnnTy} {e : Expr} : t.type = .tuple ts →
    ts.length = es.length → (e, u) ∈ es.zip ts → e.Jams k u → (Expr.tuple i es).Jams k t

section Failures

variable {W : Prop} {k : Option Knowledge} {e x : Expr} {t : AnnTy} {spot : Spot} {error : Error}

/-- A tuple of several owners is used as it is. -/
theorem Expr.fits_whole {fit : Fit} (compound : e.checkedType.type.isTuple = true) (h : e.fits k t = .ok fit)
    (used : fit ≠ .no) : fit = .yes := by
  obtain ⟨ss, type⟩ := Ty.isTuple_iff.mp compound
  obtain ⟨-, ⟨p, howner, -⟩ | ⟨_, _, _, _, direct, -⟩⟩ := fits_ok h used
  · obtain ⟨_, _, _, many, _⟩ := AnnTy.commonOwner_tuple type howner
    cases many
  · exact direct

theorem Expr.coercePlain_failed (single : ∀ i es, e ≠ .tuple i es) (shown : (spot e).text.isSome = true)
    (names : k = none → t.NamesSender) (consistent : e.Consistent k) (quotable : W → e.Quotable t spot)
    (h : (e.coercePlain k spot t).result = .error error) : error.IsRemark W ∨ e.Jams k t := by
  have outcome := coercePlain_outcome k spot e t
  generalize (e.coercePlain k spot t).result = r at outcome h
  -- the homomorphism of a value is changed only if it is private and no tuple
  have rehoms {y : Expr} (fits : e.FitsEither k t .yes true) (hy : (e.castStep spot t).result = .ok y) :
      y.Consistent k ∧ y.checkedType.Rehoms k t := by
    obtain ⟨consistentY, -, owner, hom, -⟩ := castStep_ok consistent (fits.convertsTo (by decide)) hy
    have simple : e.checkedType.type.isTuple = false := Bool.eq_false_iff.mpr fun compound => by
      cases (fits.direct (by decide) compound).1
    obtain ⟨hidden, differs⟩ := fits.differs (by decide)
    obtain ⟨-, ⟨-, sameOwner⟩ | ⟨⟨⟩, -⟩⟩ := fits.simple (by decide) simple
    exact ⟨consistentY, (congrArg Expr.isAll owner).trans hidden, owner ▸ sameOwner, hom ▸ differs⟩
  cases outcome with
  | undecided untold =>
    right
    rcases untold with untold | untold | untold
    · exact .range single (fits_failed single untold)
    · unfold Site.checkCopy at untold
      rw [Option.isNone_eq_false_iff.mpr shown] at untold
      cases untold
    · exact .range single (fits_failed (t := t.withHom e.checkedType.hom) single untold)
  | mismatch =>
    cases h
    refine .inl (Site.complain_remark fun w => ⟨?_, (quotable w).around e (quotable w).value.self.form⟩)
    exact (Bool.and_eq_true _ _).mpr ⟨(quotable w).type, (quotable w).value.checkedType.1⟩
  | uncast used fits cast =>
    right
    have differ : e.checkedType.type.same t.type = false := Bool.eq_false_iff.mpr fun same => by
      rw [castStep_same same] at cast
      cases cast
    rw [castStep_differ differ] at cast
    have compound := Ty.isTuple_of_not_same (fits.convertsTo used) differ (castTo_failed shown consistent cast).1
    have fits := (fits.direct used compound).2
    cases fits_whole compound fits used
    exact .data single compound fits differ
  | encrypted fits cast =>
    left
    cases compound : e.checkedType.type.isTuple with
    | true => cases fits_whole compound (fits.direct (by decide) compound).2 (by decide)
    | false =>
      obtain ⟨-, ⟨⟨⟩, -⟩ | ⟨-, -, l, label, other⟩⟩ := fits.simple (by decide) compound
      exact reclassifyTo_failed label other (fun w => ((quotable w).castStep cast).value.checkedType.1) h
  | kept => cases h
  | rehomed fits cast =>
    obtain ⟨consistentY, rehoms⟩ := rehoms fits cast
    exact .inl (changeHom_failed names consistentY rehoms (fun w => (quotable w).castStep cast) h)
  | rehomedBelow fits cast differ around =>
    obtain ⟨consistentY, rehoms⟩ := rehoms fits cast
    have quotableY (w : W) := (quotable w).castStep cast
    rw [castStep_differ differ] at cast
    obtain ⟨i, rfl⟩ := (isCast_of_castTo cast).cast around
    exact .inl (Conversion.changeHomBelow_failed names cast consistentY rehoms quotableY h)

end Failures

/-! ## Calls -/

/-- Whatever the expression calls by name is a function or a type. -/
def Expr.CallsFunctions (symbols : Symbols) (e : Expr) : Prop := ∀ n ∈ e.nodes, n.CallsFunction symbols

section Calling

variable {symbols : Symbols}

theorem Node.isStable_callsFunction (symbols : Symbols) : IsStable (CallsFunction symbols) where
  exchanged _ _ := trivial
  inserted _ := trivial
  rebuilt n h := by
    cases n with
    | expr e =>
      cases e with
      | call i f as o key =>
        cases f with
        | operator => nofun
        | _ => cases h
      | _ => trivial
    | _ => trivial

theorem Expr.callsFunctions_tuple {i : Info} {es : List Expr} :
    (Expr.tuple i es).CallsFunctions symbols ↔ ∀ e ∈ es, e.CallsFunctions symbols :=
  forall_tuple.trans (and_iff_right trivial)

end Calling

/-! ## Failed conversions -/

section Failed

variable {W : Prop} {k : Option Knowledge} {s : Symbols} {e x : Expr} {t : AnnTy} {spot : Spot} {nested : Bool}

/-- Inside of a program, an expression whose calls are those of functions can be put back. -/
theorem Expr.CallsFunctions.relinked {site : Site} (calls : e.CallsFunctions s) (nested : Bool)
    (shown : site.text.isSome = true) :
    ∃ effects, ((if nested then site.checkNames e else .ok ()) *> e.hasEffects s) = .ok effects := by
  obtain ⟨effects, told⟩ := Symbols.haveEffects_told calls
  have named : (if nested then site.checkNames e else .ok ()) = .ok () := by
    cases nested with
    | false => rfl
    | true => exact if_pos shown
  exact ⟨effects, by rw [named]; exact told⟩

mutual

theorem Expr.coerce_failed (s : Symbols) (nested : Bool) : ∀ (spot : Spot) (e : Expr) (t : AnnTy) (error : Error),
    (∀ x, (spot x).text.isSome = true) → (k = none → t.NamesSender) → e.CallsFunctions s → e.Consistent k →
      (W → e.Quotable t spot) → (e.coerce s k spot nested t).result = .error error → error.IsRemark W ∨ e.Jams k t
  | spot, .tuple i es, t, error, shown, names, calls, consistent, quotable, h => by
    unfold Expr.coerce at h
    extract_lets whole mismatch at h
    have remark (h : mismatch.result = .error error) : error.IsRemark W ∨ (Expr.tuple i es).Jams k t := by
      cases h
      refine .inl (Site.complain_remark fun w => ⟨?_, (quotable w).around _ (quotable w).value.self.form⟩)
      refine (Bool.and_eq_true _ _).mpr ⟨(quotable w).type, ?_⟩
      unfold Mention.ofType? whole
      cases found : (Expr.tuple i es).type? with
      | none => rfl
      | some t => exact ((quotable w).value.self.type t found).1
    split at h
    · rename_i ts hts
      split at h
      · rename_i length
        split at h
        rename_i operands results hes
        dsimp only at h
        split at h
        · cases h
          have types (w : W) : ∀ t ∈ ts, t.isPrintable = true := by
            have type := (AnnTy.isPrintable_iff.mp (quotable w).type).1
            rw [hts] at type
            exact AnnTy.arePrintable_iff.mp type
          obtain failed | ⟨p, hp, jams⟩ := Expr.coerceAll_failed s _ [] es ts _ (fun xs => shown _)
            (fun unknown => (names unknown).parts hts) (callsFunctions_tuple.mp calls) consistent.2
            (fun w xs hxs => (quotable w).around _ (isPrintable_tuple.mpr hxs)) (fun _ => nofun)
            (fun w => (quotable w).value.part) types (congrArg Prod.snd hes)
          · exact .inl failed
          · exact .inr (.part hts length hp jams)
        · rename_i xs
          have adapted := (Expr.allConverted_of_coerceAll (congrArg Prod.snd hes)).adapted length consistent.2
          have parts := adapted.nodes (Node.isStable_callsFunction s) (callsFunctions_tuple.mp calls)
          split at h
          · rename_i unlinked
            obtain ⟨_, told⟩ := (callsFunctions_tuple.mpr parts).relinked nested (shown whole)
            cases told.symm.trans unlinked
          · cases h
      · exact remark h
    · exact remark h
  | _, .operator .., _, _, shown, names, _, he, quotable, h | _, .call .., _, _, shown, names, _, he, quotable, h
  | _, .new .., _, _, shown, names, _, he, quotable, h | _, .cast .., _, _, shown, names, _, he, quotable, h
  | _, .boolLit .., _, _, shown, names, _, he, quotable, h | _, .numLit .., _, _, shown, names, _, he, quotable, h
  | _, .arrayLit .., _, _, shown, names, _, he, quotable, h | _, .ident .., _, _, shown, names, _, he, quotable, h
  | _, .member .., _, _, shown, names, _, he, quotable, h | _, .index .., _, _, shown, names, _, he, quotable, h
  | _, .me _, _, _, shown, names, _, he, quotable, h | _, .all _, _, _, shown, names, _, he, quotable, h
  | _, .reclassify .., _, _, shown, names, _, he, quotable, h =>
    Expr.coercePlain_failed (fun _ _ same => by cases same) (shown _) names he quotable h

theorem Expr.coerceAll_failed (s : Symbols) : ∀ (spot : List Expr → Site) (ds es : List Expr) (ts : List AnnTy)
    (error : Error), (∀ xs, (spot xs).text.isSome = true) → (k = none → ∀ t ∈ ts, t.NamesSender) →
      (∀ e ∈ es, e.CallsFunctions s) → Expr.AllConsistent k es →
      (W → ∀ xs : List Expr, (∀ x ∈ xs, x.isPrintable = true) → (spot xs).Written) →
      (W → ∀ d ∈ ds, d.isPrintable = true) → (W → ∀ e ∈ es, e.Written) → (W → ∀ t ∈ ts, t.isPrintable = true) →
      (Expr.coerceAll s k spot ds es ts).2 = .error error →
        error.IsRemark W ∨ ∃ p ∈ es.zip ts, p.1.Jams k p.2
  | _, _, [], _, _, _, _, _, _, _, _, _, _, h => by cases h
  | _, _, _ :: _, [], _, _, _, _, _, _, _, _, _, h => by cases h
  | spot, ds, e :: es, t :: ts, error, shown, names, calls, consistent, around, done, written, types, h => by
    obtain ⟨callsE, calls⟩ := List.forall_mem_cons.mp calls
    have namesT (unknown : k = none) := List.forall_mem_cons.mp (names unknown)
    have writtenE (w : W) := List.forall_mem_cons.mp (written w)
    have typesT (w : W) := List.forall_mem_cons.mp (types w)
    unfold Expr.coerceAll at h
    extract_lets c at h
    split at h
    · cases h
      have quotable (w : W) : e.Quotable t fun x => spot (ds ++ x :: es) := by
        refine ⟨(writtenE w).1, (typesT w).1, fun x hx => around w _ (List.forall_mem_append.mpr ⟨done w, ?_⟩)⟩
        exact List.forall_mem_cons.mpr ⟨hx, fun d hd => ((writtenE w).2 d hd).self.form⟩
      obtain failed | jams := Expr.coerce_failed s true _ e t _ (fun x => shown _) (fun unknown => (namesT unknown).1) callsE
        consistent.1 quotable ‹_›
      · exact .inl failed
      · exact .inr ⟨(e, t), List.mem_cons_self, jams⟩
    · have rest : (Expr.coerceAll s k spot (ds ++ [c.operand]) es ts).2 = .error error := by
        cases hr : (Expr.coerceAll s k spot (ds ++ [c.operand]) es ts).2 with
        | error =>
          dsimp only at h
          rw [hr] at h
          exact congrArg Except.error (Except.error.inj h)
        | ok =>
          dsimp only at h
          rw [hr] at h
          cases h
      have converted (w : W) : ∀ d ∈ ds ++ [c.operand], d.isPrintable = true := by
        refine List.forall_mem_append.mpr ⟨done w, List.forall_mem_singleton.mpr ?_⟩
        exact (Expr.coerce_printable s k true _ e t (writtenE w).1.self.form).operand
      obtain failed | ⟨p, hp, jams⟩ := Expr.coerceAll_failed s spot _ es ts error shown (fun unknown => (namesT unknown).2)
        calls consistent.2 around converted (fun w => (writtenE w).2) (fun w => (typesT w).2) rest
      · exact .inl failed
      · exact .inr ⟨p, List.mem_cons_of_mem _ hp, jams⟩

end

/-- A value that is no tuple literal is converted as a whole. -/
theorem Expr.coerce_single (single : ∀ i es, e ≠ .tuple i es) : e.coerce s k spot nested t = e.coercePlain k spot t := by
  cases e with
  | tuple i es => exact absurd rfl (single i es)
  | _ => rfl

/-- If all operands are converted, each of them is. -/
theorem Expr.coerceAll_each {spot : List Expr → Site} {ds es xs : List Expr} {ts : List AnnTy}
    (h : (Expr.coerceAll s k spot ds es ts).2 = .ok xs) {p : Expr × AnnTy} (hp : p ∈ es.zip ts) :
    ∃ spot' y, (p.1.coerce s k spot' true p.2).result = .ok y := by
  induction es generalizing ds ts xs with
  | nil => cases hp
  | cons e es ih =>
    cases ts with
    | nil => cases hp
    | cons t ts =>
      unfold Expr.coerceAll at h
      extract_lets c at h
      split at h
      · cases h
      · rename_i x hx
        obtain ⟨ys, hys, -⟩ := except_map_ok h
        rcases List.mem_cons.mp hp with rfl | hp
        · exact ⟨_, x, hx⟩
        · exact ih hys hp

/-- A tuple is never cast. -/
theorem Expr.castStep_compound (consistent : e.Consistent k) (compound : e.checkedType.type.isTuple = true)
    (differ : e.checkedType.type.same t.type = false) : (e.castStep spot t).result ≠ .ok x := fun cast => by
  rw [castStep_differ differ] at cast
  obtain ⟨ss, type⟩ := Ty.isTuple_iff.mp compound
  have primitive := (castTo_ok consistent cast).1
  rw [type] at primitive
  cases primitive

/-- Whether a literal fits a type of negative width is not decided. -/
theorem Expr.not_fitsEither {fit : Fit} {rehom : Bool} (asks : e.checkedType.type.asksRange t.type = true) :
    ¬e.FitsEither k t fit rehom := by
  rintro (⟨-, fits⟩ | ⟨-, fits, -⟩)
  · cases (fits_asks asks).symm.trans fits
  · cases (fits_asks asks).symm.trans fits

/-- Where a conversion jams, it never succeeds. -/
theorem Expr.Jams.coerce (jams : e.Jams k t) (consistent : e.Consistent k) (spot : Spot) (nested : Bool) (x : Expr) :
    (e.coerce s k spot nested t).result ≠ .ok x := by
  intro h
  induction jams generalizing spot nested x with
  | range single asks =>
    rw [coerce_single single] at h
    obtain ⟨fit, rehom, y, -, fits, -⟩ := coercePlain_steps h
    exact not_fitsEither asks fits
  | data single compound fits differ =>
    rw [coerce_single single] at h
    obtain ⟨fit, rehom, y, -, -, cast, -⟩ := coercePlain_steps h
    exact castStep_compound consistent compound differ cast
  | part type length hp jams ih =>
    unfold Expr.coerce at h
    extract_lets whole mismatch at h
    rw [type] at h
    simp only [if_pos length] at h
    split at h
    · cases h
    · rename_i hes
      obtain ⟨spot', y, hy⟩ := coerceAll_each hes hp
      exact ih (allConsistent_iff.mp consistent.2 _ (List.of_mem_zip hp).1) spot' true y hy

/-- Nobody complains about a value that jams. -/
theorem Expr.Jams.coercePlain (single : ∀ i es, e ≠ .tuple i es) (jams : e.Jams k t) (shown : (spot e).text.isSome = true)
    (consistent : e.Consistent k) : ∃ error, (e.coercePlain k spot t).result = .error error ∧ ¬error.IsComplaint := by
  have outcome := coercePlain_outcome k spot e t
  generalize (e.coercePlain k spot t).result = r at outcome
  have copied {error : Error} : (spot e).checkCopy t.type ≠ .error error := fun h => by
    unfold Site.checkCopy at h
    rw [Option.isNone_eq_false_iff.mpr shown] at h
    cases h
  cases jams with
  | part => exact absurd rfl (single _ _)
  | range _ asks =>
    have asks' : e.checkedType.type.asksRange (t.withHom e.checkedType.hom).type = true := asks
    cases outcome with
    | undecided untold =>
      refine ⟨_, rfl, fun complaint => ?_⟩
      obtain rfl : _ = Error.noRange := by
        rcases untold with untold | untold | untold
        · exact Except.error.inj (untold.symm.trans (fits_asks asks))
        · exact absurd untold copied
        · exact Except.error.inj (untold.symm.trans (fits_asks asks'))
      obtain ⟨_, _, ⟨⟩⟩ := complaint
    | mismatch fits | uncast _ fits | encrypted fits | kept fits | rehomed fits | rehomedBelow fits =>
      exact absurd fits (not_fitsEither asks)
  | data _ compound fits differ =>
    cases outcome with
    | undecided untold =>
      rcases untold with untold | untold | untold
      · cases fits.symm.trans untold
      · exact absurd untold copied
      · cases fits.symm.trans ((fits_tuple compound _).symm.trans untold)
    | mismatch unfit =>
      rcases unfit with ⟨-, unfit⟩ | ⟨-, unfit, -⟩
      · cases fits.symm.trans unfit
      · cases fits.symm.trans unfit
    | uncast _ _ cast =>
      rw [castStep_differ differ] at cast
      obtain ⟨-, rfl⟩ := castTo_failed shown consistent cast
      refine ⟨_, rfl, ?_⟩
      unfold Ty.uncast
      split <;> rintro ⟨_, _, ⟨⟩⟩
    | encrypted _ cast | kept _ cast | rehomed _ cast | rehomedBelow _ cast =>
      exact absurd cast (castStep_compound consistent compound differ)

end Failed

section Complaints

variable {k : Option Knowledge} {s : Symbols} {e : Expr} {t : AnnTy} {spot : Spot} {nested : Bool}

/-- Inside of a program, a conversion that fails does so with a complaint, unless the complaint would show something
without a written form or the conversion jams. Where it jams it never succeeds, and a single value that jams fails without
a complaint. -/
theorem Expr.coerce_complains_iff (shown : ∀ x, (spot x).text.isSome = true) (names : k = none → t.NamesSender)
    (calls : e.CallsFunctions s) (consistent : e.Consistent k) :
    (∀ error, (e.coerce s k spot nested t).result = .error error →
      error.IsComplaint ∨ error = .functionType ∧ ¬e.Quotable t spot ∨ e.Jams k t) ∧
    (e.Jams k t → ∀ x, (e.coerce s k spot nested t).result ≠ .ok x) ∧
    ((∀ i es, e ≠ .tuple i es) → e.Quotable t spot →
      ((∀ error, (e.coerce s k spot nested t).result = .error error → error.IsComplaint) ↔ ¬e.Jams k t)) := by
  have failed (error : Error) (h : (e.coerce s k spot nested t).result = .error error) :
      error.IsRemark (e.Quotable t spot) ∨ e.Jams k t :=
    coerce_failed s nested spot e t error shown names calls consistent (fun written => written) h
  refine ⟨fun error h => ?_, fun jams => jams.coerce consistent spot nested, fun single quotable =>
    ⟨fun complains jams => ?_, fun smooth error h => ?_⟩⟩
  · obtain (complaint | unworded) | jams := failed error h
    · exact .inl complaint
    · exact .inr (.inl unworded)
    · exact .inr (.inr jams)
  · obtain ⟨error, jammed, silent⟩ := jams.coercePlain single (shown e) consistent
    have whole : e.coerce s k spot nested t = e.coercePlain k spot t := coerce_single single
    rw [← whole] at jammed
    exact silent (complains error jammed)
  · obtain (complaint | ⟨-, unquotable⟩) | jams := failed error h
    · exact complaint
    · exact absurd quotable unquotable
    · exact absurd jams smooth

end Complaints

/-- The results of a function, two numbers of 8 bits, are assigned to variables of 16 bits. -/
def pairing : SourceUnit :=
  let word (bits : Nat) : AnnTy := .plain (.integer false (.ofBits bits))
  let returns : List Stmt := [.ret default (some (.tuple (.numbered 104) [.literalAt 105 1, .literalAt 106 2]))]
  .sketch 100 "Pair" []
    [{ FunctionDef.sketch 101 "pair" "internal" [] returns with
        returns := [.sketch 102 (word 8) "", .sketch 103 (word 8) ""] },
      .sketch 107 "run" "public" []
        [.declare default ⟨108, [], word 16, "x", none⟩ none, .declare default ⟨109, [], word 16, "y", none⟩ none,
          .assign default (.tuple (.numbered 110) [.nameAt 111 "x", .nameAt 112 "y"])
            (.callAt 113 (.nameAt 114 "pair") []) "" false]]

/-- What is assigned in this program. -/
def paired : Expr :=
  let word : AnnTy := .plain (.integer false (.ofBits 8))
  (Expr.callAt 113 (.ident (.numbered 114) (.plain "pair") (some (.decl .function 101))) []).withType
    (.plain (.tuple [word, word]))

theorem paired_jams : ∃ u n, pairing.link 120 = .ok (u, n) ∧ paired.CallsFunctions u.symbols ∧
    ∀ x, (paired.coerce u.symbols (some asBob) (fun _ => ⟨some [], none, none, none⟩) false
      (.plain (.tuple [.plain (.integer false (.ofBits 16)), .plain (.integer false (.ofBits 16))]))).result ≠ .ok x := by
  obtain ⟨⟨u, n⟩, link, called⟩ := exists_ok_of_any (x := pairing.link 120)
    (p := fun r => (r.1.symbols.callee? (.ident (.numbered 114) (.plain "pair") (some (.decl .function 101)))).isSome)
    (by decide +kernel)
  have calls : paired.CallsFunctions u.symbols :=
    List.forall_mem_cons.mpr ⟨fun _ _ => Option.isSome_iff_exists.mp called,
      List.forall_mem_cons.mpr ⟨trivial, List.forall_mem_singleton.mpr trivial⟩⟩
  obtain ⟨fit, fits, direct⟩ := exists_ok_of_any (p := (· == .yes)) (x := paired.fits (some asBob)
    (.plain (.tuple [.plain (.integer false (.ofBits 16)), .plain (.integer false (.ofBits 16))]))) (by decide +kernel)
  cases eq_of_beq direct
  refine ⟨u, n, link, calls, (Expr.coerce_complains_iff (k := some asBob) (fun _ => rfl) (fun h => by cases h) calls trivial).2.1 ?_⟩
  exact .data (fun _ _ h => by cases h) rfl fits rfl

/-- The program is linked and analysed, and yet it is refused without a complaint. -/
theorem pairing_jams : ∃ p done error, (Progress.start pairing 120).runAll default Pass.all = (p, done, some .types) ∧
    p.failure = some error ∧ ¬error.IsComplaint := by
  have tested : (let r := (Progress.start pairing 120).runAll default Pass.all
      r.2.2 == some .types && r.1.failure.any (· matches .defect (.convertsReference _))) = true := by
    decide +kernel
  generalize (Progress.start pairing 120).runAll default Pass.all = r at tested
  obtain ⟨p, done, failed⟩ := r
  obtain ⟨types, defect⟩ := (Bool.and_eq_true _ _).mp tested
  obtain ⟨error, failure, kind⟩ := (Option.any_eq_true ..).mp defect
  refine ⟨p, done, error, ?_, failure, fun complaint => ?_⟩
  · exact congrArg (fun failed => (p, done, failed)) (eq_of_beq types)
  · obtain ⟨_, _, rfl⟩ := complaint
    cases kind

end Shroud
