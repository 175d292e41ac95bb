import Shroud.Proofs.Complaints
import Shroud.Proofs.Consistency

/-!
# Equality of types

Equality of types is written out by hand, and it is an equivalence on part of the types only.

**Names.** Names of types and of owners are compared as they are written unless both are resolved. So a name that is
not resolved may equal two names of different declarations, and equality is transitive on types whose names are the full
names of their declarations and whose owners are known (`Ty.IsResolved`, `Ty.same_trans`).

**Lengths.** An array of symbolic length equals nothing, not even itself (`Ty.same_self_iff`).
-/

namespace Shroud

/-! ## Owners -/

/-- What the name of an owner stands for. -/
inductive OwnerKey where
  | me
  | all
  | variable (id : Nat)
  | key (id : Nat) (everybody : Bool)
  | label (mapping : Nat)

def Ref.ownerKey? : Ref → Option OwnerKey
  | .decl _ a => some (.variable a)
  | .element _ _ _ => none
  | .keyLabel m none => some (.label m)
  | .keyLabel _ (some (.var _ a _, _)) => some (.variable a)
  | .keyLabel _ (some (.me, a)) => some (.key a false)
  | .keyLabel _ (some (.all, a)) => some (.key a true)

/-- The owner that a keyword or a resolved name stands for. -/
def Expr.ownerKey? : Expr → Option OwnerKey
  | .me _ => some .me
  | .all _ => some .all
  | .ident _ _ (some r) => r.ownerKey?
  | _ => none

theorem Ref.sameOwner_iff {r s : Ref} : r.sameOwner s = true ↔ ∃ k, r.ownerKey? = some k ∧ s.ownerKey? = some k := by
  constructor
  · intro h
    rcases r with ⟨_, _⟩ | ⟨_, _, _⟩ | ⟨_, _ | ⟨_ | _ | _, _⟩⟩ <;>
      rcases s with ⟨_, _⟩ | ⟨_, _, _⟩ | ⟨_, _ | ⟨_ | _ | _, _⟩⟩
    all_goals
      first
        | cases h
        | obtain rfl := eq_of_beq h
          exact ⟨_, rfl, rfl⟩
  · rintro ⟨k, hr, hs⟩
    rcases r with ⟨_, _⟩ | ⟨_, _, _⟩ | ⟨_, _ | ⟨_ | _ | _, _⟩⟩ <;>
      rcases s with ⟨_, _⟩ | ⟨_, _, _⟩ | ⟨_, _ | ⟨_ | _ | _, _⟩⟩
    all_goals cases hr <;> cases hs <;> exact beq_self_eq_true _

theorem Expr.ownerKey?_ident (i : Info) (n : Ident) (t : Option Ref) :
    (Expr.ident i n t).ownerKey? ≠ some .me ∧ (Expr.ident i n t).ownerKey? ≠ some .all := by
  rcases t with _ | ⟨_, _⟩ | ⟨_, _, _⟩ | ⟨_, _ | ⟨_ | _ | _, _⟩⟩ <;> exact ⟨nofun, nofun⟩

/-- The owner is a keyword or a resolved name. If its node has a number, `ν` tells whom it names. -/
def Expr.IsKnownOwner (ν : Nat → OwnerKey) (p : Expr) : Prop := ∃ k, p.ownerKey? = some k ∧ (p.id ≠ 0 → ν p.id = k)

theorem Expr.sameOwner_iff {ν : Nat → OwnerKey} {p q : Expr} (hp : p.IsKnownOwner ν) (hq : q.IsKnownOwner ν) :
    p.sameOwner q = true ↔ p.ownerKey? = q.ownerKey? := by
  obtain ⟨k, hk, pk⟩ := hp
  obtain ⟨l, hl, ql⟩ := hq
  have byId : (p.id != 0 && p.id == q.id) = true → k = l := by
    intro same
    simp only [bne_iff_ne, Bool.and_eq_true, beq_iff_eq] at same
    rw [← pk same.1, ← ql (same.2 ▸ same.1), same.2]
  rw [hk, hl, Option.some.injEq]
  cases p with
  | me | all =>
    cases hk
    cases q with
    | me | all =>
      cases hl
      first
        | exact iff_of_true rfl rfl
        | exact ⟨byId, nofun⟩
    | ident j m u => exact ⟨byId, fun same => absurd (same ▸ hl) (by simp [ownerKey?_ident])⟩
    | _ => cases hl
  | ident i n t =>
    cases q with
    | ident j m u =>
      cases t with
      | none => cases hk
      | some r =>
        cases u with
        | none => cases hl
        | some s =>
          refine Ref.sameOwner_iff.trans ⟨?_, ?_⟩
          · rintro ⟨o, ho, ho'⟩
            exact (Option.some.inj (hk.symm.trans ho)).trans (Option.some.inj (hl.symm.trans ho')).symm
          · rintro rfl
            exact ⟨k, hk, hl⟩
    | me | all =>
      cases hl
      exact ⟨byId, fun same => absurd (same ▸ hk) (by simp [ownerKey?_ident])⟩
    | _ => cases hl
  | _ => cases hk

/-! ## Equality -/

section Equality

variable {ν : Nat → OwnerKey}

mutual

/-- Types are named by the full names of their declarations, if these are known, and the owners are known. -/
def Ty.IsResolved (ν : Nat → OwnerKey) : Ty → Prop
  | .named _ ns t => ∀ x, t = some x → x.qualified = ns
  | .mapping _ k _ v => k.IsResolved ν ∧ v.IsResolved ν
  | .array v _ => v.IsResolved ν
  | .tuple ts => AnnTy.AreResolved ν ts
  | _ => True

def AnnTy.IsResolved (ν : Nat → OwnerKey) : AnnTy → Prop
  | ⟨t, p, _, _, _⟩ => t.IsResolved ν ∧ p.IsKnownOwner ν

def AnnTy.AreResolved (ν : Nat → OwnerKey) : List AnnTy → Prop
  | [] => True
  | t :: ts => t.IsResolved ν ∧ AnnTy.AreResolved ν ts

end

mutual

/-- The owners equal themselves, as those do that have a name or a number. -/
def Ty.IsOwned : Ty → Prop
  | .mapping _ k _ v => k.IsOwned ∧ v.IsOwned
  | .array v _ => v.IsOwned
  | .tuple ts => AnnTy.AreOwned ts
  | _ => True

def AnnTy.IsOwned : AnnTy → Prop
  | ⟨t, p, _, _, _⟩ => t.IsOwned ∧ p.sameOwner p = true

def AnnTy.AreOwned : List AnnTy → Prop
  | [] => True
  | t :: ts => t.IsOwned ∧ AnnTy.AreOwned ts

end

mutual

/-- No array has a symbolic length. -/
def Ty.isDefinite : Ty → Bool
  | .mapping _ k _ v => k.isDefinite && v.isDefinite
  | .array v n => v.isDefinite && sameLength n n
  | .tuple ts => AnnTy.areDefinite ts
  | _ => true

def AnnTy.isDefinite : AnnTy → Bool
  | ⟨t, _, _, _, _⟩ => t.isDefinite

def AnnTy.areDefinite : List AnnTy → Bool
  | [] => true
  | t :: ts => t.isDefinite && AnnTy.areDefinite ts

end

theorem sameLength_iff {a b : Option Expr} : sameLength a b = true ↔
    a = none ∧ b = none ∨ ∃ i j x y n, a = some (.numLit i n x) ∧ b = some (.numLit j n y) := by
  constructor
  · intro h
    unfold sameLength at h
    split at h
    · obtain rfl := eq_of_beq h
      exact .inr ⟨_, _, _, _, _, rfl, rfl⟩
    · exact .inl ⟨rfl, rfl⟩
    · cases h
  · rintro (⟨rfl, rfl⟩ | ⟨i, j, x, y, n, rfl, rfl⟩)
    · rfl
    · exact beq_self_eq_true n

theorem sameLength_trans {a b c : Option Expr} (h : sameLength a b = true) (h' : sameLength b c = true) :
    sameLength a c = true := by
  rw [sameLength_iff] at *
  rcases h with ⟨rfl, rfl⟩ | ⟨i, j, x, y, n, rfl, rfl⟩
  · simpa using h'
  · rcases h' with ⟨absent, -⟩ | ⟨_, k, _, z, m, same, rfl⟩
    · cases absent
    · cases same
      exact .inr ⟨i, k, x, z, n, rfl, rfl⟩

/-- A length that equals another one equals itself. -/
theorem sameLength_self {a b : Option Expr} (h : sameLength a b = true) : sameLength b b = true := by
  obtain ⟨rfl, rfl⟩ | ⟨i, j, x, y, n, rfl, rfl⟩ := sameLength_iff.mp h
  · rfl
  · exact beq_self_eq_true n

theorem Ty.same_named {a b : NamedSort} {ns ms : List String} {t u : Option NamedTarget}
    (ht : (Ty.named a ns t).IsResolved ν) (hu : (Ty.named b ms u).IsResolved ν) :
    (Ty.named a ns t).same (.named b ms u) = true ↔ a = b ∧ ns = ms := by
  refine (Bool.and_eq_true _ _).to_iff.trans (and_congr beq_iff_eq ?_)
  cases t with
  | none => exact beq_iff_eq
  | some x =>
    cases u with
    | none => exact beq_iff_eq
    | some y =>
      obtain rfl := ht x rfl
      obtain rfl := hu y rfl
      exact beq_iff_eq

mutual

/-- Equality of resolved types is transitive. -/
theorem Ty.same_trans (t m u : Ty) (ht : t.IsResolved ν) (hm : m.IsResolved ν) (hu : u.IsResolved ν)
    (h : t.same m = true) (h' : m.same u = true) : t.same u = true := by
  cases t with
  | mapping _ k _ v =>
    cases m with
    | mapping _ k' _ v' =>
      cases u with
      | mapping _ k'' _ v'' =>
        obtain ⟨key, value⟩ := Bool.and_eq_true_iff.mp h
        obtain ⟨key', value'⟩ := Bool.and_eq_true_iff.mp h'
        exact Bool.and_eq_true_iff.mpr ⟨Ty.same_trans k k' k'' ht.1 hm.1 hu.1 key key',
          AnnTy.same_trans v v' v'' ht.2 hm.2 hu.2 value value'⟩
      | _ => cases h'
    | _ => cases h
  | array v n =>
    cases m with
    | array v' n' =>
      cases u with
      | array v'' n'' =>
        obtain ⟨value, length⟩ := Bool.and_eq_true_iff.mp h
        obtain ⟨value', length'⟩ := Bool.and_eq_true_iff.mp h'
        exact Bool.and_eq_true_iff.mpr
          ⟨AnnTy.same_trans v v' v'' ht hm hu value value', sameLength_trans length length'⟩
      | _ => cases h'
    | _ => cases h
  | tuple ts =>
    cases m with
    | tuple ms =>
      cases u with
      | tuple us => exact AnnTy.sameAll_trans ts ms us ht hm hu h h'
      | _ => cases h'
    | _ => cases h
  | named a ns r =>
    cases m with
    | named b ms r' =>
      cases u with
      | named c ls r'' =>
        obtain ⟨rfl, rfl⟩ := (Ty.same_named ht hm).mp h
        obtain ⟨rfl, rfl⟩ := (Ty.same_named hm hu).mp h'
        exact (Ty.same_named ht hu).mpr ⟨rfl, rfl⟩
      | _ => cases h'
    | _ => cases h
  | function ps ms rs =>
    cases m with
    | function ps' ms' rs' =>
      cases u with
      | function ps'' ms'' rs'' =>
        simp only [Ty.same, Bool.and_eq_true, beq_iff_eq] at h h' ⊢
        exact ⟨⟨h.1.1.trans h'.1.1, h.1.2.trans h'.1.2⟩, h.2.trans h'.2⟩
      | _ => cases h'
    | _ => cases h
  | integer s w =>
    cases m with
    | integer s' w' =>
      obtain ⟨signed, width⟩ := Bool.and_eq_true_iff.mp h
      obtain rfl := eq_of_beq signed
      obtain rfl := eq_of_beq width
      exact h'
    | _ => cases h
  | elementary | address | publicKey | randomness =>
    cases m <;>
      first
        | cases h
        | exact (eq_of_beq h) ▸ h'
  | cipher p b =>
    cases m with
    | cipher p' b' =>
      cases u with
      | cipher p'' b'' => exact beq_iff_eq.mpr ((eq_of_beq h).trans (eq_of_beq h'))
      | _ => cases h'
    | _ => cases h
  | bool | number | boolLit | numLit =>
    cases m with
    | bool | number | boolLit | numLit =>
      cases u <;>
        first
          | rfl
          | exact absurd h Bool.false_ne_true
          | exact absurd h' Bool.false_ne_true
    | _ => cases h
  termination_by structural t

theorem AnnTy.same_trans (t m u : AnnTy) (ht : t.IsResolved ν) (hm : m.IsResolved ν) (hu : u.IsResolved ν)
    (h : t.same m = true) (h' : m.same u = true) : t.same u = true := by
  obtain ⟨t, p, g, _, _⟩ := t
  obtain ⟨m, q, g', _, _⟩ := m
  obtain ⟨u, r, g'', _, _⟩ := u
  obtain ⟨data, owner⟩ := Bool.and_eq_true_iff.mp h
  obtain ⟨type, hom⟩ := Bool.and_eq_true_iff.mp data
  obtain ⟨data', owner'⟩ := Bool.and_eq_true_iff.mp h'
  obtain ⟨type', hom'⟩ := Bool.and_eq_true_iff.mp data'
  refine Bool.and_eq_true_iff.mpr ⟨Bool.and_eq_true_iff.mpr ⟨Ty.same_trans t m u ht.1 hm.1 hu.1 type type', ?_⟩, ?_⟩
  · exact beq_iff_eq.mpr ((eq_of_beq hom).trans (eq_of_beq hom'))
  · exact (Expr.sameOwner_iff ht.2 hu.2).mpr
      (((Expr.sameOwner_iff ht.2 hm.2).mp owner).trans ((Expr.sameOwner_iff hm.2 hu.2).mp owner'))
  termination_by structural t

theorem AnnTy.sameAll_trans (ts ms us : List AnnTy) (ht : AnnTy.AreResolved ν ts) (hm : AnnTy.AreResolved ν ms)
    (hu : AnnTy.AreResolved ν us) (h : AnnTy.sameAll ts ms = true) (h' : AnnTy.sameAll ms us = true) :
    AnnTy.sameAll ts us = true := by
  cases ts with
  | nil =>
    cases ms with
    | nil => exact h'
    | cons => cases h
  | cons t ts =>
    cases ms with
    | nil => cases h
    | cons m ms =>
      cases us with
      | nil => cases h'
      | cons u us =>
        obtain ⟨first, rest⟩ := Bool.and_eq_true_iff.mp h
        obtain ⟨first', rest'⟩ := Bool.and_eq_true_iff.mp h'
        exact Bool.and_eq_true_iff.mpr ⟨AnnTy.same_trans t m u ht.1 hm.1 hu.1 first first',
          AnnTy.sameAll_trans ts ms us ht.2 hm.2 hu.2 rest rest'⟩
  termination_by structural ts

end

mutual

/-- What equals some type equals itself. -/
theorem Ty.isDefinite_of_same (t u : Ty) (h : t.same u = true) : u.isDefinite = true := by
  cases t with
  | mapping _ k _ v =>
    cases u with
    | mapping _ k' _ v' =>
      obtain ⟨key, value⟩ := Bool.and_eq_true_iff.mp h
      exact Bool.and_eq_true_iff.mpr ⟨Ty.isDefinite_of_same k k' key, AnnTy.isDefinite_of_same v v' value⟩
    | _ => cases h
  | array v n =>
    cases u with
    | array v' n' =>
      obtain ⟨value, length⟩ := Bool.and_eq_true_iff.mp h
      exact Bool.and_eq_true_iff.mpr ⟨AnnTy.isDefinite_of_same v v' value, sameLength_self length⟩
    | _ => cases h
  | tuple ts =>
    cases u with
    | tuple us => exact AnnTy.areDefinite_of_same ts us h
    | _ => cases h
  | _ =>
    cases u with
    | mapping | array | tuple => cases h
    | _ => rfl
  termination_by structural t

theorem AnnTy.isDefinite_of_same (t u : AnnTy) (h : t.same u = true) : u.isDefinite = true := by
  obtain ⟨t, p, g, _, _⟩ := t
  obtain ⟨u, q, g', _, _⟩ := u
  obtain ⟨data, -⟩ := Bool.and_eq_true_iff.mp h
  exact Ty.isDefinite_of_same t u (Bool.and_eq_true_iff.mp data).1
  termination_by structural t

theorem AnnTy.areDefinite_of_same (ts us : List AnnTy) (h : AnnTy.sameAll ts us = true) :
    AnnTy.areDefinite us = true := by
  cases ts with
  | nil =>
    cases us with
    | nil => rfl
    | cons => cases h
  | cons t ts =>
    cases us with
    | nil => cases h
    | cons u us =>
      obtain ⟨first, rest⟩ := Bool.and_eq_true_iff.mp h
      exact Bool.and_eq_true_iff.mpr ⟨AnnTy.isDefinite_of_same t u first, AnnTy.areDefinite_of_same ts us rest⟩
  termination_by structural ts

end

mutual

theorem Ty.same_of_isDefinite (t : Ty) (owned : t.IsOwned) (h : t.isDefinite = true) : t.same t = true := by
  cases t with
  | mapping _ k _ v =>
    obtain ⟨key, value⟩ := Bool.and_eq_true_iff.mp h
    exact Bool.and_eq_true_iff.mpr
      ⟨Ty.same_of_isDefinite k owned.1 key, AnnTy.same_of_isDefinite v owned.2 value⟩
  | array v n =>
    obtain ⟨value, length⟩ := Bool.and_eq_true_iff.mp h
    exact Bool.and_eq_true_iff.mpr ⟨AnnTy.same_of_isDefinite v owned value, length⟩
  | tuple ts => exact AnnTy.same_of_areDefinite ts owned h
  | function ps ms rs => simp [Ty.same]
  | cipher p b => exact beq_self_eq_true b
  | publicKey b | randomness b => exact beq_self_eq_true b
  | named sort ns r =>
    refine Bool.and_eq_true_iff.mpr ⟨beq_self_eq_true sort, ?_⟩
    cases r <;> exact beq_self_eq_true _
  | _ => exact Ty.same_self rfl
  termination_by structural t

theorem AnnTy.same_of_isDefinite (t : AnnTy) (owned : t.IsOwned) (h : t.isDefinite = true) : t.same t = true := by
  obtain ⟨t, p, g, _, _⟩ := t
  exact Bool.and_eq_true_iff.mpr
    ⟨Bool.and_eq_true_iff.mpr ⟨Ty.same_of_isDefinite t owned.1 h, beq_self_eq_true g⟩,
      owned.2⟩
  termination_by structural t

theorem AnnTy.same_of_areDefinite (ts : List AnnTy) (owned : AnnTy.AreOwned ts) (h : AnnTy.areDefinite ts = true) :
    AnnTy.sameAll ts ts = true := by
  cases ts with
  | nil => rfl
  | cons t ts =>
    obtain ⟨first, rest⟩ := Bool.and_eq_true_iff.mp h
    exact Bool.and_eq_true_iff.mpr
      ⟨AnnTy.same_of_isDefinite t owned.1 first, AnnTy.same_of_areDefinite ts owned.2 rest⟩
  termination_by structural ts

end

/-- A type equals itself if and only if no array in it has a symbolic length. -/
theorem Ty.same_self_iff {t : Ty} (owned : t.IsOwned) : t.same t = true ↔ t.isDefinite = true :=
  ⟨t.isDefinite_of_same t, t.same_of_isDefinite owned⟩

end Equality

end Shroud
