import Shroud.Typing.Program

/-!
# Laws of types

The check of types enforces three laws on declared types: what everybody can see is not homomorphic, what is private
fits into a circuit, and homomorphic ciphertexts hold small unsigned integers (`AnnTy.isLawful`).

**Two strengths.** The first law is kept by everything that computes types (`AnnTy.Sound`). The others hold of what is
declared (`AnnTy.Written`); a type written with the name of an enum is lawful once that name has been resolved.

**Depth.** Elements, parts of tuples and signatures have types of their own, and expressions get these as theirs. So the
laws are asked for at every depth.
-/

namespace Shroud

/-! ## Laws -/

namespace Ty

/-- A name that is not known to be that of an enum. -/
def isUnresolved : Ty → Bool
  | .named .user _ _ => true
  | _ => false

end Ty

namespace AnnTy

/-- The laws of declared types. -/
def isLawful (t : AnnTy) : Bool :=
  if t.isPublic then t.hom == .nonHomomorphic
  else t.type.canBePrivate && (t.hom == .nonHomomorphic || t.type.notHomomorphic?.isNone)

/-- Only the keyword makes a type public, and then it is not homomorphic. -/
structure IsOpen (t : AnnTy) : Prop where
  keyword : t.privacy.label? = some .all → t.isPublic = true
  plain : t.isPublic = true → t.hom = .nonHomomorphic

/-- A type as it is declared. -/
structure Declarable (t : AnnTy) : Prop where
  isOpen : t.IsOpen
  lawful : t.isLawful = true ∨ t.type.isUnresolved = true

theorem isOpen_plain (t : Ty) : (plain t).IsOpen := ⟨fun _ => rfl, fun _ => rfl⟩

theorem isOpen_of_lawful {t : AnnTy} (keyword : t.privacy.label? = some .all → t.isPublic = true)
    (h : t.isLawful = true) : t.IsOpen := by
  refine ⟨keyword, fun visible => ?_⟩
  unfold isLawful at h
  rw [if_pos visible] at h
  exact eq_of_beq h

theorem isOpen_of_private {t : AnnTy} (keyword : t.privacy.label? = some .all → t.isPublic = true)
    (h : t.isPublic = false) : t.IsOpen := by
  refine ⟨keyword, fun isPublic => ?_⟩
  rw [h] at isPublic
  cases isPublic

end AnnTy

/-! ## Laws at every depth -/

mutual

/-- The types of elements and of signatures are written, those of parts are sound. Keys with a name are addresses. -/
def Ty.Sound : Ty → Prop
  | .mapping _ k l v => (l = none ∨ k.same (.address false) = true) ∧ v.Written
  | .array v _ => v.Written
  | .tuple ts => AnnTy.AllSound ts
  | .function ps _ rs => Param.AllWritten ps ∧ Param.AllWritten rs
  | _ => True

/-- A declared type. -/
def AnnTy.Written : AnnTy → Prop
  | ⟨t, p, h, a, d⟩ => t.Sound ∧ AnnTy.Declarable ⟨t, p, h, a, d⟩

def AnnTy.AllSound : List AnnTy → Prop
  | [] => True
  | ⟨t, p, h, a, d⟩ :: ts => (t.Sound ∧ AnnTy.IsOpen ⟨t, p, h, a, d⟩) ∧ AnnTy.AllSound ts

def Param.AllWritten : List Param → Prop
  | [] => True
  | ⟨_, _, t, _, _, _⟩ :: ps => t.Written ∧ Param.AllWritten ps

end

/-- The type of a value. -/
def AnnTy.Sound (t : AnnTy) : Prop := t.type.Sound ∧ t.IsOpen

section Depth

variable {t v : AnnTy} {u : Ty}

theorem AnnTy.written_iff : t.Written ↔ t.type.Sound ∧ t.Declarable := by
  cases t
  exact Iff.rfl

theorem AnnTy.Written.type (h : t.Written) : t.type.Sound := (AnnTy.written_iff.mp h).1

theorem AnnTy.Written.declarable (h : t.Written) : t.Declarable := (AnnTy.written_iff.mp h).2

theorem AnnTy.Written.sound (h : t.Written) : t.Sound := ⟨h.type, h.declarable.isOpen⟩

theorem AnnTy.written_plain (h : u.Sound) : (AnnTy.plain u).Written :=
  AnnTy.written_iff.mpr ⟨h, AnnTy.isOpen_plain u, .inl rfl⟩

theorem AnnTy.sound_plain (h : u.Sound) : (AnnTy.plain u).Sound := (AnnTy.written_plain h).sound

theorem AnnTy.allSound_iff {ts : List AnnTy} : AnnTy.AllSound ts ↔ ∀ t ∈ ts, t.Sound := by
  induction ts with
  | nil => exact ⟨fun _ => nofun, fun _ => trivial⟩
  | cons t ts ih =>
    cases t
    rw [List.forall_mem_cons]
    exact and_congr Iff.rfl ih

theorem Param.allWritten_iff {ps : List Param} : Param.AllWritten ps ↔ ∀ p ∈ ps, p.type.Written := by
  induction ps with
  | nil => exact ⟨fun _ => nofun, fun _ => trivial⟩
  | cons p ps ih =>
    cases p
    rw [List.forall_mem_cons]
    exact and_congr Iff.rfl ih

theorem AnnTy.written_tuple {ts : List AnnTy} (h : ∀ t ∈ ts, t.Sound) : (AnnTy.plain (.tuple ts)).Written :=
  AnnTy.written_plain (AnnTy.allSound_iff.mpr h)

theorem returnType_written {ps : List Param} (h : ∀ p ∈ ps, p.type.Written) : (returnType ps).Written := by
  unfold returnType
  split
  · exact h _ List.mem_cons_self
  · exact AnnTy.written_tuple (List.forall_mem_map.mpr fun p hp => (h p hp).sound)

/-- What indexing reaches is declared as part of the container. -/
theorem Ty.Sound.element (h : u.Sound) (hv : u.valueType? = some v) : v.Written := by
  cases u with
  | mapping =>
    cases hv
    exact h.2
  | array =>
    cases hv
    exact h
  | cipher | publicKey | randomness =>
    cases hv
    exact AnnTy.written_plain trivial
  | _ => cases hv

theorem Ty.Sound.elementD (h : u.Sound) : (u.valueType?.getD default).Written := by
  cases hv : u.valueType? with
  | none => exact AnnTy.written_plain trivial
  | some v => exact h.element hv

theorem AnnTy.Written.elementType {n : Nat} (h : t.Written) (hv : Symbols.elementType? n t = some v) : v.Written := by
  induction n generalizing t with
  | zero =>
    cases hv
    exact h
  | succ n ih =>
    obtain ⟨w, hw, hv⟩ := Option.bind_eq_some_iff.mp hv
    exact ih (h.type.element hw) hv

end Depth

/-! ## Types that are computed -/

section Computed

mutual

/-- Handing the sender as owner to a type, or to the parts of a tuple. -/
theorem Ty.annotateWith_sound : ∀ t : Ty, t.Sound → (t.annotateWith .meLabel).Sound
  | .tuple ts, h => AnnTy.sound_plain (AnnTy.annotateAll_sound ts h)
  | .elementary _, h | .bool, h | .boolLit _, h | .number, h | .numLit _, h | .integer _ _, h | .named _ _ _, h
  | .address _, h | .mapping _ _ _ _, h | .array _ _, h | .cipher _ _, h | .publicKey _, h | .randomness _, h
  | .function _ _ _, h => ⟨h, nofun, fun _ => rfl⟩

theorem AnnTy.annotateAll_sound : ∀ ts : List AnnTy, AnnTy.AllSound ts →
    AnnTy.AllSound (AnnTy.annotateAll .meLabel ts)
  | [], _ => trivial
  | ⟨t, _, _, _, _⟩ :: ts, h => by
    rw [AnnTy.annotateAll, AnnTy.allSound_iff]
    exact List.forall_mem_cons.mpr
      ⟨t.annotateWith_sound h.1.1, AnnTy.allSound_iff.mp (AnnTy.annotateAll_sound ts h.2)⟩

end

theorem Ty.ownedByMe_sound {t : Ty} {isPrivate : Bool} (h : t.Sound) : (t.ownedByMe isPrivate).Sound := by
  cases isPrivate with
  | false => exact AnnTy.sound_plain h
  | true => exact t.annotateWith_sound h

theorem Ty.wider_sound {t u c : Ty} (h : t.wider u = .type c) (ht : t.Sound) (hu : u.Sound) : c.Sound := by
  unfold wider at h
  split at h
  · cases h
    exact ht
  · split at h
    · cases h
      exact hu
    · cases h

mutual

/-- The common type of two operands. -/
theorem Ty.combine_sound (b : Bool) : ∀ t u c : Ty, t.combine b u = .type c → t.Sound → u.Sound → c.Sound
  | .boolLit x, u, c, h, ht, hu => by
    unfold Ty.combine at h
    split at h
    · cases b <;> cases h
      trivial
    · exact Ty.wider_sound h ht hu
  | .numLit x, u, c, h, ht, hu => by
    unfold Ty.combine at h
    split at h
    · cases b with
      | false => cases h
      | true => exact Ty.wider_sound h trivial trivial
    · exact Ty.wider_sound h ht hu
  | .tuple ts, u, c, h, ht, hu => by
    unfold Ty.combine at h
    split at h
    · split at h
      · cases h
        exact AnnTy.combineAll_sound b ts _ _ ‹_› ht hu
      · cases h
    · cases h
  | .elementary _, _, _, h, ht, hu | .bool, _, _, h, ht, hu | .number, _, _, h, ht, hu
  | .integer _ _, _, _, h, ht, hu | .named _ _ _, _, _, h, ht, hu | .address _, _, _, h, ht, hu
  | .mapping _ _ _ _, _, _, h, ht, hu | .array _ _, _, _, h, ht, hu | .cipher _ _, _, _, h, ht, hu
  | .publicKey _, _, _, h, ht, hu | .randomness _, _, _, h, ht, hu | .function _ _ _, _, _, h, ht, hu =>
    Ty.wider_sound h ht hu

theorem AnnTy.combineAll_sound (b : Bool) : ∀ ts us cs : List AnnTy, AnnTy.combineAll b ts us = some cs →
    AnnTy.AllSound ts → AnnTy.AllSound us → AnnTy.AllSound cs
  | [], us, cs, h, _, _ => by
    cases us <;> cases h
    trivial
  | ⟨t, _, _, _, _⟩ :: ts, us, cs, h, ht, hu => by
    rcases us with _ | ⟨⟨u, _, _, _, _⟩, us⟩
    · cases h
    · unfold AnnTy.combineAll at h
      split at h
      · cases h
        exact ⟨AnnTy.sound_plain (t.combine_sound b u _ ‹_› ht.1.1 hu.1.1),
          AnnTy.combineAll_sound b ts us _ ‹_› ht.2 hu.2⟩
      · cases h
        exact ⟨AnnTy.sound_plain ht.1.1, AnnTy.combineAll_sound b ts us _ ‹_› ht.2 hu.2⟩
      · cases h

end

section Instantiating

variable {m : Nat} {o : Label × Nat}

theorem Expr.instantiate_isAll (p : Expr) : (p.instantiate m o).isAll = p.isAll := by
  rcases p with _ | _ | _ | _ | _ | _ | _ | _ | ⟨_, _, _ | _ | _ | ⟨_, _ | _⟩⟩ | _ | _ | _ | _ | _ <;> rfl

theorem Expr.instantiate_label {p : Expr} (ho : o.1 ≠ .all) (h : (p.instantiate m o).label? = some .all) :
    p.label? = some .all := by
  rcases p with _ | _ | _ | _ | _ | _ | _ | _ | ⟨_, _, _ | _ | _ | ⟨q, _ | _⟩⟩ | _ | _ | _ | _ | _
  case ident.some.keyLabel.none =>
    replace h : (if q == m then some o else none).map (·.1) = some .all := h
    split at h
    · exact absurd (Option.some.inj h) ho
    · cases h
  all_goals exact h

theorem AnnTy.instantiate_isPublic (t : AnnTy) : (t.instantiate m o).isPublic = t.isPublic := by
  cases t
  exact Expr.instantiate_isAll _

theorem AnnTy.instantiate_hom (t : AnnTy) : (t.instantiate m o).hom = t.hom := by
  cases t
  rfl

theorem AnnTy.IsOpen.instantiate {t : AnnTy} (ho : o.1 ≠ .all) (h : t.IsOpen) : (t.instantiate m o).IsOpen := by
  refine ⟨fun label => ?_, fun visible => ?_⟩
  · rw [t.instantiate_isPublic]
    cases t
    exact h.keyword (Expr.instantiate_label ho label)
  · rw [t.instantiate_isPublic] at visible
    cases t
    exact h.plain visible

theorem AnnTy.Declarable.instantiate {t : AnnTy} (ho : o.1 ≠ .all) (h : t.Declarable) :
    (t.instantiate m o).Declarable := by
  refine ⟨h.isOpen.instantiate ho, h.lawful.imp (fun lawful => ?_) fun unresolved => ?_⟩
  · rw [← lawful]
    unfold AnnTy.isLawful
    rw [t.instantiate_isPublic]
    obtain ⟨type, _⟩ := t
    cases type <;> rfl
  · rw [← unresolved]
    obtain ⟨type, _⟩ := t
    cases type <;> rfl

mutual

/-- Naming the owner of the elements of a mapping. -/
theorem Ty.instantiate_sound (ho : o.1 ≠ .all) : ∀ t : Ty, t.Sound → (t.instantiate m o).Sound
  | .mapping _ _ _ v, h => ⟨h.1, v.instantiate_written ho h.2⟩
  | .array v _, h => v.instantiate_written ho h
  | .elementary _, h | .bool, h | .boolLit _, h | .number, h | .numLit _, h | .integer _ _, h | .named _ _ _, h
  | .address _, h | .cipher _ _, h | .publicKey _, h | .randomness _, h | .tuple _, h | .function _ _ _, h => h

theorem AnnTy.instantiate_written (ho : o.1 ≠ .all) : ∀ t : AnnTy, t.Written → (t.instantiate m o).Written
  | ⟨t, _, _, _, _⟩, h => ⟨t.instantiate_sound ho h.1, h.2.instantiate ho⟩

end

theorem AnnTy.instantiate_sound {t : AnnTy} (ho : o.1 ≠ .all) (h : t.Sound) : (t.instantiate m o).Sound := by
  refine ⟨?_, h.2.instantiate ho⟩
  cases t
  exact Ty.instantiate_sound ho _ h.1

end Instantiating

end Computed

end Shroud
