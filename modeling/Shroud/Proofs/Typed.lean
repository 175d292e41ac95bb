import Shroud.Proofs.CallGraph
import Shroud.Proofs.Conversions
import Shroud.Proofs.Invariants
import Shroud.Proofs.Loops
import Shroud.Report.Functions

/-!
# Types that the check finds

The check gives every expression a sound type and leaves only sound types in the table of declarations, if it gets
through. There is one lemma for each rule: it takes parts with sound types to a whole with one.

**Names** get the types of their declarations. The owner of an element is named by its key, which is a value and so
never the keyword for everybody (`Expr.HasSound.isNamed`).

**Operators** get types that are computed from those of their operands. A private operation belongs to the sender, one
on ciphertexts to the owner of these.

**Fresh programs.** The lemmas are about programs as they are read, in which only literals and new values have types
(`Node.Fresh`).
-/

namespace Shroud

/-! ## Declarations with sound types -/

/-- What is declared has a type as it is declared, if any. -/
def Decl.Written (d : Decl) : Prop := ∀ t, d.type? = some t → t.Written

/-- Every declaration has a type as it is declared. -/
def Symbols.Sound (s : Symbols) : Prop := ∀ i d, s.find? i = some d → d.Written

namespace Symbols.Sound

variable {s : Symbols} {t : AnnTy}

theorem type? (h : s.Sound) {r : Ref} (ht : s.type? r = some t) : t.Written := by
  cases r with
  | decl k i =>
    obtain ⟨d, hd, ht⟩ := Option.bind_eq_some_iff.mp ht
    exact h i d hd t ht
  | element b n i =>
    obtain ⟨v, hv, ht⟩ := Option.bind_eq_some_iff.mp ht
    obtain ⟨d, hd, hv⟩ := Option.bind_eq_some_iff.mp hv
    exact (h b d hd v hv).elementType ht
  | keyLabel => cases ht

theorem modify (h : s.Sound) (k : Nat) {f : Decl → Decl}
    (hf : ∀ d, d.Written → (f d).Written) : (s.modify k f).Sound := by
  intro i d hd
  rw [find?_modify] at hd
  split at hd
  · obtain ⟨e, he, rfl⟩ := Option.map_eq_some_iff.mp hd
    exact hf e (h i e he)
  · exact h i d hd

theorem setType (h : s.Sound) (i : Nat) (ht : t.Written) : (s.setType i t).Sound := by
  refine h.modify i fun d old u hu => ?_
  cases d with
  | function => exact old u hu
  | _ =>
    cases hu
    exact ht

theorem setFunction (h : s.Sound) {f : FunctionDef} (ht : f.type.Written) : (s.setFunction f).Sound := by
  refine h.modify f.id fun d old u hu => ?_
  cases d with
  | function =>
    cases hu
    exact ht
  | _ => exact old u hu

end Symbols.Sound

theorem Symbols.sound_of_mem {s : Symbols} (h : ∀ d ∈ s.entries, d.2.Written) : s.Sound := fun i d hd =>
  h (i, d) (mem_of_lookup hd)

theorem FunctionDef.type_written {f : FunctionDef} (params : ∀ p ∈ f.params, p.type.Written)
    (returns : ∀ p ∈ f.returns, p.type.Written) : f.type.Written :=
  AnnTy.written_plain ⟨Param.allWritten_iff.mpr params, Param.allWritten_iff.mpr returns⟩

/-- The activity leaves declarations with sound types and a result with the property, given the assumption. -/
abbrev Typing {α : Type} (H : Prop) (P : α → Prop) (x : CheckM α) : Prop := Upholds Symbols.Sound H P x

theorem Typing.setType {H : Prop} {i : Nat} {t : AnnTy} (h : H → t.Written) :
    Typing H (fun _ => True) (CheckM.setType i t) :=
  ⟨Ends.setType, fun hH _ hs _ => ⟨hs.setType i (h hH), trivial⟩⟩

theorem Typing.setFunction {H : Prop} {f : FunctionDef} (h : H → f.type.Written) :
    Typing H (fun _ => True) (CheckM.setFunction f) :=
  ⟨Ends.setFunction, fun hH _ hs _ => ⟨hs.setFunction (h hH), trivial⟩⟩

/-! ## Operators -/

section Operators

variable {H : Prop} {c : CheckContext} {k : Option Knowledge} {o : OpCall} {op : Op} {t u : AnnTy}

/-- What an operator needs to get a sound type. -/
structure OpCall.Sound (o : OpCall) : Prop where
  args : ∀ a ∈ o.args, a.Sound
  func : ∀ t, o.funcInfo.type = some t → t.Written

namespace OpCall

theorem Sound.withArgs (h : o.Sound) {as : List Expr} (has : ∀ a ∈ as, a.Sound) : (o.withArgs as).Sound :=
  ⟨has, h.func⟩

theorem Sound.expr (h : o.Sound) (ht : ∀ t, o.info.type = some t → t.Sound) : o.expr.Sound := by
  refine Expr.sound_call.mpr ⟨Expr.hasSound_derived rfl rfl ht, (Expr.sound_leaf rfl).mpr ⟨fun t ht => ?_, nofun⟩, h.args⟩
  exact ⟨(h.func t ht).sound, fun _ => (h.func t ht).declarable⟩

theorem Sound.typed (h : o.Sound) (ht : t.Sound) : (o.typed t).Sound := by
  refine Sound.expr (o := { o with info := { o.info with type := some t } }) ⟨h.args, h.func⟩ fun u hu => ?_
  cases hu
  exact ht

theorem Sound.argTypes (h : o.Sound) : ∀ u ∈ o.args.map (·.checkedType.type), u.Sound :=
  List.forall_mem_map.mpr fun a ha => (h.args a ha).self.checkedType.1

theorem typing_coerceAll {ts : List AnnTy} {next : OpCall → CheckM Expr} {P : Expr → Prop} (ready : H → o.Sound)
    (types : H → ∀ t ∈ ts, t.Sound) (h : ∀ as, Typing (H ∧ (o.withArgs as).Sound) P (next (o.withArgs as))) :
    Typing H P (o.coerceAll c ts next) := by
  refine .withSymbols fun s => .convertAll fun as has => (h as).assuming fun known => ⟨known.1, ?_⟩
  exact (ready known.1).withArgs
    (Expr.coerceAll_sound (ready known.1).args (types known.1) has)

theorem typing_coerceAt {n : Nat} {next : OpCall → CheckM Expr} {P : Expr → Prop} (ready : H → o.Sound)
    (type : H → t.Sound) (h : ∀ as, Typing (H ∧ (o.withArgs as).Sound) P (next (o.withArgs as))) :
    Typing H P (o.coerceAt c n t next) := by
  refine .withSymbols fun s => ?_
  split
  · exact .fail
  · rename_i a ha
    refine .convert fun x hx => (h _).assuming fun known => ⟨known.1, (ready known.1).withArgs fun y hy => ?_⟩
    have sound := (ready known.1).args
    rcases List.mem_or_eq_of_mem_set hy with hy | rfl
    · exact sound y hy
    · exact Expr.coerce_sound (sound a (List.mem_of_getElem? ha)) (type known.1) hx

end OpCall

theorem Ty.combine?_sound {b : Bool} {t u c : Ty} (h : t.combine? b u = .ok (.type c)) (ht : t.Sound) (hu : u.Sound) :
    c.Sound := by
  unfold combine? at h
  split at h
  · cases h
  · exact t.combine_sound b u c (Except.ok.inj h) ht hu

theorem foldLiterals_sound {ts : List Ty} {r : Ty} (h : foldLiterals op ts = .ok r) : r.Sound := by
  unfold foldLiterals at h
  split at h
  · cases h
  · cases h
    trivial
  · split at h
    · cases h
      trivial
    · cases h

theorem Ty.abstract_sound {t : Ty} (h : t.Sound) : t.abstract.Sound := by
  cases t with
  | numLit | boolLit => trivial
  | _ => exact h

/-- The type that operands are brought to, and that of the result. -/
theorem operandTypes_sound {ts : List Ty} {operands : Combined} {result : Option Ty} (hts : ∀ t ∈ ts, t.Sound)
    (h : operandTypes op ts = .ok (operands, result)) :
    (∀ t, operands = .type t → t.Sound) ∧ ∀ t, result = some t → t.Sound := by
  obtain ⟨common, hcommon, h⟩ := except_bind_ok h
  have sound : ∀ t, common = .type t → t.Sound := by
    rintro t rfl
    split at hcommon
    · split at hcommon
      · cases hcommon
      · cases hcommon
        exact hts t List.mem_cons_self
    · exact Ty.combine?_sound hcommon (hts _ List.mem_cons_self) (hts _ (by simp))
    · cases hcommon
  split at h
  · obtain ⟨folded, hfolded, h⟩ := except_bind_ok h
    split at h
    · cases h
      simp only [List.forall_mem_cons] at hts
      refine ⟨fun t ht => ?_, fun t ht => ?_⟩
      · exact Ty.combine_sound true _ _ t ht (Ty.abstract_sound hts.1) (Ty.abstract_sound hts.2.1)
      · cases ht
        exact foldLiterals_sound hfolded
    · cases h
      refine ⟨nofun, fun t ht => ?_⟩
      cases ht
      exact foldLiterals_sound hfolded
  · cases h
    refine ⟨sound, fun t ht => ?_⟩
    cases ht
    split
    · trivial
    · exact sound _ rfl
  · cases h
    exact ⟨nofun, nofun⟩

namespace OpCall

theorem typePlain_sound (ready : H → o.Sound) : Typing H Expr.Sound (o.typePlain c) := by
  have finish (o : OpCall) (operands : Combined) (result : Ty) (isPrivate : Bool)
      (known : H → o.Sound ∧ (∀ t, operands = .type t → t.Sound) ∧ result.Sound) :
      Typing H Expr.Sound (typePlain.finish c o operands result isPrivate) := by
    have done (o : OpCall) (H' : Prop) (ready : H' → H ∧ o.Sound) :
        Typing H' Expr.Sound (return o.typed (result.ownedByMe isPrivate)) :=
      .pure fun h' => (ready h').2.typed (Ty.ownedByMe_sound (known (ready h').1).2.2)
    unfold typePlain.finish
    dsimp only
    split
    · rename_i t
      have type : H → (t.ownedByMe isPrivate).Sound := fun h => Ty.ownedByMe_sound ((known h).2.1 t rfl)
      split
      · exact typing_coerceAt (fun h => (known h).1) type fun as => done _ _ id
      · refine typing_coerceAll (fun h => (known h).1) (fun h => ?_) fun as => done _ _ id
        exact List.forall_mem_map.mpr fun _ _ => type h
    · exact done o H fun h => ⟨h, (known h).1⟩
  refine .attempt fun _ _ => .attempt fun r types => ?_
  obtain ⟨operands, result⟩ := r
  dsimp only
  split
  · exact .fail
  · exact .fail
  · rename_i result _
    have sound (o' : OpCall) (h : H → o'.Sound) :
        H → o'.Sound ∧ (∀ t, operands = .type t → t.Sound) ∧ result.Sound := by
      intro hH
      obtain ⟨operands, results⟩ := operandTypes_sound (ready hH).argTypes types
      exact ⟨h hH, operands, results _ rfl⟩
    split
    · have inside := sound { o with isPrivate := true } fun h => ⟨(ready h).args, (ready h).func⟩
      refine .attempt fun _ _ => ?_
      split
      · exact Upholds.warn.bind fun _ => (finish _ _ _ _ inside).assuming And.left
      · exact finish _ _ _ _ inside
    · exact finish _ _ _ _ (sound o ready)

end OpCall

/-- A common owner is the owner of one of the two types. -/
theorem AnnTy.commonOwner_eq {p : Expr} (h : t.commonOwner k u = .ok (.one p)) : p = t.privacy ∨ p = u.privacy := by
  have plain (h : t.commonOwnerPlain k u = .one p) : p = t.privacy ∨ p = u.privacy := by
    unfold commonOwnerPlain at h
    split at h
    · cases h
    · split at h
      · split at h
        · cases h
          exact .inl rfl
        · split at h
          · cases h
            exact .inr rfl
          · cases h
      · cases h
  obtain ⟨type, q, hom, a, d⟩ := t
  cases type with
  | tuple ts =>
    unfold commonOwner Ty.commonOwner at h
    split at h
    · split at h
      · obtain ⟨_, _, h⟩ := except_bind_ok h
        cases h
      · cases h
    · cases h
  | _ =>
    unfold commonOwner Ty.commonOwner at h
    exact plain (Except.ok.inj h)

/-- A type with a common owner. -/
theorem AnnTy.sound_common {d : Ty} {h : Hom} {p : Expr} (hd : d.Sound) (ht : t.Sound) (hu : u.Sound)
    (owner : (t.withHom h).commonOwner k (u.withHom h) = .ok (.one p)) :
    (AnnTy.owned d p (if p.isAll then .nonHomomorphic else h)).Sound := by
  refine ⟨hd, fun label => ?_, fun visible => if_pos visible⟩
  rcases commonOwner_eq owner with rfl | rfl
  · exact ht.2.keyword label
  · exact hu.2.keyword label

theorem except_foldlM_ok {α β ε : Type} {P : β → Prop} {f : β → α → Except ε β} {as : List α} {b c : β}
    (hf : ∀ b, ∀ a ∈ as, ∀ c, P b → f b a = .ok c → P c) (hb : P b) (h : as.foldlM f b = .ok c) : P c := by
  induction as generalizing b with
  | nil =>
    cases h
    exact hb
  | cons a as ih =>
    rw [List.foldlM_cons] at h
    obtain ⟨d, hd, h⟩ := except_bind_ok h
    exact ih (fun b a ha => hf b a (List.mem_cons_of_mem _ ha)) (hf b a List.mem_cons_self d hb hd) h

theorem combineAll_sound {ts : List Ty} {r : Option Ty} (hts : ∀ t ∈ ts, t.Sound) (h : combineAll ts = .ok r) :
    ∀ t, r = some t → t.Sound := by
  cases ts with
  | nil =>
    cases h
    nofun
  | cons t ts =>
    obtain ⟨first, rest⟩ := List.forall_mem_cons.mp hts
    refine except_foldlM_ok (P := fun r : Option Ty => ∀ t, r = some t → t.Sound) (fun acc u hu next sound step => ?_)
      (fun _ same => Option.some.inj same ▸ first) h
    split at step
    · cases step
      nofun
    · obtain ⟨common, hcommon, step⟩ := except_bind_ok step
      split at step
      · cases step
        rintro c ⟨⟩
        exact Ty.combine?_sound hcommon (sound _ rfl) (rest u hu)
      · cases step
        nofun

theorem Op.homOperation_additive {as : List Expr} {r : HomOperation} (h : op.homOperation k as = .ok (some r)) :
    r.result.hom = .additive := by
  unfold homOperation at h
  dsimp only at h
  split at h
  · cases h
  · obtain ⟨common, -, h⟩ := except_bind_ok h
    split at h
    · cases h
    · split at h
      · cases h
        rfl
      · split at h
        · replace h := Except.ok.inj h
          split at h
          · cases h
            rfl
          · cases h
        · cases h

/-- An operation on ciphertexts belongs to somebody else. -/
theorem Op.homOperation_sound {as : List Expr} {r : HomOperation} (has : ∀ a ∈ as, a.Sound)
    (h : op.homOperation k as = .ok (some r)) : r.result.Sound := by
  unfold homOperation at h
  dsimp only at h
  split at h
  · cases h
  · rename_i owner rest foreign
    obtain ⟨there, hidden⟩ := List.mem_filter.mp (foreign ▸ List.mem_cons_self)
    obtain ⟨a, ha, rfl⟩ := List.mem_map.mp there
    have sound := (has a ha).self.checkedType
    have isPrivate : a.checkedType.isPublic = false := by
      unfold AnnTy.isAccessible at hidden
      cases hp : a.checkedType.isPublic with
      | false => rfl
      | true =>
        rw [hp] at hidden
        cases hidden
    obtain ⟨common, hcommon, h⟩ := except_bind_ok h
    split at h
    · cases h
    · rename_i t
      have type : t.Sound :=
        combineAll_sound (List.forall_mem_map.mpr fun a ha => (has a ha).self.checkedType.1) hcommon t rfl
      have result : (AnnTy.owned t a.checkedType.privacy .additive).Sound :=
        ⟨type, AnnTy.isOpen_of_private sound.2.keyword isPrivate⟩
      split at h
      · cases h
        exact result
      · split at h
        · replace h := Except.ok.inj h
          split at h
          · cases h
            exact result
          · cases h
        · cases h

namespace OpCall

theorem typeChoice_sound (ready : H → o.Sound) : Typing H Expr.Sound (o.typeChoice c) := by
  have finish (o : OpCall) (t : AnnTy) (known : H → o.Sound ∧ t.Sound) :
      Typing H Expr.Sound (typeChoice.finish c o t) := by
    refine typing_coerceAt (fun h => (known h).1) (fun h => (known h).2) fun as => ?_
    refine typing_coerceAt And.right (fun h => (known h.1).2) fun bs => .pure fun h => ?_
    exact h.2.typed (known h.1.1).2
  unfold typeChoice
  split
  · rename_i d a b has
    have args (h : H) : a.checkedType.Sound ∧ b.checkedType.Sound := by
      have args := (ready h).args
      rw [has] at args
      exact ⟨(args a (by simp)).self.checkedType, (args b (by simp)).self.checkedType⟩
    refine .ensure fun _ => .attempt fun common hcommon => ?_
    split
    · rename_i t
      have type (h : H) : t.Sound := Ty.combine?_sound hcommon (args h).1.1 (args h).2.1
      split
      · exact finish _ _ fun h => ⟨⟨(ready h).args, (ready h).func⟩, t.annotateWith_sound (type h)⟩
      · refine .attempt fun owner howner => ?_
        split
        · exact .fail
        · exact finish _ _ fun h => ⟨ready h, AnnTy.sound_common (type h) (args h).1 (args h).2 howner⟩
        · exact .fail
    · exact .fail
  · exact .fail
  · exact .fail

theorem typeHomomorphic_sound (ready : H → o.Sound) : Typing H Expr.Sound (o.typeHomomorphic c) := by
  refine .attempt fun _ _ => .attempt fun h hh => ?_
  cases h with
  | none => exact .fail
  | some h =>
    have result (known : H) : h.result.Sound := Op.homOperation_sound (ready known).args hh
    refine typing_coerceAll (fun known => ⟨(ready known).args, (ready known).func⟩) (fun known => ?_) fun as =>
      .pure fun known => known.2.expr ?_
    · refine List.forall_mem_map.mpr fun p _ => ?_
      split
      · exact ⟨(result known).1, fun _ => rfl, fun _ => rfl⟩
      · exact result known
    · rintro t ⟨⟩
      exact result known.1

/-- Typing an operator gives it a sound type. -/
theorem type_sound (ready : H → o.Sound) : Typing H Expr.Sound (o.type c) := by
  unfold type
  split
  · rename_i a as _ has
    refine .pure fun h => (ready h).typed ?_
    have args := (ready h).args
    rw [has] at args
    exact (args a List.mem_cons_self).self.checkedType
  · split
    · exact typeHomomorphic_sound ready
    · split
      · exact typeChoice_sound ready
      · exact typePlain_sound ready

end OpCall

end Operators

/-! ## Programs before the check -/

/-- The node is as it is read: only literals have types, and new values those that they are written with. No owner of
an element has been named, and no written type is a tuple. -/
def Node.isFresh : Node → Bool
  | .expr (.new ..) => true
  | .expr (.boolLit i _) | .expr (.numLit i _ _) => i.type.all fun t => t.isPublic && t.isLawful && t.type.isLiteral
  | .expr e => e.type?.isNone && (e.isAll || e.label? != some .all)
  | .ty t => !t.isTuple
  | .enum e => e.type.isNone
  | .enumValue v => v.type.isNone
  | _ => true

/-- Nodes that have not been checked. -/
abbrev Node.Fresh (ns : List Node) : Prop := ∀ n ∈ ns, n.isFresh = true

section Fresh

variable {n : Node} {ns ms : List Node} {i : Info} {e : Expr}

theorem Node.fresh_cons : Node.Fresh (n :: ns) ↔ n.isFresh = true ∧ Node.Fresh ns := List.forall_mem_cons

theorem Node.fresh_append : Node.Fresh (ns ++ ms) ↔ Node.Fresh ns ∧ Node.Fresh ms := List.forall_mem_append

theorem Node.fresh_node : Node.Fresh (n :: ns ++ ms) ↔ (n.isFresh = true ∧ Node.Fresh ns) ∧ Node.Fresh ms :=
  fresh_append.trans (and_congr fresh_cons .rfl)

/-- An expression without type. -/
theorem Expr.hasSound_untyped (h : (e.type?.isNone && (e.isAll || e.label? != some .all)) = true) : e.HasSound := by
  obtain ⟨untyped, owner⟩ := (Bool.and_eq_true _ _).mp h
  replace untyped := Option.isNone_iff_eq_none.mp untyped
  refine ⟨fun t ht => ?_, fun label => ⟨?_, untyped⟩⟩
  · rw [untyped] at ht
    cases ht
  · rw [label] at owner
    simpa using owner

theorem Expr.hasSound_literal (h : (i.type.all fun t => t.isPublic && t.isLawful && t.type.isLiteral) = true) :
    ∀ t, i.type = some t → t.Sound ∧ t.Declarable := by
  intro t ht
  rw [ht] at h
  simp only [Option.all_some, Bool.and_eq_true] at h
  obtain ⟨⟨visible, lawful⟩, literal⟩ := h
  have isOpen : t.IsOpen := AnnTy.isOpen_of_lawful (fun _ => visible) lawful
  refine ⟨⟨?_, isOpen⟩, isOpen, .inl lawful⟩
  obtain ⟨type, _⟩ := t
  cases type with
  | numLit | boolLit => trivial
  | _ => cases literal

end Fresh

/-! ## Expressions -/

section Checking

variable {H : Prop} {c : CheckContext} {i : Info} {e p key : Expr} {r : Option Ref} {t : AnnTy}

theorem checkPrivateAnnotation_ok {site : Site} {x : Unit} (hidden : t.isPublic = false)
    (h : checkPrivateAnnotation site t = .ok x) : t.isLawful = true := by
  unfold checkPrivateAnnotation at h
  unfold AnnTy.isLawful
  rw [hidden]
  split at h
  · cases h
  · rename_i fits
    rw [Bool.not_eq_true, Bool.not_eq_false'] at fits
    show (t.type.canBePrivate && _) = true
    rw [fits, Bool.true_and]
    split at h
    · rename_i plain
      rw [plain]
      rfl
    · split at h
      · rename_i none
        rw [none]
        exact Bool.or_true _
      · cases h

/-- A type that passes obeys the laws. -/
theorem finishType_lawful {site : Site} {x : Unit}
    (h : (if t.isPublic then
        (if t.hom == .nonHomomorphic then .ok () else .error (site.atDecl (.publicHomomorphic t.type)))
      else checkPrivateAnnotation site t) = .ok x) : t.isLawful = true := by
  cases visible : t.isPublic with
  | false =>
    rw [visible] at h
    exact checkPrivateAnnotation_ok visible h
  | true =>
    rw [visible, if_pos rfl] at h
    unfold AnnTy.isLawful
    rw [if_pos visible]
    split at h
    · assumption
    · cases h

theorem resolveEnum_sound {s : Symbols} {site : Site} {u v : Ty} (hs : s.Sound) (hu : u.Sound)
    (h : resolveEnum s site u = .ok v) : v.Sound := by
  unfold resolveEnum at h
  split at h
  · split at h
    · split at h
      · rename_i e he
        cases h
        obtain ⟨d, hd, he⟩ := Option.bind_eq_some_iff.mp he
        exact (hs _ d hd e he).type
      · cases h
    · cases h
  · cases h
    exact hu

theorem finishType_sound {spot : AnnTy → Site} (type : H → t.type.Sound)
    (owner : H → t.privacy.label? = some .all → t.isPublic = true) : Typing H AnnTy.Written (finishType spot t) := by
  refine .withSymbols fun s => .attempt fun u hu => .attempt fun _ h => .pure fun known => ?_
  obtain ⟨_, lawful, -⟩ := except_bind_ok h
  have lawful := finishType_lawful (t := { t with type := u }) lawful
  exact AnnTy.written_iff.mpr
    ⟨resolveEnum_sound known.2 (type known.1) hu, AnnTy.isOpen_of_lawful (owner known.1) lawful, .inl lawful⟩

theorem typeIdent_sound {n : Ident} (fresh : (Node.expr (.ident i n r)).isFresh = true) :
    Typing H Expr.Sound (typeIdent c (.ident i n r)) := by
  have untyped : (Expr.ident i n r).HasSound := Expr.hasSound_untyped fresh
  have owner : (Expr.ident i n r).label? ≠ some .all := fun label => nomatch (untyped.keyword label).1
  unfold typeIdent
  split
  · exact .pure fun _ => (Expr.sound_leaf rfl).mpr untyped
  · exact .fail
  · refine .withSymbols fun s => ?_
    split
    · rename_i t ht
      refine .pure fun known => ?_
      have written : t.Written := known.2.type? ht
      exact .withType nofun written.sound (fun _ => written.declarable) owner
    · exact .fail
  · exact .fail

theorem typeMember_sound {n : Ident} {name : String} (ready : H → e.Sound) :
    Typing H Expr.Sound (typeMember c (.member i e n r) e name) := by
  unfold typeMember
  split
  · exact .fail
  · refine .ensure fun _ => .withSymbols fun s => ?_
    split
    · rename_i t ht
      refine .pure fun known => ?_
      have written : t.Written := known.2.type? ht
      exact .withType (ready known.1) written.sound (fun _ => written.declarable) nofun
    · exact .fail

/-- The key that names the owner of an element is a value, so it is not the keyword for everybody. -/
theorem Expr.HasSound.isNamed (h : key.HasSound) {k : Option Knowledge} {kt : Ty} {q : Expr} {fit : Fit} {l : Label}
    (address : kt.same (.address false) = true) (fits : key.fits k (.owned kt q .nonHomomorphic) = .ok fit)
    (used : fit ≠ .no) (label : key.label? = some l) : l ≠ .all := by
  rintro rfl
  have untyped := (h.keyword label).2
  have type : key.checkedType = .plain .bool := by
    unfold Expr.checkedType
    rw [untyped]
    rfl
  unfold Expr.fits at fits
  obtain ⟨converts, hconverts, fits⟩ := except_bind_ok fits
  split at fits
  · cases fits
    exact used rfl
  · rename_i legal
    unfold Expr.convertsTo? at hconverts
    split at hconverts
    · cases hconverts
    · cases hconverts
      refine legal ?_
      unfold Expr.convertsTo
      rw [type]
      cases kt with
      | address => rfl
      | _ => cases address

theorem typeIndex_sound (base : H → e.Sound) (index : H → key.Sound) :
    Typing H Expr.Sound (typeIndex c i e key r) := by
  have typed {e : Expr} {v : AnnTy} (base : e.Sound) (index : key.Sound) (hv : v.Written) :
      ((Expr.index i e key r).withType v).Sound := by
    refine .withType ?_ hv.sound (fun _ => hv.declarable) nofun
    exact List.forall_mem_append.mpr ⟨base, index⟩
  refine .ensure fun _ => ?_
  split
  · rename_i m kt label v container
    refine .attempt fun fit fits => .ensure fun used => ?_
    have type (h : H) : (Ty.mapping m kt label v).Sound := container ▸ (base h).self.checkedType.1
    split
    · exact .pure fun h => typed (base h) (index h) (base h).self.checkedType.1.elementD
    · split
      · exact .fail
      · rename_i l hl
        refine .pure fun h => ?_
        have address : kt.same (.address false) = true := (type h).1.resolve_left nofun
        have named : l ≠ .all := (index h).self.isNamed address fits (by simpa using used) hl
        have there : e.type? = some e.checkedType := by
          unfold Expr.checkedType at container ⊢
          cases he : e.type? with
          | some t => rfl
          | none =>
            rw [he] at container
            cases container
        have owned : (e.checkedType.instantiate m (l, key.id)).Sound :=
          AnnTy.instantiate_sound named (base h).self.checkedType
        have base' : (e.withType (e.checkedType.instantiate m (l, key.id))).Sound := by
          refine .withType (fun x hx => base h x (List.mem_of_mem_tail hx)) owned (fun declared => ?_) fun label => ?_
          · exact ((base h).self.type _ there).2 declared |>.instantiate named
          · exact nomatch there.symm.trans ((base h).self.keyword label).2
        exact typed base' (index h) owned.1.elementD
  · rename_i u _ _
    split
    · rename_i v hv
      exact .ensure fun _ => .ensure fun _ => .pure fun h =>
        typed (base h) (index h) ((base h).self.checkedType.1.element hv)
    · exact .fail

theorem typeReclassify_sound {m : ReclassifyForm} {hom : Option Hom} (value : H → e.Sound) (owner : H → p.Sound) :
    Typing H Expr.Sound (typeReclassify c i m e p hom) := by
  unfold typeReclassify
  dsimp only
  split
  · exact .fail
  · refine .ensure fun _ => .ensure fun _ => .attempt fun _ _ => .ensure fun _ => .attempt fun _ _ => .pure fun h => ?_
    refine .withType (List.forall_mem_append.mpr ⟨value h, owner h⟩) ⟨(value h).self.checkedType.1, ?_⟩ nofun nofun
    refine ⟨fun label => ((owner h).self.keyword label).1, fun visible => ?_⟩
    replace visible : p.isAll = true := visible
    show (if (p.isAll && _) = true then _ else _) = Hom.nonHomomorphic
    rw [visible, Bool.true_and]
    split
    · rfl
    · rename_i plain
      simpa using plain

theorem Expr.castResult_sound {k : Option Knowledge} {site : Site} {u : Ty} (hu : u.Sound)
    (h : e.castResult k site u = .ok t) : t.Sound := by
  have mine : (AnnTy.owned u .meLabel .nonHomomorphic).Sound := ⟨hu, nofun, fun _ => rfl⟩
  unfold castResult at h
  split at h
  · obtain ⟨_, _, h⟩ := except_bind_ok h
    cases h
    exact AnnTy.sound_plain hu
  · obtain ⟨fit, -, h⟩ := except_bind_ok h
    split at h
    · cases h
    · obtain ⟨_, _, h⟩ := except_bind_ok h
      cases h
      exact mine

theorem typeCast_sound {u : Ty} {b : Bool} (type : H → u.Sound) (value : H → e.Sound) :
    Typing H Expr.Sound (typeCast c i u e b) := by
  refine .attempt fun _ _ => .ensure fun _ => .attempt fun r hr => .pure fun h => ?_
  exact .withType (value h) (Expr.castResult_sound (type h) hr) nofun nofun

theorem typeCall_sound {f : Expr} {as : List Expr} {o : Int} {k : Option CircuitVar} (func : H → f.Sound)
    (args : H → ∀ a ∈ as, a.Sound) : Typing H Expr.Sound (typeCall c i f as o k) := by
  have typed {f : Expr} {as : List Expr} {u : AnnTy} (func : f.Sound) (args : ∀ a ∈ as, a.Sound) (hu : u.Sound)
      (declared : (Expr.call i f as o k).isDerived = false → u.Declarable) :
      ((Expr.call i f as o k).withType u).Sound :=
    .withType (List.forall_mem_append.mpr ⟨func, Expr.allSound_iff.mpr args⟩) hu declared nofun
  have derived {as : List Expr} (cast : (Expr.call i f as o k).isCastCall = true) :
      (Expr.call i f as o k).isDerived = true := by
    cases f with
    | operator => rfl
    | _ => exact cast
  unfold typeCall
  dsimp only
  split
  · refine OpCall.type_sound fun h => ⟨args h, fun t ht => ?_⟩
    obtain ⟨sound, declared⟩ := (func h).self.type t ht
    exact AnnTy.written_iff.mpr ⟨sound.1, declared rfl⟩
  · refine .withSymbols fun s => ?_
    split
    · rename_i cast
      split
      · split
        · exact .fail
        · rename_i t ht
          refine .attempt fun r hr => .pure fun h => ?_
          obtain ⟨d, hd, ht⟩ := Option.bind_eq_some_iff.mp ht
          refine typed (func h.1) (args h.1) (Expr.castResult_sound (h.2 _ d hd t ht).type hr) fun computed => ?_
          rw [derived cast] at computed
          cases computed
      · exact .fail
      · exact .fail
    · split
      · split
        · rename_i params _ returns signature
          refine .ensure fun _ => .convertAll fun bs hbs => .pure fun h => ?_
          have type : (Ty.function params _ returns).Sound := signature ▸ (func h.1).self.checkedType.1
          have written : (returnType returns).Written := returnType_written (Param.allWritten_iff.mp type.2)
          refine typed (func h.1) ?_ written.sound fun _ => written.declarable
          refine Expr.coerceAll_sound (args h.1) (List.forall_mem_map.mpr fun p hp => ?_) hbs
          exact (Param.allWritten_iff.mp type.1 p hp).sound
        · exact .fail
      · exact .fail

/-! ### The walk -/

mutual

theorem Ty.check_sound {H : Prop} (k : Option Knowledge) (spot : Ty → Site) : ∀ t : Ty, Node.Fresh t.nodes →
    Typing H Ty.Sound (t.check k spot)
  | .mapping _ kt l v, h => by
    obtain ⟨hkey, hv⟩ := Node.fresh_append.mp h
    obtain ⟨⟨-, hkt⟩, -⟩ := Node.fresh_node.mp hkey
    refine (kt.check_sound k _ hkt).bind fun kt' => (v.check_sound k _ hv).bind fun v' =>
      .unlessStopped (.ensure fun named => .pure fun known => ⟨?_, known.2⟩)
    exact ((Bool.or_eq_true _ _).mp named).imp_left Option.isNone_iff_eq_none.mp
  | .array v none, h => (v.check_sound k _ (Node.fresh_cons.mp h).2).bind fun _ => .pure fun known => known.2
  | .array v (some n), h => by
    obtain ⟨⟨-, hv⟩, hn⟩ := Node.fresh_node.mp h
    exact (v.check_sound k _ hv).bind fun _ => (n.check_sound _ hn).bind fun _ => .pure fun known => known.1.2
  | .function ps _ rs, h => by
    obtain ⟨⟨-, hps⟩, hrs⟩ := Node.fresh_node.mp h
    refine (Param.checkAll_sound k _ [] ps hps nofun).bind fun _ => (Param.checkAll_sound k _ [] rs hrs nofun).bind
      fun _ => .pure fun known => ?_
    exact ⟨Param.allWritten_iff.mpr known.1.2, Param.allWritten_iff.mpr known.2⟩
  | .tuple _, h => nomatch (Node.fresh_cons.mp h).1
  | .elementary _, _ | .bool, _ | .boolLit _, _ | .number, _ | .numLit _, _ | .integer _ _, _ | .named _ _ _, _
  | .address _, _ | .cipher _ _, _ | .publicKey _, _ | .randomness _, _ => .pure fun _ => trivial

theorem AnnTy.check_sound {H : Prop} (k : Option Knowledge) (spot : AnnTy → Site) : ∀ t : AnnTy, Node.Fresh t.nodes →
    Typing H AnnTy.Written (t.check k spot)
  | ⟨t, p, _, _, _⟩, h => by
    obtain ⟨⟨-, ht⟩, hp⟩ := Node.fresh_node.mp h
    refine .unlessStopped ((t.check_sound k _ ht).bind fun t' => (p.check_sound _ hp).bind fun p' => .unlessStopped ?_)
    exact finishType_sound (fun known => known.1.2) fun known label => (known.2.self.keyword label).1

theorem Param.checkAll_sound {H : Prop} (k : Option Knowledge) (spot : List Param → Site) : ∀ ds ps : List Param,
    Node.Fresh (Param.nodesAll ps) → (H → ∀ p ∈ ds, p.type.Written) →
    Typing H (fun ps' => ∀ p ∈ ps', p.type.Written) (Param.checkAll k spot ds ps)
  | ds, [], _, hds => .pure hds
  | ds, ⟨i, ks, t, n, s, o⟩ :: ps, h, hds => by
    obtain ⟨hp, hps⟩ := Node.fresh_append.mp h
    obtain ⟨⟨-, ht⟩, -⟩ := Node.fresh_node.mp hp
    refine (t.check_sound k _ ht).bind fun t' => (Typing.setType And.right).bind fun _ => ?_
    refine Param.checkAll_sound k spot _ ps hps fun known => ?_
    exact List.forall_mem_append.mpr ⟨hds known.1.1, List.forall_mem_singleton.mpr known.1.2⟩

theorem Info.checkType_sound {H : Prop} (k : Option Knowledge) (spot : Info → Site) : ∀ i : Info,
    Node.Fresh i.typeNodes → Typing H (fun i' => ∀ t, i'.type = some t → t.Written) (i.checkType k spot)
  | ⟨_, _, some t, _, _⟩, h => (t.check_sound k _ h).bind fun t' => .pure fun known _ same => by
    cases same
    exact known.2
  | ⟨_, _, none, _, _⟩, _ => .pure nofun

/-- The types found in an expression are sound. -/
theorem Expr.check_sound {H : Prop} (c : CheckContext) : ∀ e : Expr, Node.Fresh e.nodes →
    Typing H Expr.Sound (e.check c)
  | .call _ f as _ _, h => by
    obtain ⟨⟨-, hf⟩, has⟩ := Node.fresh_node.mp h
    refine .unlessStopped ((f.check_sound _ hf).bind fun f' => ?_)
    refine (Expr.checkAll_sound c.knowledge _ [] as has nofun).bind fun as' => .unlessStopped ?_
    exact typeCall_sound (fun known => known.1.2) And.right
  | .new i as, h => by
    obtain ⟨⟨-, hi⟩, has⟩ := Node.fresh_node.mp h
    refine .unlessStopped ((i.checkType_sound c.knowledge _ hi).bind fun i' => ?_)
    refine (Expr.checkAll_sound c.knowledge _ [] as has nofun).bind fun as' => .pure fun known => ?_
    refine Expr.sound_new.mpr ⟨⟨fun t ht => ?_, nofun⟩, known.2⟩
    exact ⟨(known.1.2 t ht).sound, fun _ => (known.1.2 t ht).declarable⟩
  | .cast _ t e _, h => by
    obtain ⟨⟨-, ht⟩, he⟩ := Node.fresh_node.mp h
    refine .unlessStopped ((t.check_sound c.knowledge _ ht).bind fun t' => (e.check_sound _ he).bind fun e' => ?_)
    exact .unlessStopped (typeCast_sound (fun known => known.1.2) And.right)
  | .arrayLit i vs b, h => by
    obtain ⟨whole, hvs⟩ := Node.fresh_cons.mp h
    refine (Expr.checkAll_sound c.knowledge _ [] vs hvs nofun).bind fun vs' => .pure fun known => ?_
    exact Expr.sound_arrayLit.mpr ⟨⟨(Expr.hasSound_untyped (e := .arrayLit i vs b) whole).type, nofun⟩, known.2⟩
  | .tuple i es, h => by
    obtain ⟨-, hes⟩ := Node.fresh_cons.mp h
    refine (Expr.checkAll_sound c.knowledge _ [] es hes nofun).bind fun es' => .unlessStopped (.pure fun known => ?_)
    have written := AnnTy.written_tuple (List.forall_mem_map.mpr fun x hx => (known.2 x hx).self.checkedType)
    exact .withType (Expr.allSound_iff.mpr known.2) written.sound (fun _ => written.declarable) nofun
  | .ident _ _ _, h => .unlessStopped (typeIdent_sound (Node.fresh_cons.mp h).1)
  | .member _ e _ _, h => by
    obtain ⟨⟨-, he⟩, -⟩ := Node.fresh_node.mp h
    exact (e.check_sound _ he).bind fun e' => .unlessStopped (typeMember_sound And.right)
  | .index _ e k _, h => by
    obtain ⟨⟨-, he⟩, hk⟩ := Node.fresh_node.mp h
    exact (e.check_sound _ he).bind fun e' => (k.check_sound _ hk).bind fun k' =>
      .unlessStopped (typeIndex_sound (fun known => known.1.2) And.right)
  | .reclassify _ _ e p _, h => by
    obtain ⟨⟨-, he⟩, hp⟩ := Node.fresh_node.mp h
    exact (e.check_sound _ he).bind fun e' => (p.check_sound _ hp).bind fun p' =>
      .unlessStopped (typeReclassify_sound (fun known => known.1.2) And.right)
  | .me i, _ => .unlessStopped (.pure fun _ =>
      .withType nofun (AnnTy.sound_plain trivial) (fun _ => ⟨AnnTy.isOpen_plain _, .inl rfl⟩) nofun)
  | .boolLit i v, h | .numLit i v x, h => .pure fun _ => (Expr.sound_leaf rfl).mpr
      ⟨fun t ht => (Expr.hasSound_literal (Node.fresh_cons.mp h).1 t ht).imp_right fun d _ => d, nofun⟩
  | .operator .., h | .all _, h => .pure fun _ => (Expr.sound_leaf rfl).mpr (Expr.hasSound_untyped (Node.fresh_cons.mp h).1)

theorem Expr.checkAll_sound {H : Prop} (k : Option Knowledge) (spot : List Expr → Site) : ∀ ds es : List Expr,
    Node.Fresh (Expr.nodesAll es) → (H → ∀ e ∈ ds, e.Sound) →
    Typing H (fun es' => ∀ e ∈ es', e.Sound) (Expr.checkAll k spot ds es)
  | ds, [], _, hds => .pure hds
  | ds, e :: es, h, hds => by
    obtain ⟨he, hes⟩ := Node.fresh_append.mp h
    refine (e.check_sound _ he).bind fun e' => Expr.checkAll_sound k spot _ es hes fun known => ?_
    exact List.forall_mem_append.mpr ⟨hds known.1, List.forall_mem_singleton.mpr known.2⟩

end

end Checking

end Shroud
