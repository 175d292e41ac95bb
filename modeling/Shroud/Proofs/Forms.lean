import Shroud.Proofs.CallGraph
import Shroud.Proofs.Invariants
import Shroud.Proofs.Loops
import Shroud.Proofs.Uses

/-!
# Assignments that pass the check of types

While types are checked, declarations get new types, but what a variable is declared as and with which keywords never
changes. So an assignment is judged by the keywords of the program as it was written.

**Result.** `SourceUnit.check_permitted`: in a program that passes the check, functions replace no final or constant
variable, constructors replace only such variables of the state, and constructors do not return early.
-/

namespace Shroud

/-! ## Forms of declarations -/

/-- What a variable is declared as, and with which keywords. -/
def Decl.form? : Decl → Option (DeclKind × List String)
  | .variable k _ ks _ => some (k, ks)
  | _ => none

/-- The same variables are declared in the same way, and the same numbers are those of functions. -/
structure Symbols.SameForms (s t : Symbols) : Prop where
  form : ∀ i, (t.find? i).bind Decl.form? = (s.find? i).bind Decl.form?
  function : ∀ i, ((t.find? i).bind Decl.function?).isSome = ((s.find? i).bind Decl.function?).isSome

namespace Symbols.SameForms

theorem refl (s : Symbols) : s.SameForms s := ⟨fun _ => rfl, fun _ => rfl⟩

theorem trans {s t u : Symbols} (h : s.SameForms t) (h' : t.SameForms u) : s.SameForms u :=
  ⟨fun i => (h'.form i).trans (h.form i), fun i => (h'.function i).trans (h.function i)⟩

theorem modify (s : Symbols) (k : Nat) {f : Decl → Decl} (form : ∀ d, (f d).form? = d.form?)
    (function : ∀ d, (f d).function?.isSome = d.function?.isSome) : s.SameForms (s.modify k f) := by
  refine ⟨fun i => ?_, fun i => ?_⟩
  · rw [find?_modify]
    split
    · cases s.find? i with
      | none => rfl
      | some d => exact form d
    · rfl
  · rw [find?_modify]
    split
    · cases s.find? i with
      | none => rfl
      | some d => exact function d
    · rfl

theorem setType (s : Symbols) (i : Nat) (t : AnnTy) : s.SameForms (s.setType i t) :=
  modify s i (fun d => by cases d <;> rfl) fun d => by cases d <;> rfl

theorem setFunction (s : Symbols) (f : FunctionDef) : s.SameForms (s.setFunction f) :=
  modify s f.id (fun d => by cases d <;> rfl) fun d => by cases d <;> rfl

end Symbols.SameForms

/-! ## Checking keeps the forms -/

/-- Whatever the activity does, variables stay declared as they were. -/
def KeepsForms {α : Type} (x : CheckM α) : Prop := ∀ s : CheckState, s.symbols.SameForms (x s).2.symbols

namespace KeepsForms

variable {α β : Type} {x : CheckM α} {f : α → CheckM β}

theorem pure (a : α) : KeepsForms (Pure.pure a) := fun s => .refl s.symbols

theorem bind (hx : KeepsForms x) (hf : ∀ a, KeepsForms (f a)) : KeepsForms (x >>= f) :=
  fun s => (hx s).trans (hf (x s).1 (x s).2)

theorem fail {e : Error} {a : α} : KeepsForms (CheckM.fail e a) := fun s => .refl s.symbols

theorem stopped : KeepsForms CheckM.stopped := fun s => .refl s.symbols

theorem symbols : KeepsForms CheckM.symbols := fun s => .refl s.symbols

theorem warn {w : Warning} : KeepsForms (CheckM.warn w) := fun s => .refl s.symbols

theorem setType {id : Nat} {t : AnnTy} : KeepsForms (CheckM.setType id t) := fun s => .setType s.symbols id t

theorem setFunction {g : FunctionDef} : KeepsForms (CheckM.setFunction g) := fun s => .setFunction s.symbols g

theorem attempt {ε : Except Error β} {a : α} {g : β → CheckM α} (h : ∀ b, KeepsForms (g b)) :
    KeepsForms (CheckM.attempt ε a g) := by
  cases ε with
  | error e => exact fail
  | ok b => exact h b

theorem ensure {b : Bool} {e : Error} {a : α} (hx : KeepsForms x) : KeepsForms (CheckM.ensure b e a x) := by
  cases b with
  | false => exact fail
  | true => exact hx

theorem convert {c : Conversion} {put : Expr → α} {g : Expr → CheckM α} (h : ∀ e, KeepsForms (g e)) :
    KeepsForms (CheckM.convert c put g) := by
  unfold CheckM.convert
  split
  · exact h _
  · exact fail

theorem convertAll {c : List Expr × Except Error (List Expr)} {put : List Expr → α} {g : List Expr → CheckM α}
    (h : ∀ es, KeepsForms (g es)) : KeepsForms (CheckM.convertAll c put g) := by
  unfold CheckM.convertAll
  split
  · exact h _
  · exact fail

theorem unlessStopped {a : α} (hx : KeepsForms x) :
    KeepsForms (do if ← CheckM.stopped then return a else x) := by
  refine stopped.bind fun stop => ?_
  cases stop with
  | true => exact pure a
  | false => exact hx

theorem mapM {f : α → CheckM β} (h : ∀ a, KeepsForms (f a)) (xs : List α) : KeepsForms (xs.mapM f) := by
  induction xs with
  | nil =>
    rw [List.mapM_nil]
    exact pure []
  | cons x xs ih =>
    rw [List.mapM_cons]
    exact (h x).bind fun _ => ih.bind fun _ => pure _

end KeepsForms

section Walk

open KeepsForms

variable {c : CheckContext}

theorem finishType_keepsForms (spot : AnnTy → Site) (t : AnnTy) : KeepsForms (finishType spot t) :=
  symbols.bind fun _ => attempt fun _ => attempt fun _ => pure _

theorem typeIdent_keepsForms (e : Expr) : KeepsForms (typeIdent c e) := by
  unfold typeIdent
  split
  · exact pure _
  · exact fail
  · refine symbols.bind fun s => ?_
    split
    · exact pure _
    · exact fail
  · exact fail

theorem typeMember_keepsForms (e base : Expr) (name : String) : KeepsForms (typeMember c e base name) := by
  unfold typeMember
  split
  · exact fail
  · refine ensure (symbols.bind fun s => ?_)
    split
    · exact pure _
    · exact fail

theorem typeIndex_keepsForms (i : Info) (e k : Expr) (t : Option Ref) : KeepsForms (typeIndex c i e k t) := by
  refine ensure ?_
  split
  · refine attempt fun _ => ensure ?_
    split
    · exact pure _
    · split
      · exact fail
      · exact pure _
  · split
    · exact ensure (ensure (pure _))
    · exact fail

theorem typeReclassify_keepsForms (i : Info) (m : ReclassifyForm) (e p : Expr) (h : Option Hom) :
    KeepsForms (typeReclassify c i m e p h) := by
  unfold typeReclassify
  dsimp only
  split
  · exact fail
  · exact ensure (ensure (attempt fun _ => ensure (attempt fun _ => pure _)))

theorem typeCast_keepsForms (i : Info) (t : Ty) (e : Expr) (b : Bool) : KeepsForms (typeCast c i t e b) :=
  attempt fun _ => ensure (attempt fun _ => pure _)

namespace OpCall

variable {o : OpCall}

theorem coerceAll_keepsForms {ts : List AnnTy} {next : OpCall → CheckM Expr} (h : ∀ o, KeepsForms (next o)) :
    KeepsForms (o.coerceAll c ts next) :=
  symbols.bind fun _ => convertAll fun _ => h _

theorem coerceAt_keepsForms {n : Nat} {t : AnnTy} {next : OpCall → CheckM Expr} (h : ∀ o, KeepsForms (next o)) :
    KeepsForms (o.coerceAt c n t next) := by
  refine symbols.bind fun s => ?_
  split
  · exact fail
  · exact convert fun _ => h _

theorem typePlain_keepsForms : KeepsForms (o.typePlain c) := by
  have finish (o : OpCall) (operands : Combined) (result : Ty) (isPrivate : Bool) :
      KeepsForms (typePlain.finish c o operands result isPrivate) := by
    unfold typePlain.finish
    dsimp only
    split
    · split
      · exact coerceAt_keepsForms fun _ => pure _
      · exact coerceAll_keepsForms fun _ => pure _
    · exact pure _
  refine attempt fun _ => attempt fun r => ?_
  obtain ⟨operands, result⟩ := r
  dsimp only
  split
  · exact fail
  · exact fail
  · split
    · refine attempt fun _ => ?_
      split
      · exact warn.bind fun _ => finish _ _ _ _
      · exact finish _ _ _ _
    · exact finish _ _ _ _

theorem typeChoice_keepsForms : KeepsForms (o.typeChoice c) := by
  have finish (o : OpCall) (t : AnnTy) : KeepsForms (typeChoice.finish c o t) :=
    coerceAt_keepsForms fun _ => coerceAt_keepsForms fun _ => pure _
  unfold typeChoice
  split
  · refine ensure (attempt fun common => ?_)
    split
    · split
      · exact finish _ _
      · refine attempt fun owner => ?_
        split
        · exact fail
        · exact finish _ _
        · exact fail
    · exact fail
  · exact fail
  · exact fail

theorem typeHomomorphic_keepsForms : KeepsForms (o.typeHomomorphic c) := by
  refine attempt fun _ => attempt fun h => ?_
  cases h with
  | none => exact fail
  | some h => exact coerceAll_keepsForms fun _ => pure _

theorem type_keepsForms : KeepsForms (o.type c) := by
  unfold type
  split
  · exact pure _
  · split
    · exact typeHomomorphic_keepsForms
    · split
      · exact typeChoice_keepsForms
      · exact typePlain_keepsForms

end OpCall

theorem typeCall_keepsForms (i : Info) (f : Expr) (as : List Expr) (o : Int) (k : Option CircuitVar) :
    KeepsForms (typeCall c i f as o k) := by
  unfold typeCall
  dsimp only
  split
  · exact OpCall.type_keepsForms
  · refine symbols.bind fun s => ?_
    split
    · split
      · split
        · exact fail
        · exact attempt fun _ => pure _
      · exact fail
      · exact fail
    · split
      · split
        · exact ensure (convertAll fun _ => pure _)
        · exact fail
      · exact fail

mutual

theorem Ty.check_keepsForms (k : Option Knowledge) (spot : Ty → Site) : ∀ t : Ty, KeepsForms (t.check k spot)
  | .mapping _ kt _ v => (kt.check_keepsForms k _).bind fun _ => (v.check_keepsForms k _).bind fun _ =>
    unlessStopped (ensure (pure _))
  | .array v none => (v.check_keepsForms k _).bind fun _ => pure _
  | .array v (some n) => (v.check_keepsForms k _).bind fun _ => (n.check_keepsForms _).bind fun _ => pure _
  | .function ps _ rs => (Param.checkAll_keepsForms k _ [] ps).bind fun _ =>
    (Param.checkAll_keepsForms k _ [] rs).bind fun _ => pure _
  | .elementary _ | .bool | .boolLit _ | .number | .numLit _ | .integer _ _ | .named _ _ _ | .address _ | .cipher _ _
  | .publicKey _ | .randomness _ | .tuple _ => pure _

theorem AnnTy.check_keepsForms (k : Option Knowledge) (spot : AnnTy → Site) : ∀ t : AnnTy,
    KeepsForms (t.check k spot)
  | ⟨t, p, _, _, _⟩ => unlessStopped <| (t.check_keepsForms k _).bind fun _ => (p.check_keepsForms _).bind fun _ =>
    unlessStopped (finishType_keepsForms _ _)

theorem Param.checkAll_keepsForms (k : Option Knowledge) (spot : List Param → Site) : ∀ ds ps : List Param,
    KeepsForms (Param.checkAll k spot ds ps)
  | _, [] => pure _
  | _, ⟨_, _, t, _, _, _⟩ :: ps => (t.check_keepsForms k _).bind fun _ => setType.bind fun _ =>
    Param.checkAll_keepsForms k spot _ ps

theorem Info.checkType_keepsForms (k : Option Knowledge) (spot : Info → Site) : ∀ i : Info,
    KeepsForms (i.checkType k spot)
  | ⟨_, _, some t, _, _⟩ => (t.check_keepsForms k _).bind fun _ => pure _
  | ⟨_, _, none, _, _⟩ => pure _

theorem Expr.check_keepsForms (c : CheckContext) : ∀ e : Expr, KeepsForms (e.check c)
  | .call _ f as _ _ => unlessStopped <| (f.check_keepsForms _).bind fun _ =>
    (Expr.checkAll_keepsForms c.knowledge _ [] as).bind fun _ => unlessStopped (typeCall_keepsForms _ _ _ _ _)
  | .new i as => unlessStopped <| (i.checkType_keepsForms c.knowledge _).bind fun _ =>
    (Expr.checkAll_keepsForms c.knowledge _ [] as).bind fun _ => pure _
  | .cast _ t e _ => unlessStopped <| (t.check_keepsForms c.knowledge _).bind fun _ =>
    (e.check_keepsForms _).bind fun _ => unlessStopped (typeCast_keepsForms _ _ _ _)
  | .arrayLit _ vs _ => (Expr.checkAll_keepsForms c.knowledge _ [] vs).bind fun _ => pure _
  | .tuple _ es => (Expr.checkAll_keepsForms c.knowledge _ [] es).bind fun _ => unlessStopped (pure _)
  | .ident _ _ _ => unlessStopped (typeIdent_keepsForms _)
  | .member _ e _ _ => (e.check_keepsForms _).bind fun _ => unlessStopped (typeMember_keepsForms _ _ _)
  | .index _ e k _ => (e.check_keepsForms _).bind fun _ => (k.check_keepsForms _).bind fun _ =>
    unlessStopped (typeIndex_keepsForms _ _ _ _)
  | .reclassify _ _ e p _ => (e.check_keepsForms _).bind fun _ => (p.check_keepsForms _).bind fun _ =>
    unlessStopped (typeReclassify_keepsForms _ _ _ _ _)
  | .me _ => unlessStopped (pure _)
  | .operator .. | .boolLit .. | .numLit .. | .all _ => pure _

theorem Expr.checkAll_keepsForms (k : Option Knowledge) (spot : List Expr → Site) : ∀ ds es : List Expr,
    KeepsForms (Expr.checkAll k spot ds es)
  | _, [] => pure _
  | _, e :: es => (e.check_keepsForms _).bind fun _ => Expr.checkAll_keepsForms k spot _ es

end

end Walk

/-! ## Places stay places -/

section Replaced

theorem Expr.replacedAll_append (ds es : List Expr) :
    replaced.replacedAll (ds ++ es) = replaced.replacedAll ds ++ replaced.replacedAll es := by
  induction ds with
  | nil => rfl
  | cons d ds ih => rw [List.cons_append, replaced.replacedAll, ih, replaced.replacedAll, List.append_assoc]

theorem OpCall.ends_coerceAll_call {c : CheckContext} {o : OpCall} {ts : List AnnTy} {next : OpCall → CheckM Expr}
    {P : Expr → Prop} (h : ∀ o, Ends P (next o)) : Ends P (o.coerceAll c ts next) :=
  .withSymbols fun _ => .convertAll fun _ _ => h _

theorem OpCall.ends_coerceAt_call {c : CheckContext} {o : OpCall} {n : Nat} {t : AnnTy} {next : OpCall → CheckM Expr}
    {P : Expr → Prop} (h : ∀ o, Ends P (next o)) : Ends P (o.coerceAt c n t next) := by
  refine .withSymbols fun s => ?_
  split
  · exact .fail
  · exact .convert fun _ _ => h _

/-- An assignment to the expression would replace nothing, and it is not the keyword for everybody. -/
def Expr.IsPlaceless (e : Expr) : Prop := e.replaced = [] ∧ e.isAll = false

/-- An assignment to either expression replaces the same, and only both are the keyword for everybody. -/
structure Expr.SamePlaces (e e' : Expr) : Prop where
  replaced : e'.replaced = e.replaced
  isAll : e'.isAll = e.isAll

theorem Expr.IsPlaceless.same {e e' : Expr} (h' : e'.IsPlaceless) (h : e.IsPlaceless) : e.SamePlaces e' :=
  ⟨h'.1.trans h.1.symm, h'.2.trans h.2.symm⟩

theorem OpCall.type_placeless {c : CheckContext} {o : OpCall} : Ends Expr.IsPlaceless (o.type c) := by
  have plain (o : OpCall) (operands : Combined) (result : Ty) (isPrivate : Bool) :
      Ends Expr.IsPlaceless (typePlain.finish c o operands result isPrivate) := by
    unfold typePlain.finish
    dsimp only
    split
    · split
      · exact ends_coerceAt_call fun _ => .pure ⟨rfl, rfl⟩
      · exact ends_coerceAll_call fun _ => .pure ⟨rfl, rfl⟩
    · exact .pure ⟨rfl, rfl⟩
  have choice (o : OpCall) (t : AnnTy) : Ends Expr.IsPlaceless (typeChoice.finish c o t) :=
    ends_coerceAt_call fun _ => ends_coerceAt_call fun _ => .pure ⟨rfl, rfl⟩
  unfold type
  split
  · exact .pure ⟨rfl, rfl⟩
  · split
    · refine .attempt fun _ _ => .attempt fun h _ => ?_
      cases h with
      | none => exact .fail
      | some h => exact ends_coerceAll_call fun _ => .pure ⟨rfl, rfl⟩
    · split
      · unfold typeChoice
        split
        · refine .ensure fun _ => .attempt fun common _ => ?_
          split
          · split
            · exact choice _ _
            · refine .attempt fun owner _ => ?_
              split
              · exact .fail
              · exact choice _ _
              · exact .fail
          · exact .fail
        · exact .fail
        · exact .fail
      · refine .attempt fun _ _ => .attempt fun r _ => ?_
        obtain ⟨operands, result⟩ := r
        dsimp only
        split
        · exact .fail
        · exact .fail
        · split
          · refine .attempt fun _ _ => ?_
            split
            · exact Ends.warn.bind fun _ => (plain _ _ _ _).imp fun _ h _ => h
            · exact plain _ _ _ _
          · exact plain _ _ _ _

theorem typeCall_placeless {c : CheckContext} {i : Info} {f : Expr} {as : List Expr} {o : Int} {k : Option CircuitVar} :
    Ends Expr.IsPlaceless (typeCall c i f as o k) := by
  unfold typeCall
  dsimp only
  split
  · exact OpCall.type_placeless
  · refine .withSymbols fun s => ?_
    split
    · split
      · split
        · exact .fail
        · exact .attempt fun _ _ => .pure ⟨rfl, rfl⟩
      · exact .fail
      · exact .fail
    · split
      · split
        · exact .ensure fun _ => .convertAll fun _ _ => .pure ⟨rfl, rfl⟩
        · exact .fail
      · exact .fail

theorem typeIndex_placeless {c : CheckContext} {i : Info} {e k : Expr} {t : Option Ref} :
    Ends Expr.IsPlaceless (typeIndex c i e k t) := by
  refine .ensure fun _ => ?_
  split
  · refine .attempt fun _ _ => .ensure fun _ => ?_
    split
    · exact .pure ⟨rfl, rfl⟩
    · split
      · exact .fail
      · exact .pure ⟨rfl, rfl⟩
  · split
    · exact .ensure fun _ => .ensure fun _ => .pure ⟨rfl, rfl⟩
    · exact .fail

theorem typeMember_placeless {c : CheckContext} {i : Info} {e b : Expr} {n : Ident} {t : Option Ref} {name : String} :
    Ends Expr.IsPlaceless (typeMember c (.member i e n t) b name) := by
  unfold typeMember
  split
  · exact .fail
  · refine .ensure fun _ => .withSymbols fun s => ?_
    split
    · exact .pure ⟨rfl, rfl⟩
    · exact .fail

theorem typeIdent_samePlaces {c : CheckContext} {i : Info} {n : Ident} {t : Option Ref} :
    Ends (Expr.SamePlaces (.ident i n t)) (typeIdent c (.ident i n t)) := by
  have same (u : AnnTy) : (Expr.ident i n t).SamePlaces ((Expr.ident i n t).withType u) := by
    cases t <;> exact ⟨rfl, rfl⟩
  unfold typeIdent
  split
  · exact .pure ⟨rfl, rfl⟩
  · exact .fail
  · refine .withSymbols fun s => ?_
    split
    · exact .pure (same _)
    · exact .fail
  · exact .fail

theorem typeReclassify_placeless {c : CheckContext} {i : Info} {m : ReclassifyForm} {e p : Expr} {h : Option Hom} :
    Ends Expr.IsPlaceless (typeReclassify c i m e p h) := by
  unfold typeReclassify
  dsimp only
  split
  · exact .fail
  · exact .ensure fun _ => .ensure fun _ => .attempt fun _ _ => .ensure fun _ => .attempt fun _ _ => .pure ⟨rfl, rfl⟩

mutual

/-- Checking an expression keeps what an assignment to it replaces. -/
theorem Expr.check_samePlaces (c : CheckContext) : ∀ e : Expr, Ends e.SamePlaces (e.check c)
  | .call _ f as _ _ => .unlessStopped <| (f.check_settled _).bind fun _ =>
    (Expr.checkAll_settled c.knowledge _ [] as).bind fun _ =>
      (Ends.unlessStopped typeCall_placeless).imp fun _ h _ _ => h.same ⟨rfl, rfl⟩
  | .new i as => .unlessStopped <| (i.checkType_ends c.knowledge _).bind fun _ =>
    (Expr.checkAll_settled c.knowledge _ [] as).bind fun _ => .pure fun _ _ => ⟨rfl, rfl⟩
  | .cast _ t e _ => .unlessStopped <| (t.check_ends c.knowledge _).bind fun _ => (e.check_settled _).bind fun _ =>
    (Ends.unlessStopped (P := Expr.IsPlaceless) (.attempt fun _ _ => .ensure fun _ => .attempt fun _ _ =>
      .pure ⟨rfl, rfl⟩)).imp fun _ h _ _ => h.same ⟨rfl, rfl⟩
  | .arrayLit _ vs _ => (Expr.checkAll_settled c.knowledge _ [] vs).bind fun _ => .pure fun _ => ⟨rfl, rfl⟩
  | .tuple _ es => (Expr.checkAll_samePlaces c.knowledge _ [] es).bind fun es' =>
    (Ends.unlessStopped (P := fun e => e.replaced = Expr.replaced.replacedAll es' ∧ e.isAll = false)
      (.pure ⟨rfl, rfl⟩)).imp fun _ h hes => ⟨h.1.trans hes, h.2⟩
  | .ident _ _ _ => .unlessStopped typeIdent_samePlaces
  | .member _ e _ _ => (e.check_settled _).bind fun _ => (Ends.unlessStopped typeMember_placeless).imp fun _ h _ => h.same ⟨rfl, rfl⟩
  | .index _ e k _ => (e.check_settled _).bind fun _ => (k.check_settled _).bind fun _ =>
    (Ends.unlessStopped typeIndex_placeless).imp fun _ h _ _ => h.same ⟨rfl, rfl⟩
  | .reclassify _ _ e p _ => (e.check_settled _).bind fun _ => (p.check_settled _).bind fun _ =>
    (Ends.unlessStopped typeReclassify_placeless).imp fun _ h _ _ => h.same ⟨rfl, rfl⟩
  | .me _ => .unlessStopped (.pure ⟨rfl, rfl⟩)
  | .operator .. | .boolLit .. | .numLit .. | .all _ => .pure ⟨rfl, rfl⟩

theorem Expr.checkAll_samePlaces (k : Option Knowledge) (spot : List Expr → Site) : ∀ ds es : List Expr,
    Ends (fun es' => Expr.replaced.replacedAll es' = Expr.replaced.replacedAll ds ++ Expr.replaced.replacedAll es)
      (Expr.checkAll k spot ds es)
  | ds, [] => .pure (List.append_nil _).symm
  | ds, e :: es => (e.check_samePlaces _).bind fun e' => (Expr.checkAll_samePlaces k spot _ es).imp fun _ h he => by
    rw [h, Expr.replacedAll_append, List.append_assoc, Expr.replaced.replacedAll, Expr.replaced.replacedAll,
      Expr.replaced.replacedAll, List.append_nil, he.replaced]

end

end Replaced

/-! ## Assignments and returns that are permitted -/

/-- Keywords of variables that never change after construction. -/
def isFixing (keywords : List String) : Bool := keywords.contains "final" || keywords.contains "constant"

/-- The reference may be replaced: it leads to no fixed variable, except to one of the state in a constructor. -/
def Ref.Replaceable (symbols : Symbols) (constructs : Bool) (r : Ref) : Prop :=
  ∀ k ks, (symbols.decl? r).bind Decl.form? = some (k, ks) → isFixing ks = true → k = .stateVar ∧ constructs = true

/-- A statement that the check of types accepts in a constructor or in another function. -/
def Stmt.Permitted (symbols : Symbols) (constructs : Bool) : Stmt → Prop
  | .assign _ l _ _ _ => ∀ r ∈ l.replaced, r.Replaceable symbols constructs
  | .ret .. => constructs = false
  | _ => True

theorem Symbols.SameForms.decl? {s t : Symbols} (h : s.SameForms t) (r : Ref) :
    (t.decl? r).bind Decl.form? = (s.decl? r).bind Decl.form? := by
  cases r with
  | decl k i => exact h.form i
  | element | keyLabel => rfl

section Permitting

variable {symbols : Symbols} {b : BodyContext} {site : Site}

mutual

theorem Expr.checkAssignable_replaceable : ∀ l : Expr, l.checkAssignable symbols b site = .ok () →
    ∀ r ∈ l.replaced, r.Replaceable symbols b.isConstructor
  | .tuple _ es, h => Expr.checkAll_replaceable es h
  | .ident i n (some r), h => by
    refine List.forall_mem_singleton.mpr fun k ks form fixing => ?_
    unfold Expr.checkAssignable at h
    rw [Option.bind_some] at h
    obtain ⟨d, hd, form⟩ := Option.bind_eq_some_iff.mp form
    rw [hd] at h
    rcases d with ⟨k', n', ks', t⟩ | _ | _ | _
    · cases form
      dsimp only at h
      split at h
      · cases h
      · rename_i allowed
        have fixed : (Decl.variable k n' ks t).isFixed = true := fixing
        simpa [fixed] using allowed
    all_goals cases form
  | .ident _ _ none, _ | .operator .., _ | .call .., _ | .new .., _ | .cast .., _ | .boolLit .., _ | .numLit .., _
  | .arrayLit .., _ | .member .., _ | .index .., _ | .me _, _ | .all _, _ | .reclassify .., _ => nofun

theorem Expr.checkAll_replaceable : ∀ ls : List Expr, Expr.checkAssignable.checkAll symbols b site ls = .ok () →
    ∀ r ∈ Expr.replaced.replacedAll ls, r.Replaceable symbols b.isConstructor
  | [], _ => nofun
  | l :: ls, h => by
    obtain ⟨_, first, rest⟩ := except_bind_ok h
    exact List.forall_mem_append.mpr ⟨l.checkAssignable_replaceable first, Expr.checkAll_replaceable ls rest⟩

end

end Permitting

section Statements

variable {σ : Symbols} {H : Prop} {b : BodyContext} {i : StmtInfo}

theorem KeepsForms.keeps {α : Type} {x : CheckM α} (h : KeepsForms x) : Keeps σ.SameForms x := fun s hs => hs.trans (h s)

theorem Expr.check_upholds (c : CheckContext) (e : Expr) : Upholds σ.SameForms H (fun _ => True) (e.check c) :=
  .of_ends ((e.check_settled c).imp fun _ _ => trivial) (e.check_keepsForms c).keeps

theorem typeAssign_permitted {l r : Expr} {o : String} {x : Bool} :
    Upholds σ.SameForms H (fun _ => ∀ r ∈ l.replaced, r.Replaceable σ b.isConstructor) (typeAssign b i l r o x) := by
  refine .withSymbols fun s => .ensure fun _ => .convert fun _ _ => .attempt fun _ allowed => .pure fun known => ?_
  intro r hr k ks form
  exact Expr.checkAssignable_replaceable l allowed r hr k ks ((known.2.decl? r).trans form)

theorem typeReturn_permitted {e : Option Expr} :
    Upholds σ.SameForms H (fun _ => b.isConstructor = false) (typeReturn b i e) := by
  refine .withSymbols fun s => .ensure fun inside => ?_
  replace inside : b.isConstructor = false := by simpa using inside
  split
  · exact .ensure fun _ => .pure fun _ => inside
  · exact .convert fun _ _ => .pure fun _ => inside
  · exact .ensure fun _ => .convertAll fun _ _ => .attempt fun _ _ => .pure fun _ => inside

/-- All statements among the nodes are permitted. -/
def Node.Permitted (σ : Symbols) (constructs : Bool) (ns : List Node) : Prop :=
  ∀ s ∈ Node.stmts ns, s.Permitted σ constructs

theorem typeDeclare_upholds {v : LocalVar} {e : Option Expr} :
    Upholds σ.SameForms H (fun _ => True) (typeDeclare b i v e) := by
  refine .unlessStopped (.bind (.of_ends (P := fun _ => True) ?_ (KeepsForms.keeps ?_)) fun v => ?_)
  · exact (v.type.check_ends _ _).bind fun _ => Ends.setType.bind fun _ => .pure fun _ _ => trivial
  · exact (v.type.check_keepsForms _ _).bind fun _ => KeepsForms.setType.bind fun _ => .pure _
  · cases e with
    | none => exact .pure fun _ => trivial
    | some e =>
      exact (e.check_upholds _).bind fun e => .unlessStopped <| .withSymbols fun _ => .convert fun _ _ =>
        .pure fun _ => trivial

/-- What the check of types accepts is permitted. -/
theorem Stmt.check_permitted (b : BodyContext) (s : Stmt) :
    Upholds σ.SameForms H (fun _ => Node.Permitted σ b.isConstructor s.nodes) (s.check b) := by
  refine (check_each (E := fun _ _ => True) (N := fun _ => True) (P := fun s _ => s.Permitted σ b.isConstructor)
    (fun c e _ => e.check_upholds c) (fun s _ compound _ => ?_) (fun s simple _ => ?_) s fun _ _ => trivial).imp
      fun _ _ each => forall_mem_of_forall₂_left each
  · cases s with
    | ifThen | whileLoop | doWhile | forLoop | block | seq => trivial
    | _ => cases compound
  · cases s with
    | ret i e =>
      cases e with
      | none => exact .unlessStopped (typeReturn_permitted.imp fun _ _ h _ => h)
      | some e =>
        exact (e.check_upholds _).bind fun _ => .unlessStopped (typeReturn_permitted.imp fun _ _ h _ => h)
    | eval i e => exact (e.check_upholds _).bind fun _ => .pure fun _ _ => trivial
    | require i e =>
      exact (e.check_upholds _).bind fun _ => .unlessStopped <| .ensure fun _ => .attempt fun _ _ =>
        .pure fun _ _ => trivial
    | assign i l r o x =>
      refine .bind (.of_ends (l.check_samePlaces _) (l.check_keepsForms _).keeps) fun l' =>
        (r.check_upholds _).bind fun r' => .unlessStopped (typeAssign_permitted.imp fun _ known h _ r hr => ?_)
      exact h r (known.1.2.replaced.symm ▸ hr)
    | declare i v e => exact typeDeclare_upholds.imp fun _ _ _ _ => trivial
    | breakLoop | continueLoop | compute | enterKey | comment | blank => exact .pure fun _ _ => trivial
    | ifThen | whileLoop | doWhile | forLoop | block | seq => cases simple

end Statements

/-! ## Whole programs -/

section Programs

variable {σ : Symbols}

/-- The assignments and returns of the body are permitted. -/
def FunctionDef.Permitted (σ : Symbols) (f : FunctionDef) : Prop := Node.Permitted σ f.isConstructor f.body.nodes

theorem FunctionDef.check_permitted (site : Site) (f : FunctionDef) :
    Upholds σ.SameForms True (fun _ => f.Permitted σ) (f.check site) := by
  have params {H : Prop} (ps : List Param) :
      Upholds σ.SameForms H (fun _ => True) (Param.checkAll none (fun _ => site) [] ps) :=
    .of_ends (Param.checkAll_ends none _ [] ps) (Param.checkAll_keepsForms none _ [] ps).keeps
  have set {H : Prop} (g : FunctionDef) : Upholds σ.SameForms H (fun _ => True) (CheckM.setFunction g) :=
    .of_ends .setFunction KeepsForms.setFunction.keeps
  have body {H : Prop} (b : BodyContext) (h : b.isConstructor = f.isConstructor) :
      Upholds σ.SameForms H (fun _ => f.Permitted σ) (f.body.check b) := by
    have checked := Stmt.check_permitted (σ := σ) (H := H) b (.block f.body)
    rw [h] at checked
    exact Block.check_upholds checked
  refine .unlessStopped <| (params _).bind fun _ => (params _).bind fun _ => (set _).bind fun _ =>
    (body _ rfl).bind fun _ => (set _).bind fun _ => .unlessStopped ?_
  exact .ensure fun _ => .ensure fun _ => .pure fun known => known.1.2

theorem EnumDef.check_upholds {H : Prop} (name : String) (e : EnumDef) :
    Upholds σ.SameForms H (fun _ => True) (e.check name) := by
  refine .of_ends (EnumDef.check_ends name e) (KeepsForms.keeps ?_)
  refine .unlessStopped <| (KeepsForms.mapM (fun v => ?_) e.values).bind fun _ => KeepsForms.setType.bind fun _ => .pure _
  exact KeepsForms.setType.bind fun _ => .pure _

theorem StructDef.check_upholds {H : Prop} (site : Site) (s : StructDef) :
    Upholds σ.SameForms H (fun _ => True) (s.check site) := by
  refine .of_ends (StructDef.check_ends site s) (KeepsForms.keeps ((KeepsForms.mapM (fun v => ?_) s.members).bind
    fun _ => .pure _))
  exact (v.type.check_keepsForms _ _).bind fun _ => KeepsForms.setType.bind fun _ => .pure _

theorem StateItem.check_upholds {H : Prop} (site : Site) (i : StateItem) :
    Upholds σ.SameForms H (fun _ => True) (i.check site) := by
  refine .of_ends (StateItem.check_ends site i) (KeepsForms.keeps ?_)
  cases i with
  | var v =>
    refine .unlessStopped (KeepsForms.bind ?_ fun _ => .pure _)
    refine (v.type.check_keepsForms _ _).bind fun t => KeepsForms.setType.bind fun _ => ?_
    dsimp only
    cases v.init with
    | none => exact .unlessStopped (.ensure (.pure _))
    | some e =>
      exact (e.check_keepsForms _).bind fun _ => .unlessStopped <| .ensure <| KeepsForms.symbols.bind fun _ =>
        .convert fun _ => .ensure (.pure _)
  | comment | blank => exact .pure _

theorem Contract.check_permitted (text : List String) (c : Contract) :
    Upholds σ.SameForms True (fun _ => ∀ f ∈ c.allFunctions, f.Permitted σ) (c.check text) := by
  have functions {H : Prop} (site : Site) (fs : List FunctionDef) :
      Upholds σ.SameForms H (List.Forall₂ (fun f _ => f.Permitted σ) fs) (fs.mapM (FunctionDef.check site)) :=
    .mapM fun f _ => (FunctionDef.check_permitted site f).assuming fun _ => trivial
  refine (Upholds.mapM fun e _ => e.check_upholds c.name).bind fun _ =>
    (Upholds.mapM fun s _ => s.check_upholds _).bind fun _ => (Upholds.mapM fun i _ => i.check_upholds _).bind fun _ => ?_
  refine (functions _ c.constructors).bind fun _ => (functions _ c.functions).bind fun _ => .pure fun known => ?_
  exact List.forall_mem_append.mpr ⟨forall_mem_of_forall₂_left known.1.2, forall_mem_of_forall₂_left known.2⟩

/-- In a checked program, functions replace no fixed variable, constructors replace only fixed variables of the state,
and constructors do not return. -/
theorem SourceUnit.check_permitted {u : SourceUnit} (h : u.check.failure = none) :
    ∀ f ∈ u.allFunctions, f.Permitted u.symbols := by
  unfold check at h
  split at h
  · cases h
  · have checked : Upholds u.symbols.SameForms True _ (u.contracts.mapM (Contract.check u.text)) :=
      .mapM fun c _ => c.check_permitted u.text
    obtain ⟨-, permitted⟩ := checked.holds trivial ⟨u.symbols, none, []⟩ (.refl u.symbols) h
    intro f hf
    obtain ⟨c, hc, hf⟩ := List.mem_flatMap.mp hf
    exact forall_mem_of_forall₂_left permitted c hc f hf

end Programs

end Shroud
