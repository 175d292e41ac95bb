import Shroud.Proofs.Callees
import Shroud.Proofs.Complaints
import Shroud.Proofs.Consistency

/-!
# Refused conversions

Whatever the check of types converts is an expression of the program that it has checked before. This module follows such
an expression from the analyses to its conversion.

**Calls.** The call graph was found before types are checked, so everything that is called by name in a body is a function
(`SourceUnit.called_named`). Checking adds no calls, and functions stay functions while types change. Lengths in the types
that an expression is written with are not part of the graph; they are asked for where they matter.

**Owners.** In bodies something is known of owners everywhere. In the types of declarations nothing is; there a value of the
sender counts as one only if the keyword says so (`sizing_refused`).

**Result.** `SourceUnit.conversion_refused`: when a checked expression of a body is converted, failures are complaints,
unless the complaint cannot be worded or the conversion jams.
-/

namespace Shroud

/-! ## Calls in expressions -/

section Calls

variable {s : Symbols} {e : Expr} {es : List Expr}

/-- The nodes of the type that the expression is written with. -/
def Expr.ownType : Expr → List Node
  | .new i _ => i.typeNodes
  | .cast _ t _ _ => t.nodes
  | _ => []

/-- The table knows what is called as a function. -/
def Symbols.NamesFunction (s : Symbols) (r : Option Ref) : Prop := ((r.bind s.decl?).bind Decl.function?).isSome = true

/-- The types that are written in the expression call functions only. -/
def Expr.TypesCallFunctions (s : Symbols) (e : Expr) : Prop := ∀ x ∈ e.subexprs, ∀ n ∈ x.ownType, n.CallsFunction s

/-- A call of a name that the table knows as that of a function. -/
theorem Expr.callsFunction_of_ownCall (h : ∀ r, e.ownCall? = some r → s.NamesFunction r) :
    (Node.expr e).CallsFunction s := by
  cases e with
  | call i f as o k =>
    intro location plain
    have called : (Expr.call i f as o k).ownCall? = some f.target? := by
      unfold ownCall? Node.callee?
      dsimp only
      cases f with
      | operator => cases location
      | _ => rw [plain]; rfl
    exact Option.isSome_iff_exists.mp (h _ called)
  | _ => trivial

/-- All that an expression calls is called by it, by a part or in a type. -/
theorem Expr.callsFunctions_of_parts (h : ∀ x ∈ e.subexprs, (Node.expr x).CallsFunction s)
    (types : e.TypesCallFunctions s) : e.CallsFunctions s := by
  have all {es : List Expr} (ih : ∀ e ∈ es, (∀ x ∈ e.subexprs, (Node.expr x).CallsFunction s) → e.TypesCallFunctions s →
      e.CallsFunctions s) (h : ∀ x ∈ Expr.subexprsAll es, (Node.expr x).CallsFunction s)
      (types : ∀ x ∈ Expr.subexprsAll es, ∀ n ∈ x.ownType, n.CallsFunction s) :
      ∀ n ∈ Expr.nodesAll es, n.CallsFunction s :=
    Expr.forall_nodesAll.mpr fun e he => ih e he (fun x hx => h x (mem_subexprsAll.mpr ⟨e, he, hx⟩))
      fun x hx => types x (mem_subexprsAll.mpr ⟨e, he, hx⟩)
  have name (n : Ident) : ∀ m ∈ [Node.ident n], m.CallsFunction s := List.forall_mem_singleton.mpr trivial
  unfold TypesCallFunctions at types
  unfold CallsFunctions
  induction e using Expr.inductOn with
  | call i f as o k hf has =>
    simp only [subexprs, List.cons_append, List.forall_mem_cons, List.forall_mem_append] at h types
    simp only [nodes, List.cons_append, List.forall_mem_cons, List.forall_mem_append]
    exact ⟨h.1, hf h.2.1 types.2.1, all has h.2.2 types.2.2⟩
  | new i as has =>
    simp only [subexprs, List.forall_mem_cons] at h types
    simp only [nodes, List.cons_append, List.forall_mem_cons, List.forall_mem_append]
    exact ⟨h.1, types.1, all has h.2 types.2⟩
  | arrayLit i es b has =>
    simp only [subexprs, List.forall_mem_cons] at h types
    simp only [nodes, List.forall_mem_cons]
    exact ⟨h.1, all has h.2 types.2⟩
  | tuple i es has =>
    simp only [subexprs, List.forall_mem_cons] at h types
    simp only [nodes, List.forall_mem_cons]
    exact ⟨h.1, all has h.2 types.2⟩
  | cast i t e b ih =>
    simp only [subexprs, List.forall_mem_cons] at h types
    simp only [nodes, List.cons_append, List.forall_mem_cons, List.forall_mem_append]
    exact ⟨h.1, types.1, ih h.2 types.2⟩
  | member i e n r ih =>
    simp only [subexprs, List.forall_mem_cons] at h types
    simp only [nodes, List.cons_append, List.forall_mem_cons, List.forall_mem_append]
    exact ⟨h.1, ih h.2 types.2, trivial, List.forall_mem_nil _⟩
  | index i e k r he hk =>
    simp only [subexprs, List.cons_append, List.forall_mem_cons, List.forall_mem_append] at h types
    simp only [nodes, List.cons_append, List.forall_mem_cons, List.forall_mem_append]
    exact ⟨h.1, he h.2.1 types.2.1, hk h.2.2 types.2.2⟩
  | reclassify i m e p hom he hp =>
    simp only [subexprs, List.cons_append, List.forall_mem_cons, List.forall_mem_append] at h types
    simp only [nodes, List.cons_append, List.forall_mem_cons, List.forall_mem_append]
    exact ⟨h.1, he h.2.1 types.2.1, hp h.2.2 types.2.2⟩
  | leaf e hl =>
    cases e with
    | ident => exact List.forall_mem_cons.mpr ⟨trivial, name _⟩
    | operator | boolLit | numLit | me | all => exact List.forall_mem_singleton.mpr trivial
    | _ => cases hl

/-- An expression that calls only what the table knows as functions. -/
theorem Expr.callsFunctions_of_called (h : ∀ r ∈ e.called, s.NamesFunction r) (types : e.TypesCallFunctions s) :
    e.CallsFunctions s :=
  callsFunctions_of_parts (fun x hx => callsFunction_of_ownCall fun r hr => h r (mem_called.mpr ⟨x, hx, hr⟩)) types

end Calls

/-! ## Calls in analysed programs -/

theorem Symbols.SameForms.namesFunction {s t : Symbols} (h : s.SameForms t) {r : Option Ref} (named : s.NamesFunction r) :
    t.NamesFunction r := by
  unfold Symbols.NamesFunction at named ⊢
  cases r with
  | none => cases named
  | some r =>
    cases r with
    | decl k i => exact (h.function i).trans named
    | element | keyLabel => cases named

namespace SourceUnit

variable {u v w : SourceUnit} {f : FunctionDef}

/-- Everything that is called by name in the bodies of an analysed program is a function. -/
theorem called_named (distinct : u.numbers.Nodup) (calls : u.markCalls = .ok v) (accesses : v.markAccesses = .ok w)
    (hf : f ∈ w.allFunctions) : ∀ r ∈ f.called, w.symbols.NamesFunction r := by
  have follows : u.Pointwise (fun f g => g.id = f.id ∧ g.called ⊆ f.called) w :=
    (markCalls_called calls).trans (fun _ _ _ h h' => ⟨h'.id.trans h.1, h.2 ▸ h'.called⟩) (markAccesses_follows accesses)
  have each := allFunctions_pointwise follows
  have numbers : w.numbers = u.numbers := (markAccesses_numbers accesses).trans (markCalls_numbers calls)
  obtain ⟨g, hg, -, within⟩ := exists_mem_of_forall₂_right each hf
  intro r hr
  obtain ⟨c, hc, rfl⟩ := List.mem_map.mp (g.called_callees (within hr))
  obtain ⟨k, hk, -⟩ := u.markCalls_total.mp ⟨v, calls⟩ g hg c hc
  unfold Symbols.callee? at hk
  unfold Symbols.NamesFunction
  cases target : c.target? with
  | none =>
    rw [target] at hk
    cases hk
  | some r =>
    rw [target] at hk
    cases r with
    | decl s i =>
      obtain ⟨-, rfl⟩ := function?_found hk
      have found := found_of_ids distinct numbers (List.Forall₂.imp (fun _ _ h => h.1) each) _ (mem_functionNumbers hk)
      exact Option.isSome_iff_exists.mpr found
    | element | keyLabel => cases hk

/-- In a program that has been analysed, an expression of a body is checked, whatever is known of owners and declarations
at that point. If the result is converted, where it stands or anywhere else in the program, and this fails, then the
checker complains, unless the complaint would show something without a written form or the conversion jams. A conversion
that jams never succeeds. -/
theorem conversion_refused (distinct : u.numbers.Nodup) (calls : u.markCalls = .ok v)
    (accesses : v.markAccesses = .ok w) (hf : f ∈ w.allFunctions) {e : Expr} (he : e ∈ f.bodyExprs)
    (fresh : Node.Fresh e.nodes) {c : CheckContext} (apart : IsApart c.knowledge) {s s' : CheckState} {x : Expr}
    (declared : s.symbols.Sound) (forms : w.symbols.SameForms s.symbols) (checked : e.check c s = (x, s'))
    (passes : s'.failure = none) {σ : Symbols} (later : s'.symbols.SameForms σ) (types : x.TypesCallFunctions σ)
    {t : AnnTy} {spot : Spot} {nested : Bool} (shown : ∀ y, (spot y).text.isSome = true)
    (names : c.knowledge = none → t.NamesSender) :
    (∀ error, (x.coerce σ c.knowledge spot nested t).result = .error error →
      error.IsComplaint ∨ error = .functionType ∧ ¬x.Quotable t spot ∨ x.Jams c.knowledge t) ∧
    (x.Jams c.knowledge t → ∀ y, (x.coerce σ c.knowledge spot nested t).result ≠ .ok y) := by
  have ends : (e.check c s).2.failure = none := by rw [checked]; exact passes
  have consistent := ((e.check_consistent (H := True) c apart fresh).holds trivial s declared ends).2
  have within := (e.check_mentionsNoMore c s ends).2.called
  have kept := e.check_keepsForms c s
  rw [checked] at consistent within kept
  have called : ∀ r ∈ x.called, σ.NamesFunction r := by
    intro r hr
    obtain ⟨y, hy, own⟩ := Expr.mem_called.mp (within hr)
    obtain ⟨st, hst, he⟩ := List.mem_flatMap.mp he
    obtain ⟨z, hz, he⟩ := Expr.mem_subexprsAll.mp he
    have listed : r ∈ f.called := List.mem_flatMap.mpr ⟨st, hst, mem_calledAll.mpr
      ⟨z, hz, Expr.mem_called.mpr ⟨y, Expr.subexprs_trans hy he, own⟩⟩⟩
    exact later.namesFunction (kept.namesFunction (forms.namesFunction (called_named distinct calls accesses hf r listed)))
  have calls : x.CallsFunctions σ := Expr.callsFunctions_of_called called types
  exact ⟨(Expr.coerce_complains_iff shown names calls consistent).1,
    (Expr.coerce_complains_iff shown names calls consistent).2.1⟩

end SourceUnit

/-! ## Where nothing is known of owners -/

/-- The length of an array is a choice between an element that belongs to its key, the sender, and a revealed number. -/
def sizing : SourceUnit :=
  let byte : Ty := .integer false (.ofBits 8)
  let held : AnnTy := .plain (.mapping 102 (.address false) (some "x")
    (.owned byte (.ident (.numbered 103) (.plain "x") none) .additive))
  let length : Expr := .applyAt 106 .ite [.boolLit (.numbered 108) true,
    .index (.numbered 109) (.nameAt 110 "held") (.me (.numbered 111)) none,
    .reclassify (.numbered 112) .reveal (.literalAt 113 1) .meLabel none]
  .sketch 100 "Sizes" [⟨101, [], held, "held", none⟩, ⟨105, [], .plain (.array (.plain byte) (some length)), "sized", none⟩]
    []

/-- Lengths are checked without any knowledge of owners. So it is not seen that both values belong to the sender when one is
to be encrypted like the other, and nobody complains: there the sender has to be named by the keyword. -/
theorem sizing_refused : ∃ p done, (Progress.start sizing 120).runAll default Pass.all = (p, done, some .types) ∧
    p.failure = some (.defect .rehomForeign) := by
  have tested : (let r := (Progress.start sizing 120).runAll default Pass.all
      r.2.2 == some .types && r.1.failure.any (· matches .defect .rehomForeign)) = true := by
    decide +kernel
  generalize (Progress.start sizing 120).runAll default Pass.all = r at tested
  obtain ⟨p, done, failed⟩ := r
  obtain ⟨types, defect⟩ := (Bool.and_eq_true _ _).mp tested
  obtain ⟨error, failure, kind⟩ := (Option.any_eq_true ..).mp defect
  refine ⟨p, done, congrArg (fun failed => (p, done, failed)) (eq_of_beq types), ?_⟩
  rw [failure]
  split at kind
  · rfl
  · cases kind

end Shroud
