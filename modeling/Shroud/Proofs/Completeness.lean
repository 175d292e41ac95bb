import Shroud.Proofs.Interference

/-!
# Complete marks

Every function is marked with the locations that it writes and reads. Here the marks are compared to what the function can
do: to the state variables that are touched by some call of it, whatever the values and the operations on them are.

**Touches.** `SourceUnit.MayTouch u f t` speaks of all calls of `f`, with all arguments and from all storages, and also of
those that fail in the end. What the functions do that are called on the way is part of the call.

**Depth.** A location tells of the variable that is one step away. Where an element of an element is assigned to, that is
no variable at all, so the mark is lost; callers do not get to know of the write either (`nesting_unmarked`). So writing
is complete for variables of which no more than immediate parts are assigned to (`SourceUnit.Shallow`). Reading is
complete for all variables, since a variable is looked up by itself before one of its parts is.

**Names.** A state variable that is selected as a member, be it of a contract's name or of an instance, does not leave its
mark; nor does one that is reached by a local variable or a parameter which points into the storage. The result is about
programs without such accesses (`SourceUnit.NamesDirectly`).

**Result.** `SourceUnit.markAccesses_complete`.
-/

namespace Shroud

/-- State variables are named by themselves, and no variable points into the storage. -/
def Node.namesDirectly : Node → Bool
  | .localVar v => v.storage != some "storage"
  | .param p => p.storage != some "storage"
  | n => n.isNamed

namespace SourceUnit

variable {u v : SourceUnit}

/-- Some call of the function touches a state variable in this way. -/
def MayTouch (u : SourceUnit) (f : FunctionDef) (t : Touch) : Prop :=
  ∃ (V : Type) (_ : DecidableEq V) (m : Machine V) (n : Nat) (self : V) (args : List V) (σ : Storage V),
    t ∈ (f.runSteps (m.staged u.symbols n) self args).trace σ

/-- Functions that are marked as leaving the state alone do so. -/
def ViewsLeaveState (u : SourceUnit) : Prop :=
  ∀ f ∈ u.allFunctions, f.hasSideEffects = false → ∀ x, ¬ u.MayTouch f (.write x)

def NamesDirectly (u : SourceUnit) : Prop := ∀ f ∈ u.allFunctions, ∀ n ∈ f.nodes, n.namesDirectly = true

instance (u : SourceUnit) : Decidable u.NamesDirectly :=
  inferInstanceAs (Decidable (∀ f ∈ u.allFunctions, ∀ n ∈ f.nodes, n.namesDirectly = true))

/-- No more than immediate parts of the variable are assigned to. -/
def Shallow (u : SourceUnit) (x : Nat) : Prop := ∀ f ∈ u.allFunctions, ∀ n ∈ f.nodes, n.isShallow x = true

instance (u : SourceUnit) (x : Nat) : Decidable (u.Shallow x) :=
  inferInstanceAs (Decidable (∀ f ∈ u.allFunctions, ∀ n ∈ f.nodes, n.isShallow x = true))

theorem NamesDirectly.direct (h : u.NamesDirectly) {f : FunctionDef} (hf : f ∈ u.allFunctions) :
    ∀ n ∈ f.nodes, n.Direct {x | u.Shallow x} := by
  refine fun n hn => ⟨?_, fun x hx => hx f hf n hn⟩
  have named := h f hf n hn
  unfold Node.namesDirectly at named
  split at named
  · rfl
  · rfl
  · exact named

/-- What the steps of views do not write is as good as what the marks say. -/
theorem ViewsLeaveState.runSteps_within (h : u.ViewsLeaveState) {V : Type} [DecidableEq V] (m : Machine V) (n : Nat)
    {f : FunctionDef} (hf : f ∈ u.allFunctions) (view : f.hasSideEffects = false) (A : Set Nat) (self : V)
    (args : List V) : (f.runSteps (m.staged u.symbols n) self args).Within Set.univ A :=
  ⟨fun _ => trivial, fun {σ x} touched => (h f hf view x ⟨V, _, m, n, self, args, σ, touched⟩).elim⟩

/-- Views that are not marked with writing anything leave the state alone, in programs that can be traced. -/
theorem ViewsWriteNothing.leave_state (quiet : u.ViewsWriteNothing) (traceable : u.Traceable)
    (accounted : ∀ f ∈ u.allFunctions, f.Accounted u.symbols) : u.ViewsLeaveState := by
  rintro f hf view x ⟨V, _, m, n, self, args, σ, touched⟩
  have direct : ∀ f ∈ u.allFunctions, ∀ n ∈ f.nodes, n.Direct Set.univ :=
    fun f hf n hn => Node.direct_of_traceable (traceable f hf n hn) _
  have symbols (n : Nat) : (m.staged u.symbols n).symbols = u.symbols := by cases n <;> rfl
  have leaves (n : Nat) (calls : (m.staged u.symbols n).CallsWithin Set.univ) (f : FunctionDef)
      (hf : f ∈ u.allFunctions) :=
    quiet.runSteps_within calls hf (direct f hf) ((symbols n).symm ▸ accounted f hf)
  have calls := Machine.staged_within accounted direct m leaves n
  exact (leaves n calls f hf view self args).writes touched trivial

/-- All state variables that a function can write or read are among the marks of the function, and the rounds in which
functions learn of each other end. -/
theorem markAccesses_complete (distinct : u.numbers.Nodup) (marked : u.markAccesses = .ok v) (named : v.NamesDirectly)
    (quiet : v.ViewsLeaveState) :
    (∀ f ∈ v.allFunctions, ∀ x,
      (v.Shallow x → v.MayTouch f (.write x) → ∃ l ∈ f.facts.writes, l.target = .decl .stateVar x) ∧
      (v.MayTouch f (.read x) → ∃ l ∈ f.facts.reads, l.target = .decl .stateVar x)) ∧
    (∃ w k, u.markOwn = .ok w ∧ w.EndsAfter k ∧ v = (markCalledOnce^[k] w).markCalledOnce) ∧
      v.markCalledOnce.allFunctions = v.allFunctions := by
  refine ⟨fun f hf x => ?_, markAccesses_ends distinct marked⟩
  have accounted := markAccesses_accounted distinct marked
  have direct : ∀ f ∈ v.allFunctions, ∀ n ∈ f.nodes, n.Direct {x | v.Shallow x} := fun f hf => named.direct hf
  have within {V : Type} [DecidableEq V] (m : Machine V) (n : Nat) (self : V) (args : List V) :
      (f.runSteps (m.staged v.symbols n) self args).Within (Loc.stateVars f.facts.reads)
        (Loc.stateVars f.facts.writes ∪ {x | v.Shallow x}ᶜ) := by
    have calls := Machine.staged_within accounted direct m
      (fun n _ g hg view => quiet.runSteps_within m n hg view _) n
    refine FunctionDef.runSteps_within calls Set.subset_union_right
      (fun n hn => direct f hf n (List.mem_append_right _ hn)) ?_
      ⟨Loc.in_stateVars Set.Subset.rfl, Loc.in_stateVars Set.subset_union_left⟩ self args
    rw [show (m.staged v.symbols n).symbols = v.symbols by cases n <;> rfl]
    exact accounted f hf
  constructor
  · rintro shallow ⟨V, _, m, n, self, args, σ, touched⟩
    exact ((within m n self args).writes touched).resolve_right fun deep => deep shallow
  · rintro ⟨V, _, m, n, self, args, σ, touched⟩
    exact (within m n self args).reads touched

end SourceUnit

/-! ## Programs -/

section Programs

/-- Two functions that call each other; one of them changes an element of an array to what a view has read. -/
def trading : SourceUnit :=
  .sketch 100 "Exchange" [⟨101, [], .publicUint, "rate", none⟩, ⟨102, [], .plain (.array .publicUint none), "shares", none⟩]
    [{ FunctionDef.yielding 103 "price" [.ret default (some (.nameAt 110 "rate"))] with modifiers := ["internal", "view"] },
    .sketch 105 "buy" "internal" [] [.assign default (.firstAt 112 "shares") (.callAt 115 (.nameAt 116 "price") []) "" false,
      .eval default (.callAt 117 (.nameAt 118 "sell") [])],
    .sketch 106 "sell" "internal" [] [.eval default (.callAt 119 (.nameAt 120 "buy") [])]]

theorem trading_complete : ∃ u n v, trading.link 130 = .ok (u, n) ∧ u.numbers.Nodup ∧ u.markAccesses = .ok v ∧ v.NamesDirectly ∧
    v.ViewsLeaveState ∧ (∃ f ∈ v.allFunctions, f.hasSideEffects = false) ∧
    (∃ f ∈ v.allFunctions, f.title = "sell" ∧ v.Shallow 102 ∧ v.MayTouch f (.write 102) ∧ v.MayTouch f (.read 101)) ∧
    (∀ f ∈ v.allFunctions, ∀ x,
      (v.Shallow x → v.MayTouch f (.write x) → ∃ l ∈ f.facts.writes, l.target = .decl .stateVar x) ∧
      (v.MayTouch f (.read x) → ∃ l ∈ f.facts.reads, l.target = .decl .stateVar x)) ∧
    (∃ w k, u.markOwn = .ok w ∧ w.EndsAfter k ∧ v = (SourceUnit.markCalledOnce^[k] w).markCalledOnce) ∧
    v.markCalledOnce.allFunctions = v.allFunctions := by
  obtain ⟨⟨u, n⟩, link, tested⟩ := exists_ok_of_any (x := trading.link 130)
    (p := fun r : SourceUnit × Nat => r.1.markAccesses.toOption.any fun v : SourceUnit => decide (r.1.numbers.Nodup ∧
      v.NamesDirectly ∧ v.ViewsWriteNothing ∧ v.Traceable ∧ (∃ f ∈ v.allFunctions, f.hasSideEffects = false) ∧
      ∃ f ∈ v.allFunctions, f.title = "sell" ∧ v.Shallow 102 ∧
        Touch.write 102 ∈ (f.runSteps (Machine.counting.staged v.symbols 3) 0 []).trace (fun _ _ => 0) ∧
        Touch.read 101 ∈ (f.runSteps (Machine.counting.staged v.symbols 3) 0 []).trace (fun _ _ => 0))) (by decide +kernel)
  obtain ⟨v, marked, tested⟩ := exists_ok_of_any tested
  obtain ⟨distinct, named, quiet, traceable, views, f, hf, title, shallow, writes, reads⟩ := of_decide_eq_true tested
  have leaves := quiet.leave_state traceable (SourceUnit.markAccesses_accounted distinct marked)
  exact ⟨u, n, v, link, distinct, marked, named, leaves, views,
    ⟨f, hf, title, shallow, ⟨Int, _, .counting, 3, 0, [], _, writes⟩, ⟨Int, _, .counting, 3, 0, [], _, reads⟩⟩,
    SourceUnit.markAccesses_complete distinct marked named leaves⟩

/-- A function that changes an element of an element of an array, and one that calls it. -/
def nesting : SourceUnit :=
  .sketch 100 "Grid" [⟨101, [], .plain (.array (.plain (.array .publicUint none)) none), "cells", none⟩]
    [.sketch 102 "mark" "internal" []
      [.assign default (.index (.numbered 110) (.firstAt 111 "cells") (.literalAt 114 0) none) (.literalAt 115 1) "" false],
    .sketch 103 "run" "public" [] [.eval default (.callAt 116 (.nameAt 117 "mark") [])]]

/-- Both functions write the variable, and neither is marked with it. -/
theorem nesting_unmarked : ∃ u n v, nesting.link 130 = .ok (u, n) ∧ u.numbers.Nodup ∧ u.markAccesses = .ok v ∧
    v.NamesDirectly ∧ v.ViewsLeaveState ∧ v.allFunctions.length = 2 ∧ ∀ f ∈ v.allFunctions, v.MayTouch f (.write 101) ∧
      ∀ l ∈ f.facts.writes, l.target ≠ .decl .stateVar 101 := by
  obtain ⟨⟨u, n⟩, link, tested⟩ := exists_ok_of_any (x := nesting.link 130)
    (p := fun r : SourceUnit × Nat => r.1.markAccesses.toOption.any fun v : SourceUnit => decide (r.1.numbers.Nodup ∧
      v.NamesDirectly ∧ (∀ f ∈ v.allFunctions, f.hasSideEffects = true) ∧ v.allFunctions.length = 2 ∧
      ∀ f ∈ v.allFunctions, Touch.write 101 ∈ (f.runSteps (Machine.counting.staged v.symbols 3) 0 []).trace (fun _ _ => 0) ∧
        ∀ l ∈ f.facts.writes, l.target ≠ .decl .stateVar 101)) (by decide +kernel)
  obtain ⟨v, marked, tested⟩ := exists_ok_of_any tested
  obtain ⟨distinct, named, noViews, two, unmarked⟩ := of_decide_eq_true tested
  refine ⟨u, n, v, link, distinct, marked, named, fun f hf view => ?_, two, fun f hf => ?_⟩
  · rw [noViews f hf] at view
    cases view
  · exact ⟨⟨Int, _, .counting, 3, 0, [], _, (unmarked f hf).1⟩, (unmarked f hf).2⟩

end Programs

end Shroud
