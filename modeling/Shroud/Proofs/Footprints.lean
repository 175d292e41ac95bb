import Mathlib.Data.Set.BooleanAlgebra
import Mathlib.Data.Set.Function
import Mathlib.Order.CompletePartialOrder
import Shroud.Proofs.Steps

/-!
# Footprints

A footprint bounds what an activity has to do with the storage: the variables it may write, and those on which its
outcome may depend. `Act.Confined F f` says that `f` stays within the footprint `F`.

**Scripts.** An activity that is carried out step by step is confined to a footprint if it reads and writes nothing else
(`Script.Within.confined`).

**Order.** Two activities commute if neither writes what the other one touches. If all activities of a list commute,
then the order in which they are carried out is of no importance (`Act.Unordered`): either all orders fail, or every
activity has the same result in every order and the same storage is left in the end.
-/

namespace Shroud

/-- The variables that may be written, and those that are of importance at all. -/
structure Footprint where
  written : Set Nat
  touched : Set Nat
  subset : written ⊆ touched

namespace Footprint

/-- Neither writes what the other one touches. -/
structure Apart (F G : Footprint) : Prop where
  left : Disjoint F.written G.touched
  right : Disjoint G.written F.touched

theorem Apart.symm {F G : Footprint} (h : F.Apart G) : G.Apart F := ⟨h.right, h.left⟩

end Footprint

namespace Act

variable {V α β : Type} {F G : Footprint} {σ τ : Storage V}

/-- The activity changes and depends on nothing outside the footprint. -/
structure Confined (F : Footprint) (f : Act V α) : Prop where
  keeps : ∀ {σ a τ}, f σ = some (a, τ) → Set.EqOn τ σ F.writtenᶜ
  follows : ∀ {σ σ' a τ}, Set.EqOn σ σ' F.touched → f σ = some (a, τ) →
    ∃ τ', f σ' = some (a, τ') ∧ Set.EqOn τ τ' F.touched

theorem bind_eq_some {f : Act V α} {g : α → Act V β} {b : β} :
    (f >>= g) σ = some (b, τ) ↔ ∃ a ρ, f σ = some (a, ρ) ∧ g a ρ = some (b, τ) := by
  show (f σ).bind (fun r => g r.1 r.2) = some (b, τ) ↔ _
  rw [Option.bind_eq_some_iff]
  exact ⟨fun ⟨r, hf, hg⟩ => ⟨r.1, r.2, hf, hg⟩, fun ⟨a, ρ, hf, hg⟩ => ⟨(a, ρ), hf, hg⟩⟩

theorem pure_eq_some {a b : α} : (pure a : Act V α) σ = some (b, τ) ↔ a = b ∧ σ = τ := by
  show some (a, σ) = some (b, τ) ↔ _
  rw [Option.some_inj, Prod.mk.injEq]

/-! ## Scripts -/

end Act

section Confined

variable {V α : Type} [DecidableEq V] {F : Footprint}

/-- The variable may be touched in this way. -/
def Footprint.Allows (F : Footprint) : Touch → Prop
  | .read x => x ∈ F.touched
  | .write x => x ∈ F.written

namespace Script

/-- A run changes nothing but what it is allowed to write. -/
theorem run_keeps {p : Script V α} {σ τ : Storage V} {a : α} (allowed : ∀ t ∈ p.trace σ, F.Allows t)
    (run : p.run σ = some (a, τ)) : Set.EqOn τ σ F.writtenᶜ := by
  induction p generalizing σ with
  | done b =>
    cases run
    exact Set.eqOn_refl _ _
  | fail => cases run
  | read x self next ih => exact ih (σ x self) (List.forall_mem_cons.mp allowed).2 run
  | change x self f next ih =>
    rw [run_change] at run
    rw [trace_change] at allowed
    cases changed : f (σ x self) with
    | none =>
      rw [changed] at run
      cases run
    | some w =>
      rw [changed] at run allowed
      obtain ⟨here, later⟩ := List.forall_mem_cons.mp allowed
      refine (ih later run).trans fun y hy => ?_
      have other : y ≠ x := fun same => hy (same ▸ here)
      exact Function.update_of_ne other _ _

/-- A run depends on nothing but what it is allowed to touch. -/
theorem run_follows {p : Script V α} {σ σ' τ : Storage V} {a : α} (allowed : ∀ t ∈ p.trace σ, F.Allows t)
    (agree : Set.EqOn σ σ' F.touched) (run : p.run σ = some (a, τ)) :
    ∃ τ', p.run σ' = some (a, τ') ∧ Set.EqOn τ τ' F.touched := by
  induction p generalizing σ σ' with
  | done b =>
    cases run
    exact ⟨σ', rfl, agree⟩
  | fail => cases run
  | read x self next ih =>
    obtain ⟨here, later⟩ := List.forall_mem_cons.mp allowed
    rw [run_read, ← agree here]
    exact ih (σ x self) later agree run
  | change x self f next ih =>
    rw [run_change] at run
    rw [trace_change] at allowed
    cases changed : f (σ x self) with
    | none =>
      rw [changed] at run
      cases run
    | some w =>
      rw [changed] at run allowed
      obtain ⟨here, later⟩ := List.forall_mem_cons.mp allowed
      have same := agree (F.subset here)
      rw [run_change, ← same, changed]
      refine ih later (fun y hy => ?_) run
      by_cases h : y = x
      · subst h
        rw [Function.update_self, Function.update_self]
      · rw [Function.update_of_ne h, Function.update_of_ne h]
        exact agree hy

/-- A script that touches only what lies in the footprint is confined to it. -/
theorem Within.confined {p : Script V α} (h : p.Within F.touched F.written) : Act.Confined F p.run := by
  have allowed {σ : Storage V} : ∀ t ∈ p.trace σ, F.Allows t := by
    rintro (x | x) touched
    · exact h.reads touched
    · exact h.writes touched
  exact ⟨run_keeps allowed, run_follows allowed⟩

end Script

end Confined

/-! ## Order -/

namespace Act

variable {V α β : Type} {F G : Footprint} {σ τ : Storage V}

/-- The two activities, one directly after the other, may change places. -/
def Commutes (f : Act V α) (g : Act V β) : Prop :=
  ∀ {σ a τ b ρ}, f σ = some (a, τ) → g τ = some (b, ρ) → ∃ τ', g σ = some (b, τ') ∧ f τ' = some (a, ρ)

theorem Confined.commutes {f : Act V α} {g : Act V β} (hf : Confined F f) (hg : Confined G g) (apart : F.Apart G) :
    Commutes f g := by
  intro σ a τ b ρ first next
  have unseen : Set.EqOn τ σ G.touched := fun x hx =>
    hf.keeps first (Set.disjoint_right.mp apart.left hx)
  obtain ⟨τ', next', left⟩ := hg.follows unseen next
  have unseen' : Set.EqOn σ τ' F.touched := fun x hx =>
    (hg.keeps next' (Set.disjoint_right.mp apart.right hx)).symm
  obtain ⟨ρ', first', right⟩ := hf.follows unseen' first
  refine ⟨τ', next', ?_⟩
  rw [first']
  -- each of the two accounts for what it writes, and neither changes anything else
  have same (x : Nat) : ρ' x = ρ x := by
    by_cases hx : x ∈ G.written
    · have other : x ∈ F.writtenᶜ := Set.disjoint_right.mp apart.left (G.subset hx)
      rw [hf.keeps first' other]
      exact (left (G.subset hx)).symm
    · rw [hg.keeps next hx]
      by_cases hy : x ∈ F.written
      · exact (right (F.subset hy)).symm
      · rw [hf.keeps first' hy, hg.keeps next' hx, hf.keeps first hy]
  rw [funext same]

/-- Carry out activities in the given order; every result keeps the number of its activity. -/
def each : List (Act V α × Nat) → Act V (List (α × Nat))
  | [] => return []
  | (x, i) :: xs => do
    let a ← x
    return (a, i) :: (← each xs)

theorem each_cons {x : Act V α × Nat} {xs : List (Act V α × Nat)} {rs : List (α × Nat)} :
    each (x :: xs) σ = some (rs, τ) ↔
      ∃ a ρ as, x.1 σ = some (a, ρ) ∧ each xs ρ = some (as, τ) ∧ rs = (a, x.2) :: as := by
  obtain ⟨f, i⟩ := x
  rw [each, bind_eq_some]
  simp only [bind_eq_some, pure_eq_some]
  constructor
  · rintro ⟨a, ρ, first, as, ρ', rest, rfl, rfl⟩
    exact ⟨a, ρ, as, first, rest, rfl⟩
  · rintro ⟨a, ρ, as, first, rest, rfl⟩
    exact ⟨a, ρ, first, as, τ, rest, rfl, rfl⟩

/-- The order is of no importance: all orders fail, or they have the same results and leave the same storage. -/
def Unordered (xs : List (Act V α)) : Prop :=
  ∀ ys, ys.Perm xs.zipIdx → ∀ σ : Storage V,
    Option.Rel (fun r q => r.1.Perm q.1 ∧ r.2 = q.2) (each ys σ) (each xs.zipIdx σ)

/-- Activities that commute may be carried out in any order. -/
theorem each_perm {xs ys : List (Act V α × Nat)} (h : xs.Perm ys)
    (commute : xs.Pairwise fun x y => Commutes x.1 y.1 ∧ Commutes y.1 x.1) {rs : List (α × Nat)}
    (run : each xs σ = some (rs, τ)) : ∃ qs, each ys σ = some (qs, τ) ∧ rs.Perm qs := by
  induction h generalizing σ rs with
  | nil => exact ⟨rs, run, .rfl⟩
  | cons x _ ih =>
    obtain ⟨a, ρ, as, first, rest, rfl⟩ := each_cons.mp run
    obtain ⟨qs, rest', perm⟩ := ih (List.pairwise_cons.mp commute).2 rest
    exact ⟨_, each_cons.mpr ⟨a, ρ, qs, first, rest', rfl⟩, perm.cons _⟩
  | swap x y xs =>
    obtain ⟨a, ρ, _, first, run', rfl⟩ := each_cons.mp run
    obtain ⟨b, ρ', bs, second, rest, rfl⟩ := each_cons.mp run'
    obtain ⟨ρ'', second', first'⟩ := ((List.pairwise_cons.mp commute).1 x List.mem_cons_self).1 first second
    refine ⟨_, each_cons.mpr ⟨b, ρ'', _, second', each_cons.mpr ⟨a, ρ', bs, first', rest, rfl⟩, rfl⟩, .swap ..⟩
  | trans perm _ ih₁ ih₂ =>
    obtain ⟨ps, run, left⟩ := ih₁ commute run
    obtain ⟨qs, run, right⟩ := ih₂ (perm.pairwise commute fun h => h.symm) run
    exact ⟨qs, run, left.trans right⟩

theorem unordered_of_commutes {xs : List (Act V α)}
    (commute : xs.Pairwise fun x y => Commutes x y ∧ Commutes y x) : Unordered xs := by
  intro ys perm σ
  have given : xs.zipIdx.Pairwise fun x y => Commutes x.1 y.1 ∧ Commutes y.1 x.1 := by
    rw [← List.zipIdx_map_fst 0 xs, List.pairwise_map] at commute
    exact commute
  have other := perm.symm.pairwise given fun h => h.symm
  cases left : each ys σ with
  | none =>
    cases right : each xs.zipIdx σ with
    | none => exact .none
    | some r =>
      obtain ⟨_, run, -⟩ := each_perm perm.symm given right
      rw [left] at run
      cases run
  | some r =>
    obtain ⟨qs, run, same⟩ := each_perm perm other left
    rw [run]
    exact .some ⟨same, rfl⟩

end Act

end Shroud
