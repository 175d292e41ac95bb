import Shroud.Proofs.Pointwise

/-!
# Accepted programs

An accepted program has gone through all passes. `SourceUnit.Accepted` names the forms it had on the way, so that a
property of accepted programs can be proved pass by pass.
-/

namespace Shroud

/-! ## One pass after the other -/

/-- The passes accept the program and turn it into this one. -/
inductive SourceUnit.Accepted (u : SourceUnit) (next : Nat) (o : Options) : SourceUnit → Prop
  | intro {linked aliased called accessed placed : SourceUnit} {n : Nat}
      (link : u.link next = .ok (linked, n))
      (returns : linked.checkReturns = .ok ())
      (aliases : linked.markAliases = .ok aliased)
      (calls : aliased.markCalls = .ok called)
      (accesses : called.markAccesses = .ok accessed)
      (order : accessed.checkOrder = .ok ())
      (types : accessed.check.failure = none)
      (places : accessed.check.unit.markCapable.place o.foldConstants.holds = (placed, none))
      (inlineable : placed.checkInlineable = .ok ())
      (recursion : placed.markProofs.checkRecursion = .ok ())
      (loops : placed.markProofs.markInlined.checkLoops = .ok ()) :
      Accepted u next o placed.markProofs.markInlined

theorem Checked.ensure_accepted {u : SourceUnit} {x : Except Error Unit} (h : (Checked.ensure u x).failure = none) :
    x = .ok () := by
  cases x with
  | error e => cases h
  | ok => rfl

/-- The last pass places the expressions, then finds out which functions need proofs. -/
theorem SourceUnit.markCircuits_accepted {u : SourceUnit} {o : Options} (h : (u.markCircuits o).failure = none) :
    ∃ placed, u.markCapable.place o.foldConstants.holds = (placed, none) ∧ placed.checkInlineable = .ok () ∧
      placed.markProofs.checkRecursion = .ok () ∧ placed.markProofs.markInlined.checkLoops = .ok () ∧
      (u.markCircuits o).unit = placed.markProofs.markInlined := by
  unfold SourceUnit.markCircuits at h ⊢
  generalize u.markCapable.place o.foldConstants.holds = w at h ⊢
  obtain ⟨h₁, loops, hu₁⟩ := Checked.andThen_accepted h
  obtain ⟨h₂, recursion, hu₂⟩ := Checked.andThen_accepted h₁
  obtain ⟨h₃, inlineable, hu₃⟩ := Checked.andThen_accepted h₂
  rw [hu₂, hu₃] at loops
  rw [hu₃] at recursion
  rw [hu₁, hu₂, hu₃]
  simp only [Checked.ensure_unit] at loops recursion inlineable ⊢
  exact ⟨w.1, Prod.ext rfl h₃, Checked.ensure_accepted inlineable, Checked.ensure_accepted recursion,
    Checked.ensure_accepted loops, rfl⟩

namespace Progress

theorem verify_accepted {p : Progress} {x : Except Error Unit} (h : (p.verify x).failure = none) :
    x = .ok () ∧ p.verify x = p := by
  cases x with
  | error e => cases h
  | ok => exact ⟨rfl, rfl⟩

theorem update_accepted {p : Progress} {x : Except Error SourceUnit} (h : (p.update x).failure = none) :
    ∃ v, x = .ok v ∧ p.update x = { p with unit := v } := by
  cases x with
  | error e => cases h
  | ok v => exact ⟨v, rfl, rfl⟩

theorem link_accepted {o : Options} {p : Progress} (h : (p.run o .link).failure = none) :
    ∃ v n, p.unit.link p.next = .ok (v, n) ∧ p.run o .link = { p with unit := v, next := n } := by
  unfold run at h ⊢
  cases hl : p.unit.link p.next with
  | error e =>
    rw [hl] at h
    cases h
  | ok r => exact ⟨r.1, r.2, rfl, rfl⟩

/-- The first of several passes, and the others after it. -/
theorem runAll_accepted {o : Options} {x : Pass} {xs : List Pass} {p : Progress}
    (h : (p.runAll o (x :: xs)).1.failure = none) :
    (p.run o x).failure = none ∧ ((p.run o x).runAll o xs).1.failure = none ∧
      (p.runAll o (x :: xs)).1 = ((p.run o x).runAll o xs).1 := by
  have rest := runAll_cons_accepted h
  refine ⟨?_, rest ▸ h, rest⟩
  cases he : (p.run o x).failure with
  | some e => simp [runAll, he] at h
  | none => rfl

/-- A stage that ends well leaves what its last pass leaves. -/
theorem stage_accepted {o : Options} {s : Stage} {xs : List Pass} {p q : Progress}
    (h : (p.stage o s xs).result = .ok q) : (p.runAll o xs).1.failure = none ∧ q = (p.runAll o xs).1 := by
  obtain ⟨rfl, hf⟩ := result_ok h
  replace hf : (p.runAll o xs).1.failure = none := Option.map_eq_none_iff.mp hf
  refine ⟨hf, ?_⟩
  show { (p.runAll o xs).1 with failure := (p.runAll o xs).1.failure.map (Error.leaving s) } = _
  rw [hf]
  show { (p.runAll o xs).1 with failure := none } = _
  rw [← hf]

end Progress

namespace Progress

/-- Linking and the analyses. -/
theorem analyse_accepted {o : Options} {p q : Progress} (h : p.analyse o .all = .ok q) :
    ∃ linked n aliased called, p.unit.link p.next = .ok (linked, n) ∧ linked.checkReturns = .ok () ∧
      linked.markAliases = .ok aliased ∧ aliased.markCalls = .ok called ∧ called.markAccesses = .ok q.unit := by
  obtain ⟨p₁, hp₁, h⟩ := except_bind_ok h
  obtain ⟨hf, rfl⟩ := stage_accepted hp₁
  obtain ⟨-, hf, e₁⟩ := runAll_accepted hf
  obtain ⟨hl, -, e₂⟩ := runAll_accepted hf
  obtain ⟨linked, n, link, run⟩ := link_accepted hl
  rw [e₁, e₂, run] at h
  obtain ⟨hf, hq⟩ := stage_accepted h
  obtain ⟨hr, hf, e₁⟩ := runAll_accepted hf
  obtain ⟨returns, run⟩ := verify_accepted hr
  rw [show Progress.run o _ .returns = _ from run] at hf e₁
  obtain ⟨ha, hf, e₂⟩ := runAll_accepted hf
  obtain ⟨aliased, aliases, run⟩ := update_accepted ha
  rw [show Progress.run o _ .aliases = _ from run] at hf e₂
  obtain ⟨hc, hf, e₃⟩ := runAll_accepted hf
  obtain ⟨called, calls, run⟩ := update_accepted hc
  rw [show Progress.run o _ .calls = _ from run] at hf e₃
  obtain ⟨ha, -, e₄⟩ := runAll_accepted hf
  obtain ⟨accessed, accesses, run⟩ := update_accepted ha
  rw [show Progress.run o _ .accesses = _ from run] at e₄
  refine ⟨linked, n, aliased, called, link, returns, aliases, calls, ?_⟩
  rw [hq.trans (e₁.trans (e₂.trans (e₃.trans e₄)))]
  exact accesses

/-- Type checking and the decisions about circuits. -/
theorem typing_accepted {o : Options} {p : Progress}
    (h : (p.stage o .typing [.order, .types, .circuits]).failure = none) :
    p.unit.checkOrder = .ok () ∧ p.unit.check.failure = none ∧ (p.unit.check.unit.markCircuits o).failure = none ∧
      (p.stage o .typing [.order, .types, .circuits]).unit = (p.unit.check.unit.markCircuits o).unit := by
  replace h : (p.runAll o [.order, .types, .circuits]).1.failure = none := Option.map_eq_none_iff.mp h
  show _ ∧ _ ∧ _ ∧ (p.runAll o [.order, .types, .circuits]).1.unit = _
  obtain ⟨ho, h, e₁⟩ := runAll_accepted h
  obtain ⟨order, run⟩ := verify_accepted ho
  rw [show Progress.run o _ .order = _ from run] at h e₁
  obtain ⟨ht, h, e₂⟩ := runAll_accepted h
  obtain ⟨hc, -, e₃⟩ := runAll_accepted h
  rw [e₁, e₂, e₃]
  exact ⟨order, ht, hc, rfl⟩

end Progress

/-- A program that is processed without failure is accepted by all passes. -/
theorem SourceUnit.process_accepted {u : SourceUnit} {next : Nat} {o : Options} {t : Transcript} {p : Progress}
    (h : (u.process next o .all t).2 = .ok p) : u.Accepted next o p.unit := by
  unfold SourceUnit.process at h
  obtain ⟨t₁, hr⟩ := Transcript.step_result o "preprocess" "Preprocessing AST" t fun t =>
    (t, (Progress.start u next).analyse o .all)
  generalize t.step o "preprocess" "Preprocessing AST" (fun t => (t, (Progress.start u next).analyse o .all)) = w
    at h hr
  obtain ⟨t₂, r⟩ := w
  cases r with
  | error e => cases h
  | ok q =>
    obtain ⟨linked, n, aliased, called, link, returns, aliases, calls, accesses⟩ :=
      Progress.analyse_accepted hr.symm
    obtain ⟨t₃, hr⟩ := Transcript.step_result o "typecheck" "Zkay type checking" t₂ _
    simp only [Selection.all, Bool.not_true, Bool.false_eq_true, if_false] at h
    rw [hr] at h
    split at h
    · rename_i hf
      cases h
      obtain ⟨order, types, circuits, unit⟩ := Progress.typing_accepted hf
      obtain ⟨placed, places, inlineable, recursion, loops, final⟩ := SourceUnit.markCircuits_accepted circuits
      rw [unit, final]
      exact .intro link returns aliases calls accesses order types places inlineable recursion loops
    · cases h

/-! ## Passes that learn on the way -/

section Folds

variable {α β σ : Type} {R : α → β → Prop} {I : σ → Prop}

/-- A fold that appends one result for each member and keeps an invariant. -/
theorem foldl_append_keeping {F : List β × σ → α → List β × σ} :
    ∀ (xs : List α) (p : List β × σ),
      (∀ a ∈ xs, ∀ q, I q.2 → ∃ b, (F q a).1 = q.1 ++ [b] ∧ R a b ∧ I (F q a).2) → I p.2 →
      ∃ ys, (xs.foldl F p).1 = p.1 ++ ys ∧ List.Forall₂ R xs ys ∧ I (xs.foldl F p).2
  | [], p, _, hp => ⟨[], by simp, .nil, hp⟩
  | x :: xs, p, h, hp => by
    obtain ⟨y, hy, hR, hI⟩ := h x List.mem_cons_self p hp
    obtain ⟨ys, hys, hRs, hI⟩ :=
      foldl_append_keeping xs (F p x) (fun a ha => h a (List.mem_cons_of_mem _ ha)) hI
    refine ⟨y :: ys, ?_, .cons hR hRs, hI⟩
    rw [List.foldl_cons, hys, hy, List.append_assoc]
    rfl

end Folds

theorem SourceUnit.mapFunctions_keeping {σ : Type} {f : Contract → FunctionDef → σ → FunctionDef × σ}
    {R : FunctionDef → FunctionDef → Prop} {I : σ → Prop} {u : SourceUnit} {s : σ}
    (h : ∀ c ∈ u.contracts, ∀ g ∈ c.allFunctions, ∀ s, I s → R g (f c g s).1 ∧ I (f c g s).2) (hs : I s) :
    u.Pointwise R (u.mapFunctions s f).1 ∧ I (u.mapFunctions s f).2 := by
  have list (c : Contract) (hc : c ∈ u.contracts) (gs : List FunctionDef) (hg : gs ⊆ c.allFunctions) (s : σ)
      (hs : I s) := foldl_append_keeping (R := R) (I := I) (F := fun (p : List FunctionDef × σ) g =>
        (p.1 ++ [(f c g p.2).1], (f c g p.2).2)) gs ([], s)
        (fun g hm q hq => ⟨_, rfl, h c hc g (hg hm) q.2 hq⟩) hs
  obtain ⟨cs, hcs, hR, hI⟩ := foldl_append_keeping (R := Contract.Pointwise R) (I := I)
    (F := fun (p : List Contract × σ) c =>
      let constructors := c.constructors.foldl (fun (p : List FunctionDef × σ) g =>
        (p.1 ++ [(f c g p.2).1], (f c g p.2).2)) ([], p.2)
      let functions := c.functions.foldl (fun (p : List FunctionDef × σ) g =>
        (p.1 ++ [(f c g p.2).1], (f c g p.2).2)) ([], constructors.2)
      (p.1 ++ [{ c with constructors := constructors.1, functions := functions.1 }], functions.2)) u.contracts ([], s) (fun c hc p hp => by
        obtain ⟨xs, hxs, hR, hI⟩ := list c hc c.constructors (List.subset_append_left _ _) p.2 hp
        obtain ⟨ys, hys, hR', hI'⟩ := list c hc c.functions (List.subset_append_right _ _) _ hI
        refine ⟨_, rfl, ⟨rfl, rfl, ?_, ?_⟩, hI'⟩
        · exact hxs ▸ hR
        · exact hys ▸ hR') hs
  refine ⟨?_, hI⟩
  have contracts : (u.mapFunctions s f).1.contracts = cs := hcs
  unfold SourceUnit.Pointwise
  rw [contracts]
  exact hR

end Shroud
