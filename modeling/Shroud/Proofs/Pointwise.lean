import Mathlib.Data.List.Forall2
import Shroud.Pass
import Shroud.Privacy.UsedHoms

/-!
# What the passes keep

Every pass works through a program function by function and leaves the list of contracts and their lists of
functions in place.

**Pointwise.** `SourceUnit.Pointwise R u v` says that `v` has the contracts and functions of `u`, one after
the other, each function of `v` in the relation `R` to the one of `u` in its place. A pass is described by
the relation it establishes, and passes are chained by `Pointwise.trans`.

**Results.**

* `Progress.run_keeps`: no pass but the last one changes the signature of a function or its marks about
  proofs.
* `process_marked`: an accepted program has the functions of the fresh one; those that need a proof when
  called from outside need one at every call or can be called from outside.
-/

namespace Shroud

/-! ## Results of activities that can fail -/

section Results

variable {α β σ ε : Type}

theorem except_bind_ok {x : Except ε α} {f : α → Except ε β} {b : β} (h : (x >>= f) = .ok b) :
    ∃ a, x = .ok a ∧ f a = .ok b := by
  cases x with
  | error e => cases h
  | ok a => exact ⟨a, rfl, h⟩

/-- A loop that can only fail leaves nothing undone when it succeeds. -/
theorem except_for_ok {α ε : Type} {f : α → Except ε Unit} {xs : List α}
    (h : (forIn xs PUnit.unit fun x _ => do f x; pure (.yield PUnit.unit)) = .ok PUnit.unit) :
    ∀ x ∈ xs, f x = .ok () := by
  induction xs with
  | nil => simp
  | cons y ys ih =>
    rw [List.forIn_cons] at h
    obtain ⟨step, hs, h⟩ := except_bind_ok h
    obtain ⟨_, hy, hs⟩ := except_bind_ok hs
    cases hs
    intro x hx
    rcases List.mem_cons.mp hx with rfl | hx
    · exact hy
    · exact ih h x hx

theorem state_bind_ok {x : StateT σ (Except ε) α} {f : α → StateT σ (Except ε) β} {s : σ} {r : β × σ}
    (h : (x >>= f) s = .ok r) : ∃ a t, x s = .ok (a, t) ∧ f a t = .ok r := by
  obtain ⟨⟨a, t⟩, hx, hf⟩ := except_bind_ok h
  exact ⟨a, t, hx, hf⟩

theorem state_pure_ok {a : α} {s : σ} {r : α × σ} (h : (pure a : StateT σ (Except ε) α) s = .ok r) :
    r = (a, s) := by
  cases h
  rfl

theorem state_lift_ok {x : Except ε α} {s : σ} {r : α × σ}
    (h : (monadLift x : StateT σ (Except ε) α) s = .ok r) : x = .ok r.1 := by
  obtain ⟨a, hx, hr⟩ := except_bind_ok h
  cases hr
  exact hx

theorem except_map_ok {x : Except ε α} {f : α → β} {b : β} (h : x.map f = .ok b) : ∃ a, x = .ok a ∧ f a = b := by
  cases x with
  | error => cases h
  | ok a =>
    cases h
    exact ⟨a, rfl, rfl⟩

theorem except_mapM_ok {R : α → β → Prop} {f : α → Except ε β} (hf : ∀ a b, f a = .ok b → R a b) :
    ∀ {xs : List α} {ys : List β}, xs.mapM f = .ok ys → List.Forall₂ R xs ys
  | [], ys, h => by
    rw [List.mapM_nil] at h
    cases h
    exact .nil
  | x :: xs, ys, h => by
    rw [List.mapM_cons] at h
    obtain ⟨y, hy, h⟩ := except_bind_ok h
    obtain ⟨zs, hz, h⟩ := except_bind_ok h
    cases h
    exact .cons (hf x y hy) (except_mapM_ok hf hz)

theorem state_mapM_ok {R : α → β → Prop} {f : α → StateT σ (Except ε) β}
    (hf : ∀ a s b t, f a s = .ok (b, t) → R a b) :
    ∀ {xs : List α} {s : σ} {ys : List β} {t : σ}, xs.mapM f s = .ok (ys, t) → List.Forall₂ R xs ys
  | [], s, ys, t, h => by
    rw [List.mapM_nil] at h
    cases state_pure_ok h
    exact .nil
  | x :: xs, s, ys, t, h => by
    rw [List.mapM_cons] at h
    obtain ⟨y, s₁, hy, h⟩ := state_bind_ok h
    obtain ⟨zs, s₂, hz, h⟩ := state_bind_ok h
    cases state_pure_ok h
    exact .cons (hf x s y s₁ hy) (state_mapM_ok hf hz)

/-- The result of an activity has the property whatever the state is. -/
def Always (P : α → Prop) (x : StateM σ α) : Prop := ∀ s, P (x s).1

theorem Always.pure {P : α → Prop} {a : α} (h : P a) : Always P (pure a : StateM σ α) := fun _ => h

theorem Always.bind {P : α → Prop} {R : β → Prop} {x : StateM σ α} {f : α → StateM σ β} (hx : Always P x)
    (hf : ∀ a, P a → Always R (f a)) : Always R (x >>= f) :=
  fun s => hf (x s).1 (hx s) (x s).2

theorem Always.after {R : β → Prop} {x : StateM σ α} {f : α → StateM σ β} (hf : ∀ a, Always R (f a)) :
    Always R (x >>= f) :=
  fun s => hf (x s).1 (x s).2

/-- An activity that cannot fail does to a list what it does to its members. -/
theorem stateM_mapM {R : α → β → Prop} {f : α → StateM σ β} (hf : ∀ a s, R a (f a s).1) :
    ∀ (xs : List α) (s : σ), List.Forall₂ R xs (xs.mapM f s).1
  | [], s => by
    rw [List.mapM_nil]
    exact .nil
  | x :: xs, s => by
    rw [List.mapM_cons]
    exact .cons (hf x s) (stateM_mapM hf xs _)

end Results

section Yields

variable {α β σ ε : Type} {P : α → Prop} {R : β → Prop}

/-- The result of an activity, if there is one, has the property whatever the state is. -/
def Yields (P : α → Prop) (x : StateT σ (Except ε) α) : Prop := ∀ s r, x s = .ok r → P r.1

theorem Yields.pure {a : α} (h : P a) : Yields P (pure a : StateT σ (Except ε) α) := by
  intro s r hr
  cases state_pure_ok hr
  exact h

theorem Yields.bind {x : StateT σ (Except ε) α} {f : α → StateT σ (Except ε) β} (hx : Yields P x)
    (hf : ∀ a, P a → Yields R (f a)) : Yields R (x >>= f) := by
  intro s r hr
  obtain ⟨a, t, ha, hr⟩ := state_bind_ok hr
  exact hf a (hx s (a, t) ha) t r hr

theorem Yields.after {x : StateT σ (Except ε) α} {f : α → StateT σ (Except ε) β}
    (hf : ∀ a, Yields R (f a)) : Yields R (x >>= f) :=
  .bind (P := fun _ => True) (fun _ _ _ => trivial) fun a _ => hf a

end Yields

/-! ## Pointwise relations -/

/-- The contracts have functions in the same places, related by `R`. -/
structure Contract.Pointwise (R : FunctionDef → FunctionDef → Prop) (c d : Contract) : Prop where
  id : d.id = c.id
  name : d.name = c.name
  constructors : List.Forall₂ R c.constructors d.constructors
  functions : List.Forall₂ R c.functions d.functions

/-- The programs have contracts and functions in the same places, related by `R`. -/
def SourceUnit.Pointwise (R : FunctionDef → FunctionDef → Prop) (u v : SourceUnit) : Prop :=
  List.Forall₂ (Contract.Pointwise R) u.contracts v.contracts

section Pointwise

variable {R S T : FunctionDef → FunctionDef → Prop}

theorem forall₂_comp {α β γ : Type} {R : α → β → Prop} {S : β → γ → Prop} {T : α → γ → Prop}
    (h : ∀ a b c, R a b → S b c → T a c) :
    ∀ {xs : List α} {ys : List β} {zs : List γ}, List.Forall₂ R xs ys → List.Forall₂ S ys zs → List.Forall₂ T xs zs
  | _, _, _, .nil, .nil => .nil
  | _, _, _, .cons h₁ hs₁, .cons h₂ hs₂ => .cons (h _ _ _ h₁ h₂) (forall₂_comp h hs₁ hs₂)

theorem exists_mem_of_forall₂_left {α β : Type} {R : α → β → Prop} {xs : List α} {ys : List β}
    (h : List.Forall₂ R xs ys) {x : α} (hx : x ∈ xs) : ∃ y ∈ ys, R x y := by
  induction h with
  | nil => cases hx
  | cons hR _ ih =>
    rcases List.mem_cons.mp hx with rfl | hx
    · exact ⟨_, List.mem_cons_self, hR⟩
    · obtain ⟨y, hy, hR⟩ := ih hx
      exact ⟨y, List.mem_cons_of_mem _ hy, hR⟩

theorem exists_mem_of_forall₂_right {α β : Type} {R : α → β → Prop} {xs : List α} {ys : List β}
    (h : List.Forall₂ R xs ys) {y : β} (hy : y ∈ ys) : ∃ x ∈ xs, R x y :=
  exists_mem_of_forall₂_left h.flip hy

theorem forall_mem_of_forall₂_left {α β : Type} {P : α → Prop} {xs : List α} {ys : List β}
    (h : List.Forall₂ (fun x _ => P x) xs ys) : ∀ x ∈ xs, P x := by
  intro x hx
  obtain ⟨_, -, hP⟩ := exists_mem_of_forall₂_left h hx
  exact hP

theorem forall_mem_of_forall₂_right {α β : Type} {P : β → Prop} {xs : List α} {ys : List β}
    (h : List.Forall₂ (fun _ y => P y) xs ys) : ∀ y ∈ ys, P y :=
  forall_mem_of_forall₂_left h.flip

theorem Contract.Pointwise.refl (h : ∀ f, R f f) (c : Contract) : c.Pointwise R c :=
  ⟨rfl, rfl, List.forall₂_same.mpr fun f _ => h f, List.forall₂_same.mpr fun f _ => h f⟩

theorem SourceUnit.Pointwise.refl (h : ∀ f, R f f) (u : SourceUnit) : u.Pointwise R u :=
  List.forall₂_same.mpr fun c _ => .refl h c

theorem Contract.Pointwise.trans (h : ∀ f g k, R f g → S g k → T f k) {a b c : Contract}
    (h₁ : a.Pointwise R b) (h₂ : b.Pointwise S c) : a.Pointwise T c :=
  ⟨h₂.id.trans h₁.id, h₂.name.trans h₁.name, forall₂_comp h h₁.constructors h₂.constructors,
    forall₂_comp h h₁.functions h₂.functions⟩

theorem SourceUnit.Pointwise.trans (h : ∀ f g k, R f g → S g k → T f k) {u v w : SourceUnit}
    (h₁ : u.Pointwise R v) (h₂ : v.Pointwise S w) : u.Pointwise T w :=
  forall₂_comp (fun _ _ _ hR hS => hR.trans h hS) h₁ h₂

theorem Contract.Pointwise.mono (h : ∀ f g, R f g → S f g) {c d : Contract} (hR : c.Pointwise R d) :
    c.Pointwise S d :=
  ⟨hR.id, hR.name, hR.constructors.imp h, hR.functions.imp h⟩

theorem SourceUnit.Pointwise.mono (h : ∀ f g, R f g → S f g) {u v : SourceUnit} (hR : u.Pointwise R v) :
    u.Pointwise S v :=
  List.Forall₂.imp (fun _ _ hc => hc.mono h) hR

end Pointwise

/-! ## Passes over functions -/

/-- The second function has the number, the name and the modifiers of the first. -/
structure FunctionDef.SameSignature (f g : FunctionDef) : Prop where
  id : g.id = f.id
  name : g.name = f.name
  modifiers : g.modifiers = f.modifiers

/-- The second function also has the marks about proofs of the first. -/
structure FunctionDef.SameMarks (f g : FunctionDef) : Prop extends f.SameSignature g where
  needsProof : g.facts.needsProof = f.facts.needsProof
  needsProofExternally : g.facts.needsProofExternally = f.facts.needsProofExternally

namespace FunctionDef

theorem SameMarks.refl (f : FunctionDef) : f.SameMarks f := ⟨⟨rfl, rfl, rfl⟩, rfl, rfl⟩

theorem SameSignature.trans {f g k : FunctionDef} (h₁ : f.SameSignature g) (h₂ : g.SameSignature k) :
    f.SameSignature k :=
  ⟨h₂.id.trans h₁.id, h₂.name.trans h₁.name, h₂.modifiers.trans h₁.modifiers⟩

theorem SameMarks.trans {f g k : FunctionDef} (h₁ : f.SameMarks g) (h₂ : g.SameMarks k) : f.SameMarks k :=
  ⟨h₁.toSameSignature.trans h₂.toSameSignature, h₂.needsProof.trans h₁.needsProof,
    h₂.needsProofExternally.trans h₁.needsProofExternally⟩

theorem SameSignature.canBeExternal {f g : FunctionDef} (h : f.SameSignature g) :
    g.canBeExternal = f.canBeExternal := by
  unfold FunctionDef.canBeExternal
  rw [h.modifiers]

end FunctionDef

/-- What a program keeps when every function keeps its signature and its marks about proofs. -/
abbrev SourceUnit.Keeps (u v : SourceUnit) : Prop := u.Pointwise FunctionDef.SameMarks v

theorem SourceUnit.Keeps.refl (u : SourceUnit) : u.Keeps u := Pointwise.refl .refl u

theorem SourceUnit.Keeps.trans {u v w : SourceUnit} (h₁ : u.Keeps v) (h₂ : v.Keeps w) : u.Keeps w :=
  Pointwise.trans (fun _ _ _ => .trans) h₁ h₂

/-- A relation between functions that looks neither at types and bodies nor at what the later analyses find out. -/
structure Coarse (R : FunctionDef → FunctionDef → Prop) : Prop where
  refl : ∀ f, R f f
  trans : ∀ f g k, R f g → R g k → R f k
  code : ∀ (f : FunctionDef) params returns body, R f { f with params := params, returns := returns, body := body }
  summary : ∀ (f : FunctionDef) body writes reads,
    R f { f with body := body, facts := { f.facts with writes := writes, reads := reads } }

theorem FunctionDef.sameMarks_coarse : Coarse SameMarks where
  refl := .refl
  trans _ _ _ := .trans
  code _ _ _ _ := ⟨⟨rfl, rfl, rfl⟩, rfl, rfl⟩
  summary _ _ _ _ := ⟨⟨rfl, rfl, rfl⟩, rfl, rfl⟩

section Folds

variable {α β σ : Type} {R : α → β → Prop}

/-- A fold whose steps append one result for each member. -/
theorem foldl_append_forall₂ {step : List β × σ → α → List β × σ}
    (h : ∀ p a, ∃ b, (step p a).1 = p.1 ++ [b] ∧ R a b) :
    ∀ (xs : List α) (p : List β × σ), ∃ ys, (xs.foldl step p).1 = p.1 ++ ys ∧ List.Forall₂ R xs ys
  | [], p => ⟨[], by simp, .nil⟩
  | x :: xs, p => by
    obtain ⟨y, hy, hR⟩ := h p x
    obtain ⟨ys, hys, hRs⟩ := foldl_append_forall₂ h xs (step p x)
    refine ⟨y :: ys, ?_, .cons hR hRs⟩
    rw [List.foldl_cons, hys, hy, List.append_assoc]
    rfl

theorem foldl_forall₂ {step : List β × σ → α → List β × σ}
    (h : ∀ p a, ∃ b, (step p a).1 = p.1 ++ [b] ∧ R a b) (xs : List α) (s : σ) :
    List.Forall₂ R xs (xs.foldl step ([], s)).1 := by
  obtain ⟨ys, hys, hR⟩ := foldl_append_forall₂ h xs ([], s)
  rw [hys]
  exact hR

end Folds

namespace SourceUnit

variable {R : FunctionDef → FunctionDef → Prop}

theorem mapFunctions_pointwise {σ : Type} {f : Contract → FunctionDef → σ → FunctionDef × σ}
    (h : ∀ c g s, R g (f c g s).1) (u : SourceUnit) (s : σ) : u.Pointwise R (u.mapFunctions s f).1 := by
  refine foldl_forall₂ (fun p c => ⟨_, rfl, rfl, rfl, ?_, ?_⟩) u.contracts s
  · exact foldl_forall₂ (fun q g => ⟨_, rfl, h c g q.2⟩) c.constructors p.2
  · exact foldl_forall₂ (fun q g => ⟨_, rfl, h c g q.2⟩) c.functions _

theorem mapFacts_pointwise {f : Symbols → FunctionDef → FunctionFacts}
    (h : ∀ symbols g, R g { g with facts := f symbols g }) (u : SourceUnit) : u.Pointwise R (u.mapFacts f) :=
  mapFunctions_pointwise (fun _ g s => h s g) u u.symbols

/-- A pass that visits constructors and functions and can fail. -/
theorem visit_pointwise {visit : Contract → FunctionDef → Except Error FunctionDef}
    (h : ∀ c f g, visit c f = .ok g → R f g) {u : SourceUnit} {contracts : List Contract}
    (hm : (u.contracts.mapM fun c => do
      let constructors ← c.constructors.mapM (visit c)
      let functions ← c.functions.mapM (visit c)
      return { c with constructors, functions }) = .ok contracts) :
    u.Pointwise R { u with contracts } := by
  refine except_mapM_ok (fun c d hd => ?_) hm
  obtain ⟨constructors, hc, hd⟩ := except_bind_ok hd
  obtain ⟨functions, hf, hd⟩ := except_bind_ok hd
  cases hd
  exact ⟨rfl, rfl, except_mapM_ok (h c) hc, except_mapM_ok (h c) hf⟩

theorem markAliases_pointwise (hR : Coarse R) {u v : SourceUnit} (h : u.markAliases = .ok v) : u.Pointwise R v := by
  obtain ⟨contracts, hm, hv⟩ := except_bind_ok h
  cases hv
  refine visit_pointwise (fun c f g hg => ?_) hm
  obtain ⟨body, _, hg⟩ := except_bind_ok hg
  cases hg
  exact hR.code f _ _ _

theorem markCalls_pointwise (trans : ∀ f g k, R f g → R g k → R f k)
    (calls : ∀ (f : FunctionDef) calls recursive staticBody,
      R f { f with facts := { f.facts with calls := calls, recursive := recursive, staticBody := staticBody } })
    {u v : SourceUnit} (h : u.markCalls = .ok v) : u.Pointwise R v := by
  obtain ⟨w, hw, hv⟩ := except_bind_ok h
  cases hv
  obtain ⟨contracts, hm, hw⟩ := except_bind_ok hw
  cases hw
  have direct : u.Pointwise R { u with contracts } := by
    refine visit_pointwise (fun c f g hg => ?_) hm
    obtain ⟨ids, _, hg⟩ := except_bind_ok hg
    cases hg
    exact calls f _ _ _
  refine (direct.trans trans (mapFacts_pointwise (fun _ g => ?_) _)).trans trans (mapFacts_pointwise (fun _ g => ?_) _) <;>
    exact calls g _ _ _

theorem markCalls_keeps {u v : SourceUnit} (h : u.markCalls = .ok v) : u.Keeps v :=
  markCalls_pointwise (fun _ _ _ => .trans) (fun _ _ _ _ => ⟨⟨rfl, rfl, rfl⟩, rfl, rfl⟩) h

theorem markCalled_pointwise (hR : Coarse R) (n : Nat) (u : SourceUnit) : u.Pointwise R (markCalled n u) := by
  induction n generalizing u with
  | zero => exact .refl hR.refl u
  | succ n ih =>
    have once : u.Pointwise R u.markCalledOnce := mapFunctions_pointwise (fun _ f _ => hR.summary f _ _ _) u _
    unfold markCalled
    simp only
    split
    · exact once
    · exact once.trans hR.trans (ih _)

theorem markAccesses_pointwise (hR : Coarse R) {u v : SourceUnit} (h : u.markAccesses = .ok v) :
    u.Pointwise R v := by
  obtain ⟨w, hw, hv⟩ := except_bind_ok h
  cases hv
  obtain ⟨contracts, hm, hw⟩ := except_bind_ok hw
  cases hw
  have own : u.Pointwise R { u with contracts } := by
    refine visit_pointwise (fun c f g hg => ?_) hm
    obtain ⟨body, _, hg⟩ := except_bind_ok hg
    cases hg
    exact hR.summary f _ _ _
  exact own.trans hR.trans (markCalled_pointwise hR _ _)

end SourceUnit

section Coarse

variable {R : FunctionDef → FunctionDef → Prop}

/-- What linking does to each function. -/
theorem SourceUnit.link_each (each : ∀ (c : LinkContext) (f : FunctionDef) (s : LinkState) (g : FunctionDef)
      (t : LinkState), f.link c s = .ok (g, t) → R f g) {u v : SourceUnit} {next n : Nat} (h : u.link next = .ok (v, n)) :
    u.Pointwise R v := by
  unfold SourceUnit.link at h
  obtain ⟨_, _, h⟩ := except_bind_ok h
  obtain ⟨⟨contracts, s⟩, hm, h⟩ := except_bind_ok h
  cases h
  have contract : ∀ c s d t, Contract.link u c s = .ok (d, t) → c.Pointwise R d := by
    intro c s d t h
    obtain ⟨structs, s₁, _, h⟩ := state_bind_ok h
    obtain ⟨state, s₂, _, h⟩ := state_bind_ok h
    obtain ⟨constructors, s₃, hc, h⟩ := state_bind_ok h
    obtain ⟨functions, s₄, hf, h⟩ := state_bind_ok h
    cases state_pure_ok h
    exact ⟨rfl, rfl, state_mapM_ok (each _) hc, state_mapM_ok (each _) hf⟩
  exact state_mapM_ok contract hm

variable (hR : Coarse R)

include hR

theorem FunctionDef.link_related {c : LinkContext} {f g : FunctionDef} {s t : LinkState}
    (h : f.link c s = .ok (g, t)) : R f g := by
  obtain ⟨params, s₁, _, h⟩ := state_bind_ok h
  obtain ⟨returns, s₂, _, h⟩ := state_bind_ok h
  obtain ⟨body, s₃, _, h⟩ := state_bind_ok h
  obtain ⟨_, s₄, _, h⟩ := state_bind_ok h
  cases state_pure_ok h
  exact hR.code f _ _ _

theorem SourceUnit.link_pointwise {u v : SourceUnit} {next n : Nat} (h : u.link next = .ok (v, n)) :
    u.Pointwise R v := link_each (fun _ _ _ _ _ => FunctionDef.link_related hR) h

end Coarse

namespace CheckM

variable {α β : Type} {P : β → Prop}

theorem always_unlessStopped {b : β} {x : CheckM β} (h : P b) (hx : Always P x) :
    Always P (CheckM.unlessStopped b x) := by
  refine .after fun stop => ?_
  cases stop with
  | false => exact hx
  | true => exact .pure h

theorem always_ensure {ok : Bool} {e : Error} {b : β} {x : CheckM β} (h : P b) (hx : Always P x) :
    Always P (CheckM.ensure ok e b x) := by
  cases ok with
  | false => exact .after fun _ => .pure h
  | true => exact hx

theorem always_fail {e : Error} {b : β} (h : P b) : Always P (CheckM.fail e b) := .after fun _ => .pure h

theorem always_attempt {x : Except Error α} {b : β} {next : α → CheckM β} (h : P b)
    (hn : ∀ a, Always P (next a)) : Always P (CheckM.attempt x b next) := by
  cases x with
  | error e => exact always_fail h
  | ok a => exact hn a

theorem always_convert {c : Conversion} {put : Expr → β} {next : Expr → CheckM β} (h : ∀ e, P (put e))
    (hn : ∀ e, Always P (next e)) : Always P (CheckM.convert c put next) := by
  unfold CheckM.convert
  split
  · exact hn _
  · exact always_fail (h _)

theorem always_convertAll {c : List Expr × Except Error (List Expr)} {put : List Expr → β}
    {next : List Expr → CheckM β} (h : ∀ es, P (put es)) (hn : ∀ es, Always P (next es)) :
    Always P (CheckM.convertAll c put next) := by
  unfold CheckM.convertAll
  split
  · exact hn _
  · exact always_fail (h _)

end CheckM

section Coarse

variable {R : FunctionDef → FunctionDef → Prop} (hR : Coarse R)

include hR

open CheckM in
theorem FunctionDef.check_related (site : Site) (f : FunctionDef) : Always (R f) (f.check site) := by
  refine .after fun stop => ?_
  cases stop with
  | true => exact .pure (hR.refl f)
  | false =>
    refine .after fun params => .after fun returns => .after fun _ => .after fun body => .after fun _ => ?_
    have h := hR.code f params returns body
    exact always_unlessStopped h (always_ensure h (always_ensure h (.pure h)))

theorem Contract.check_pointwise (text : List String) (c : Contract) :
    Always (Contract.Pointwise R c) (c.check text) := fun _ =>
  ⟨rfl, rfl, stateM_mapM (FunctionDef.check_related hR _) _ _, stateM_mapM (FunctionDef.check_related hR _) _ _⟩

theorem Contract.settle_pointwise (symbols : Symbols) (c : Contract) : c.Pointwise R (c.settle symbols) := by
  refine ⟨rfl, rfl, ?_, ?_⟩ <;>
    exact List.forall₂_map_right_iff.mpr (List.forall₂_same.mpr fun f _ => hR.code f _ _ _)

theorem SourceUnit.check_pointwise (u : SourceUnit) : u.Pointwise R u.check.unit := by
  unfold SourceUnit.check
  split
  · exact .refl hR.refl u
  · have checked := stateM_mapM (Contract.check_pointwise hR u.text) u.contracts ⟨u.symbols, none, []⟩
    have settled (symbols : Symbols) (cs : List Contract) :
        List.Forall₂ (Contract.Pointwise R) cs (cs.map (Contract.settle symbols)) :=
      List.forall₂_map_right_iff.mpr (List.forall₂_same.mpr fun c _ => c.settle_pointwise hR symbols)
    show List.Forall₂ _ _ (ite _ _ _)
    split
    · exact forall₂_comp (fun _ _ _ => .trans hR.trans) checked (settled _ _)
    · exact checked

theorem SourceUnit.place_pointwise (u : SourceUnit) (b : Bool) : u.Pointwise R (u.place b).1 := by
  refine stateM_mapM (fun c s => ?_) _ _
  refine ⟨rfl, rfl, stateM_mapM (fun f s => ?_) _ _, stateM_mapM (fun f s => ?_) _ _⟩ <;>
    exact hR.code f _ _ _

theorem SourceUnit.markCapable_pointwise
    (capable : ∀ (f : FunctionDef) b, R f { f with facts := { f.facts with canBePrivate := b } }) (u : SourceUnit) :
    u.Pointwise R u.markCapable := by
  refine .trans hR.trans (mapFacts_pointwise (fun _ g => ?_) _) (mapFacts_pointwise (fun _ g => ?_) _) <;>
    exact capable g _

theorem SourceUnit.markInlined_pointwise (u : SourceUnit) : u.Pointwise R u.markInlined := by
  have bodies := mapFunctions_pointwise (R := R) (σ := Unit)
    (f := fun _ f _ => ({ f with body := f.body.mapExprs (Expr.markInlined u.symbols) }, ()))
    (fun _ f _ => hR.code f _ _ _) u ()
  refine List.forall₂_map_right_iff.mpr (bodies.imp fun c d h => ?_)
  exact ⟨h.id, h.name, h.constructors, h.functions⟩

end Coarse

theorem SourceUnit.markHoms_keeps (u : SourceUnit) (o : Options) : u.Keeps (u.markHoms o) :=
  mapFacts_pointwise (fun _ _ => ⟨⟨rfl, rfl, rfl⟩, rfl, rfl⟩) u

/-! ## Marks about proofs -/

/-- A function that needs a proof whenever it is called also needs one when it is called from outside, and
another one only if it can be called from outside. -/
structure FunctionDef.Consistent (f : FunctionDef) : Prop where
  outside : f.facts.needsProof → f.facts.needsProofExternally
  inside : f.facts.needsProofExternally → f.facts.needsProof ∨ f.canBeExternal

/-- The marks of a function that was unmarked are consistent now. -/
structure FunctionDef.Marked (f g : FunctionDef) : Prop extends f.SameSignature g where
  consistent : f.facts.needsProofExternally = false → g.Consistent

theorem FunctionDef.SameMarks.marked {f g k : FunctionDef} (h₁ : f.SameMarks g) (h₂ : g.Marked k) :
    f.Marked k :=
  ⟨h₁.toSameSignature.trans h₂.toSameSignature, fun h => h₂.consistent (h₁.needsProofExternally.trans h)⟩

theorem FunctionDef.SameMarks.consistent {f g : FunctionDef} (h : f.SameMarks g) (hf : f.Consistent) :
    g.Consistent := by
  constructor
  · rw [h.needsProof, h.needsProofExternally]
    exact hf.outside
  · rw [h.needsProof, h.needsProofExternally, h.canBeExternal]
    exact hf.inside

theorem FunctionDef.Marked.keeps {f g k : FunctionDef} (h₁ : f.Marked g) (h₂ : g.SameMarks k) : f.Marked k :=
  ⟨h₁.toSameSignature.trans h₂.toSameSignature, fun h => h₂.consistent (h₁.consistent h)⟩

/-- The program has the functions of one that was unmarked, with consistent marks. -/
abbrev SourceUnit.Marks (u v : SourceUnit) : Prop := u.Pointwise FunctionDef.Marked v

theorem SourceUnit.Keeps.marked {u v w : SourceUnit} (h₁ : u.Keeps v) (h₂ : v.Marks w) : u.Marks w :=
  Pointwise.trans (fun _ _ _ h h' => h.marked h') h₁ h₂

theorem SourceUnit.Marks.keeps {u v w : SourceUnit} (h₁ : u.Marks v) (h₂ : v.Keeps w) : u.Marks w :=
  Pointwise.trans (fun _ _ _ h h' => h.keeps h') h₁ h₂

theorem SourceUnit.markProofs_marked (u : SourceUnit) : u.Marks u.markProofs := by
  -- The first round looks at the function alone, the second one adds the proofs of its callees.
  refine Pointwise.trans (R := FunctionDef.Marked)
    (S := fun f g => f.SameSignature g ∧ (f.Consistent → g.Consistent))
    (fun f g k h₁ h₂ => ⟨h₁.toSameSignature.trans h₂.1, fun h => h₂.2 (h₁.consistent h)⟩)
    (mapFacts_pointwise (fun _ f => ?_) u) (mapFacts_pointwise (fun symbols f => ?_) _)
  · refine ⟨⟨rfl, rfl, rfl⟩, fun h => ⟨fun needs => ?_, fun outside => ?_⟩⟩
    · simp_all
    · simp only [h, Bool.false_or, Bool.or_eq_true, Bool.and_eq_true] at outside
      exact outside.imp (by simp) And.left
  · refine ⟨⟨rfl, rfl, rfl⟩, ?_⟩
    simp only
    split
    · exact fun _ => ⟨fun _ => rfl, fun _ => .inl rfl⟩
    · exact fun h => ⟨h.outside, h.inside⟩

theorem Checked.andThen_accepted {c : Checked} {next : SourceUnit → Checked}
    (h : (c.andThen next).failure = none) :
    c.failure = none ∧ (next c.unit).failure = none ∧ (c.andThen next).unit = (next c.unit).unit := by
  unfold Checked.andThen at h ⊢
  split at h
  · rename_i e he
    rw [he] at h
    cases h
  · rename_i he
    rw [he]
    exact ⟨rfl, h, rfl⟩

theorem Checked.ensure_unit (u : SourceUnit) (x : Except Error Unit) : (Checked.ensure u x).unit = u := by
  unfold Checked.ensure
  split <;> rfl

theorem SourceUnit.markCircuits_marked {u : SourceUnit} {o : Options} (h : (u.markCircuits o).failure = none) :
    u.Marks (u.markCircuits o).unit := by
  have placed : u.Keeps (u.markCapable.place o.foldConstants.holds).1 :=
    (u.markCapable_pointwise FunctionDef.sameMarks_coarse (fun _ _ => ⟨⟨rfl, rfl, rfl⟩, rfl, rfl⟩)).trans
      (fun _ _ _ => .trans)
      (u.markCapable.place_pointwise FunctionDef.sameMarks_coarse _)
  unfold SourceUnit.markCircuits at h ⊢
  generalize u.markCapable.place o.foldConstants.holds = w at h placed ⊢
  obtain ⟨h₁, _, hu₁⟩ := Checked.andThen_accepted h
  obtain ⟨h₂, _, hu₂⟩ := Checked.andThen_accepted h₁
  obtain ⟨_, _, hu₃⟩ := Checked.andThen_accepted h₂
  rw [hu₁, hu₂, hu₃]
  simp only [Checked.ensure_unit]
  exact (placed.marked (markProofs_marked _)).keeps
    (markInlined_pointwise FunctionDef.sameMarks_coarse _)

/-! ## The passes before splitting -/

namespace Progress

/-- The marks about proofs are only made by the last pass. -/
theorem run_keeps (o : Options) (p : Progress) (x : Pass) (h : x ≠ .circuits) :
    p.unit.Keeps (p.run o x).unit := by
  cases x with
  | parents => exact .refl _
  | link =>
    unfold run
    simp only
    split
    · rename_i u next hl
      exact SourceUnit.link_pointwise FunctionDef.sameMarks_coarse hl
    · exact .refl _
  | returns | order | finality =>
    unfold run verify
    simp only
    split <;> exact .refl _
  | aliases =>
    unfold run update
    simp only
    split
    · rename_i u hu
      exact SourceUnit.markAliases_pointwise FunctionDef.sameMarks_coarse hu
    · exact .refl _
  | calls =>
    unfold run update
    simp only
    split
    · rename_i u hu
      exact SourceUnit.markCalls_keeps hu
    · exact .refl _
  | accesses =>
    unfold run update
    simp only
    split
    · rename_i u hu
      exact SourceUnit.markAccesses_pointwise FunctionDef.sameMarks_coarse hu
    · exact .refl _
  | types => exact SourceUnit.check_pointwise FunctionDef.sameMarks_coarse _
  | circuits => exact absurd rfl h

theorem runAll_keeps (o : Options) (xs : List Pass) (p : Progress) (h : Pass.circuits ∉ xs) :
    p.unit.Keeps (p.runAll o xs).1.unit := by
  induction xs generalizing p with
  | nil => exact .refl _
  | cons x xs ih =>
    obtain ⟨hx, hxs⟩ := not_or.mp (List.mem_cons.not.mp h)
    have first := p.run_keeps o x (Ne.symm hx)
    unfold runAll
    simp only
    split
    · exact first
    · exact first.trans (ih _ hxs)

theorem stage_keeps (o : Options) (stage : Stage) (xs : List Pass) (p : Progress) (h : Pass.circuits ∉ xs) :
    p.unit.Keeps (p.stage o stage xs).unit := p.runAll_keeps o xs h

theorem result_ok {p q : Progress} (h : p.result = .ok q) : q = p ∧ p.failure = none := by
  unfold result at h
  split at h
  · cases h
  · rename_i hf
    cases h
    exact ⟨rfl, hf⟩

theorem analyse_keeps {o : Options} {s : Selection} {p q : Progress} (h : p.analyse o s = .ok q) :
    p.unit.Keeps q.unit := by
  obtain ⟨p₁, hp₁, h⟩ := except_bind_ok h
  obtain ⟨rfl, _⟩ := result_ok hp₁
  obtain ⟨rfl, _⟩ := result_ok h
  refine (p.stage_keeps o .symbols _ (by decide)).trans (stage_keeps o .analysis _ _ ?_)
  split <;> split <;> decide

theorem runAll_cons_accepted {o : Options} {x : Pass} {xs : List Pass} {p : Progress}
    (h : (p.runAll o (x :: xs)).1.failure = none) :
    (p.runAll o (x :: xs)).1 = ((p.run o x).runAll o xs).1 := by
  cases he : (p.run o x).failure with
  | some e => simp [runAll, he] at h
  | none => simp only [runAll, he]

/-- The last stage marks the functions. -/
theorem typing_marked {o : Options} {p : Progress}
    (h : (p.stage o .typing [.order, .types, .circuits]).failure = none) :
    p.unit.Marks (p.stage o .typing [.order, .types, .circuits]).unit := by
  replace h : (p.runAll o [.order, .types, .circuits]).1.failure = none := Option.map_eq_none_iff.mp h
  show p.unit.Marks (p.runAll o [.order, .types, .circuits]).1.unit
  have h₁ := runAll_cons_accepted h
  rw [h₁] at h ⊢
  have h₂ := runAll_cons_accepted h
  rw [h₂] at h ⊢
  have h₃ := runAll_cons_accepted h
  rw [h₃] at h ⊢
  have before := (p.run_keeps o .order (by decide)).trans ((p.run o .order).run_keeps o .types (by decide))
  exact before.marked (SourceUnit.markCircuits_marked h)

end Progress

theorem Transcript.step_result {α : Type} (o : Options) (context announcement : String) (t : Transcript)
    (work : Transcript → Transcript × Except Error α) :
    ∃ t', (t.step o context announcement work).2 = (work t').2 := ⟨_, rfl⟩

/-- An accepted program has the functions of the fresh one, and its marks about proofs are consistent. -/
theorem SourceUnit.process_marked {u : SourceUnit} {next : Nat} {o : Options} {s : Selection} {t : Transcript}
    {p : Progress} (hs : s.types = true) (h : (u.process next o s t).2 = .ok p) : u.Marks p.unit := by
  unfold SourceUnit.process at h
  obtain ⟨t₁, hr⟩ := Transcript.step_result o "preprocess" "Preprocessing AST" t fun t =>
    (t, (Progress.start u next).analyse o s)
  generalize t.step o "preprocess" "Preprocessing AST" (fun t => (t, (Progress.start u next).analyse o s)) = w
    at h hr
  obtain ⟨t₂, r⟩ := w
  cases r with
  | error e => cases h
  | ok q =>
    have analysed : u.Keeps q.unit := Progress.analyse_keeps hr.symm
    simp only [hs, Bool.not_true, Bool.false_eq_true, if_false] at h
    obtain ⟨t₃, hr⟩ := Transcript.step_result o "typecheck" "Zkay type checking" t₂ _
    rw [hr] at h
    split at h
    · rename_i hf
      cases h
      exact analysed.marked (Progress.typing_marked hf)
    · cases h

end Shroud
