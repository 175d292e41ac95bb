import Shroud.Proofs.Requirement
import Shroud.Proofs.Wrappers

/-!
# Splitting whole programs

Contracts are split one after the other, and the circuits of earlier contracts are passed on.
`Contract.Assembled` gathers all that splitting one contract does to the circuits. A property of circuits holds of a
compiled program if splitting a contract keeps it.

**Numbers.** New functions get numbers that no declaration of the program has, so their circuits are told apart from
those of the program's own functions.
-/

namespace Shroud

open Circuit

/-! ## Numbers handed out by passes -/

theorem FunctionDef.link_next {f g : FunctionDef} {c : LinkContext} {s t : LinkState} (h : f.link c s = .ok (g, t)) :
    s.next ≤ t.next := by
  obtain ⟨params, s₁, hp, h⟩ := state_bind_ok h
  obtain ⟨returns, s₂, hr, h⟩ := state_bind_ok h
  obtain ⟨body, s₃, hb, h⟩ := state_bind_ok h
  obtain ⟨_, s₄, hm, h⟩ := state_bind_ok h
  cases state_pure_ok h
  cases hm
  exact Nat.le_trans (Param.growing_linkAll _ _ _ _ hp).next
    (Nat.le_trans (Param.growing_linkAll _ _ _ _ hr).next (Block.growing_link _ _ _ _ hb).next)

theorem link_mapM_next {α β : Type} {f : α → LinkM β} (hf : ∀ a s b t, f a s = .ok (b, t) → s.next ≤ t.next)
    {as : List α} {bs : List β} {s t : LinkState} (h : as.mapM f s = .ok (bs, t)) : s.next ≤ t.next := by
  induction as generalizing s bs with
  | nil =>
    rw [List.mapM_nil] at h
    cases state_pure_ok h
    exact Nat.le_refl _
  | cons a as ih =>
    rw [List.mapM_cons] at h
    obtain ⟨b, s₁, hb, h⟩ := state_bind_ok h
    obtain ⟨rest, s₂, hr, h⟩ := state_bind_ok h
    cases state_pure_ok h
    exact Nat.le_trans (hf a s b s₁ hb) (ih hr)

theorem Contract.link_next {u : SourceUnit} {c d : Contract} {s t : LinkState} (h : c.link u s = .ok (d, t)) :
    s.next ≤ t.next := by
  obtain ⟨structs, s₁, h₁, h⟩ := state_bind_ok h
  obtain ⟨state, s₂, h₂, h⟩ := state_bind_ok h
  obtain ⟨constructors, s₃, h₃, h⟩ := state_bind_ok h
  obtain ⟨functions, s₄, h₄, h⟩ := state_bind_ok h
  cases state_pure_ok h
  have first : s.next ≤ s₁.next := link_mapM_next (fun d s e t hd => ?_) h₁
  · have second : s₁.next ≤ s₂.next := link_mapM_next (fun i s j t hi => ?_) h₂
    · have third := link_mapM_next (fun _ _ _ _ => FunctionDef.link_next) h₃
      have fourth := link_mapM_next (fun _ _ _ _ => FunctionDef.link_next) h₄
      omega
    · unfold StateItem.link at hi
      split at hi
      · obtain ⟨_, s₁, h₁, hi⟩ := state_bind_ok hi
        obtain ⟨_, s₂, h₂, hi⟩ := state_bind_ok hi
        obtain ⟨_, s₃, h₃, hi⟩ := state_bind_ok hi
        cases state_pure_ok hi
        exact Nat.le_trans (AnnTy.growing_link _ _ _ _ h₁).next
          (Nat.le_trans (LinkM.growing_record _ _ h₂).next (Expr.growing_link? _ _ _ _ h₃).next)
      · cases state_pure_ok hi
        exact Nat.le_refl _
  · obtain ⟨members, s₁, h₁, hd⟩ := state_bind_ok hd
    cases state_pure_ok hd
    exact link_mapM_next (fun v s w t hv => (LocalVar.growing_link _ _ _ _ hv).next) h₁

theorem SourceUnit.link_next {u v : SourceUnit} {next n : Nat} (h : u.link next = .ok (v, n)) : next ≤ n := by
  unfold SourceUnit.link at h
  obtain ⟨_, _, h⟩ := except_bind_ok h
  obtain ⟨⟨contracts, s⟩, hm, h⟩ := except_bind_ok h
  cases h
  exact link_mapM_next (fun _ _ _ _ => Contract.link_next) hm

namespace Progress

theorem run_next (o : Options) (p : Progress) (x : Pass) : p.next ≤ (p.run o x).next := by
  cases x with
  | link =>
    unfold run
    dsimp only
    split
    · rename_i h
      exact SourceUnit.link_next h
    · exact Nat.le_refl _
  | parents | types | circuits => exact Nat.le_refl _
  | returns | order | finality =>
    unfold run verify
    dsimp only
    split <;> exact Nat.le_refl _
  | aliases | calls | accesses =>
    unfold run update
    dsimp only
    split <;> exact Nat.le_refl _

theorem runAll_next (o : Options) (xs : List Pass) (p : Progress) : p.next ≤ (p.runAll o xs).1.next := by
  induction xs generalizing p with
  | nil => exact Nat.le_refl _
  | cons x xs ih =>
    unfold runAll
    dsimp only
    split
    · exact run_next o p x
    · exact Nat.le_trans (run_next o p x) (ih _)

theorem stage_next (o : Options) (s : Stage) (xs : List Pass) (p : Progress) : p.next ≤ (p.stage o s xs).next :=
  runAll_next o xs p

end Progress

theorem SourceUnit.process_next {u : SourceUnit} {next : Nat} {o : Options} {t : Transcript} {p : Progress}
    (h : (u.process next o .all t).2 = .ok p) : next ≤ p.next := by
  unfold SourceUnit.process at h
  obtain ⟨t₁, hr⟩ := Transcript.step_result o "preprocess" "Preprocessing AST" t fun t =>
    (t, (Progress.start u next).analyse o .all)
  generalize t.step o "preprocess" "Preprocessing AST" (fun t => (t, (Progress.start u next).analyse o .all)) = w
    at h hr
  obtain ⟨t₂, r⟩ := w
  cases r with
  | error e => cases h
  | ok q =>
    obtain ⟨q₁, hq₁, hq⟩ := except_bind_ok hr.symm
    obtain ⟨rfl, _⟩ := Progress.result_ok hq₁
    obtain ⟨rfl, _⟩ := Progress.result_ok hq
    have linked := Progress.stage_next o .symbols [.parents, .link] (Progress.start u next)
    obtain ⟨t₃, hr⟩ := Transcript.step_result o "typecheck" "Zkay type checking" t₂ _
    simp only [Selection.all, Bool.not_true, Bool.false_eq_true, if_false] at h
    rw [hr] at h
    split at h
    · cases h
      exact Nat.le_trans linked (Nat.le_trans (Progress.stage_next o _ _ _) (Progress.stage_next o _ _ _))
    · cases h

/-! ## One contract -/

/-- The function with this number needs a proof. -/
def SourceUnit.NeedsProof (u : SourceUnit) (i : Nat) : Prop :=
  ∃ f ∈ u.allFunctions, f.id = i ∧ f.facts.needsProof = true

theorem SourceUnit.symbols_proves (u : SourceUnit) : u.symbols.Proves u.NeedsProof := by
  intro i g hg needs
  rcases (function?_found hg).1 with own | builtin
  · exact ⟨g, own, rfl, needs⟩
  · rw [Builtin.methods_needsProof builtin] at needs
    cases needs

/-- What splitting one contract does to the circuits before functions are taken apart: bodies are split, then calls are
laid out. -/
structure Contract.Prepared (P : Nat → Prop) (c : Contract) (cs built ready : List Circuit) : Prop where
  fresh : ∀ k ∈ cs, k.function ∉ c.allFunctions.map FunctionDef.id
  numbers : (c.allFunctions.map FunctionDef.id).Nodup
  needs : ∀ f ∈ c.allFunctions, P f.id ↔ f.facts.needsProof = true
  distinct : Distinct (cs ++ c.emptyCircuits)
  split : List.Forall₂ (fun a b => a.Built c.knownOwners P b ∧ (a.function ∉ c.allFunctions.map FunctionDef.id → b = a))
    (cs ++ c.emptyCircuits) built
  later : List.Forall₂ (Readied (c.functionsWith (·.facts.needsProof)) (c.functionsWith (!·.facts.needsProof))
    (c.functionsWith (·.facts.needsProofExternally)) built ready) built ready

/-- The names that the private arguments of a function take up in the circuit of its external part. -/
def FunctionDef.argumentNames (o : Options) (f : FunctionDef) : List String :=
  (f.params.map (Param.encrypted o)).flatMap Param.secretNames

/-- What splitting one contract does to the circuits. New functions do not need proofs. -/
inductive Contract.Assembled (o : Options) (P : Nat → Prop) (c : Contract) (cs : List Circuit) (d : Contract)
    (ks : List Circuit) : Prop
  | intro {built ready : List Circuit} {bodies : List FunctionSplit} {parts : List (FunctionDef × FunctionDef)} {n m : Nat}
      (prepared : c.Prepared P cs built ready) (old : ∀ i, P i → i < n)
      (kept : List.Forall₂ (fun f s => f.SameMarks s.function) c.allFunctions bodies)
      (parted : Parted c.knownOwners (bodies.filter (·.function.facts.needsProofExternally)) ready n parts ks m)
      (code : ∀ p ∈ parts, p.1 ∈ d.allFunctions)
      (arguments : ∀ p ∈ parts, ∃ f ∈ c.allFunctions, f.facts.needsProofExternally = true ∧
        p.1.secretNames = f.argumentNames o)
      (told : c.Told ready d) : Assembled o P c cs d ks

/-- A function of the contract, its circuit with a split body, and the circuit with its calls laid out. -/
structure Contract.Made (P : Nat → Prop) (c : Contract) (built ready : List Circuit) (f : FunctionDef) (b r : Circuit) :
    Prop where
  function : f ∈ c.allFunctions
  circuit : f.facts.needsProof = true ∨ f.facts.needsProofExternally = true
  split : (Circuit.empty f.id).Built c.knownOwners P b
  later : Readied (c.functionsWith (·.facts.needsProof)) (c.functionsWith (!·.facts.needsProof))
    (c.functionsWith (·.facts.needsProofExternally)) built ready b r

section Prepared

variable {P : Nat → Prop} {c : Contract} {cs built ready : List Circuit} {b r : Circuit} {f : FunctionDef}

theorem Contract.mem_functionsWith {p : FunctionDef → Bool} {i : Nat} :
    i ∈ c.functionsWith p ↔ ∃ f ∈ c.allFunctions, f.id = i ∧ p f = true := by
  unfold functionsWith
  simp only [List.mem_map, List.mem_filter]
  exact exists_congr fun f => by tauto

theorem Contract.Made.id (h : c.Made P built ready f b r) : b.function = f.id ∧ r.function = f.id := by
  have first : b.function = f.id := h.split.grows.function
  exact ⟨first, h.later.function.trans first⟩

/-- All calls lead to functions that need proofs. -/
theorem Contract.Made.calls (h : c.Made P built ready f b r) : ∀ call ∈ b.calls, P call.callee := by
  intro call hc
  rcases h.split.calls call hc with hc | known
  · cases hc
  · exact known

theorem Contract.Made.proved (h : c.Made P built ready f b r) (needs : f.facts.needsProof = true) :
    b.function ∈ c.functionsWith (·.facts.needsProof) :=
  mem_functionsWith.mpr ⟨f, h.function, h.id.1.symm, needs⟩

theorem Contract.Prepared.distinct_built (h : c.Prepared P cs built ready) : Distinct built :=
  distinct_of_forall₂ h.split (fun _ _ h => h.1.grows.function) h.distinct

theorem Contract.Prepared.distinct_ready (h : c.Prepared P cs built ready) : Distinct ready :=
  distinct_of_forall₂ h.later (fun _ _ h => h.function) h.distinct_built

theorem Contract.not_mem_functionsWith {p : FunctionDef → Bool} {i : Nat} (h : i ∉ c.allFunctions.map FunctionDef.id) :
    i ∉ c.functionsWith p := by
  rw [mem_functionsWith]
  rintro ⟨f, hf, rfl, _⟩
  exact h (List.mem_map_of_mem hf)

/-- Every circuit is one from before, or it belongs to a function of the contract. -/
theorem Contract.Prepared.pair (h : c.Prepared P cs built ready) {a : Circuit} (ha : a ∈ cs ++ c.emptyCircuits)
    (hb : a.Built c.knownOwners P b ∧ (a.function ∉ c.allFunctions.map FunctionDef.id → b = a))
    (hr : Readied (c.functionsWith (·.facts.needsProof)) (c.functionsWith (!·.facts.needsProof))
      (c.functionsWith (·.facts.needsProofExternally)) built ready b r) :
    (a ∈ cs ∧ b = a ∧ r = a) ∨ ∃ f, c.Made P built ready f b r := by
  rcases List.mem_append.mp ha with ha | ha
  · have other := h.fresh a ha
    obtain rfl := hb.2 other
    exact .inl ⟨ha, rfl, hr.other (not_mem_functionsWith other) (not_mem_functionsWith other)
      (not_mem_functionsWith other)⟩
  · obtain ⟨f, hf, rfl⟩ := List.mem_map.mp ha
    obtain ⟨hf, circuit⟩ := List.mem_filter.mp hf
    exact .inr ⟨f, hf, Bool.or_eq_true_iff.mp circuit, hb.1, hr⟩

theorem Contract.Prepared.of_ready (h : c.Prepared P cs built ready) (hr : r ∈ ready) :
    r ∈ cs ∨ ∃ f, ∃ b ∈ built, c.Made P built ready f b r := by
  obtain ⟨b, hb, later⟩ := exists_mem_of_forall₂_right h.later hr
  obtain ⟨a, ha, split⟩ := exists_mem_of_forall₂_right h.split hb
  rcases h.pair ha split later with ⟨ha, rfl, rfl⟩ | ⟨f, made⟩
  · exact .inl ha
  · exact .inr ⟨f, b, hb, made⟩

theorem Contract.Prepared.of_built (h : c.Prepared P cs built ready) (hb : b ∈ built) :
    (b ∈ cs ∧ b ∈ ready) ∨ ∃ f, ∃ r ∈ ready, c.Made P built ready f b r := by
  obtain ⟨r, hr, later⟩ := exists_mem_of_forall₂_left h.later hb
  obtain ⟨a, ha, split⟩ := exists_mem_of_forall₂_right h.split hb
  rcases h.pair ha split later with ⟨ha, rfl, rfl⟩ | ⟨f, made⟩
  · exact .inl ⟨ha, hr⟩
  · exact .inr ⟨f, r, hr, made⟩

/-- Circuits from before are still there. -/
theorem Contract.Prepared.old (h : c.Prepared P cs built ready) (hr : r ∈ cs) : r ∈ built ∧ r ∈ ready := by
  obtain ⟨b, hb, split⟩ := exists_mem_of_forall₂_left h.split (List.mem_append_left _ hr)
  obtain ⟨k, hk, later⟩ := exists_mem_of_forall₂_left h.later hb
  rcases h.pair (List.mem_append_left _ hr) split later with ⟨_, rfl, rfl⟩ | ⟨f, made⟩
  · exact ⟨hb, hk⟩
  · exact (h.fresh r hr (split.1.grows.function ▸ made.id.1 ▸ List.mem_map_of_mem made.function)).elim

end Prepared

/-! ## Origins of circuits -/

/-- Circuits of these functions are still found, with the same keys and perhaps some of these owners. -/
def Circuit.Rekeys (os : List Label) (P : Nat → Prop) (cs ds : List Circuit) : Prop :=
  ∀ f k, P f → find? cs f = some k → ∃ k', find? ds f = some k' ∧ k.Rekeyed os k'

/-- Where a circuit comes from after a contract was split: it is one from before, or belongs to a function that needs a
proof, or to the external part of a function. New functions do not need proofs. -/
inductive Contract.Origin (o : Options) (P : Nat → Prop) (c d : Contract) (cs built ready : List Circuit) (k : Circuit) :
    Prop
  | old (mem : k ∈ cs) : Origin o P c d cs built ready k
  | internal {f : FunctionDef} {b r : Circuit} (mem : r ∈ ready) (made : c.Made P built ready f b r)
      (needs : f.facts.needsProof = true) (rekeyed : r.Rekeyed c.knownOwners k) (verifier : k.verifier = none) :
      Origin o P c d cs built ready k
  | external {f w : FunctionDef} {b r : Circuit} (mem : r ∈ ready) (made : c.Made P built ready f b r)
      (outer : f.facts.needsProofExternally = true) (new : ¬ P w.id) (code : w ∈ d.allFunctions)
      (arguments : ∃ g ∈ c.allFunctions, g.facts.needsProofExternally = true ∧ w.secretNames = g.argumentNames o)
      (external : r.External c.knownOwners f.facts.needsProof w k) : Origin o P c d cs built ready k

/-- Where all circuits come from after a contract was split. -/
structure Contract.Traced (o : Options) (P : Nat → Prop) (c d : Contract) (cs built ready ks : List Circuit) : Prop where
  prepared : c.Prepared P cs built ready
  distinct : Distinct ks
  rekeys : Rekeys c.knownOwners P ready ks
  origin : ∀ k ∈ ks, c.Origin o P d cs built ready k
  told : c.Told ready d

theorem Contract.Prepared.rekeys {P : Nat → Prop} {c : Contract} {cs built ready : List Circuit}
    (h : c.Prepared P cs built ready) : Rekeys c.knownOwners P cs ready := by
  intro g k _ hk
  refine ⟨k, ?_, .refl _ k⟩
  rw [← find?_function hk]
  exact h.distinct_ready.find? (h.old (List.mem_of_find?_eq_some hk)).2

theorem Contract.Assembled.traced {o : Options} {P : Nat → Prop} {c d : Contract} {cs ks : List Circuit}
    (h : c.Assembled o P cs d ks) : ∃ built ready, c.Traced o P d cs built ready ks := by
  obtain @⟨built, ready, bodies, parts, n, m, prepared, old, kept, parted, code, arguments, told⟩ := h
  let outer := bodies.filter (·.function.facts.needsProofExternally)
  have marks : ∀ s ∈ outer, ∃ f ∈ c.allFunctions, f.SameMarks s.function := fun s hs =>
    exists_mem_of_forall₂_right kept (List.mem_of_mem_filter hs)
  have parts : ∀ f ∈ c.allFunctions, f.facts.needsProofExternally = true → ∃ s ∈ outer, f.SameMarks s.function := by
    intro f hf external
    obtain ⟨s, hs, same⟩ := exists_mem_of_forall₂_left kept hf
    exact ⟨s, List.mem_filter.mpr ⟨hs, same.needsProofExternally.trans external⟩, same⟩
  have same {f : FunctionDef} {b r : Circuit} {s : FunctionSplit} (hs : s ∈ outer) (made : c.Made P built ready f b r)
      (hr : s.function.id = r.function) : f.SameMarks s.function := by
    obtain ⟨g, hg, marks⟩ := marks s hs
    obtain rfl := List.inj_on_of_nodup_map prepared.numbers hg made.function (marks.id.symm.trans (hr.trans made.id.2))
    exact marks
  refine ⟨built, ready, prepared, parted.distinct, fun g k hg hk => ?_, fun k hk => ?_, told⟩
  · have number := find?_function hk
    obtain ⟨k', hk', keyed⟩ := parted.kept k (List.mem_of_find?_eq_some hk) fun s hs same => by
      obtain ⟨f, hf, marks⟩ := marks s hs
      rw [marks.needsProof, ← prepared.needs f hf, ← marks.id, same, number]
      exact hg
    exact ⟨k', by rw [← number, ← keyed.function]; exact parted.distinct.find? hk', keyed⟩
  · rcases parted.only k hk with ⟨r, hr, keyed, proved, unchanged⟩ | ⟨s, hs, r, hr, p, hp, lower, made⟩
    · rcases prepared.of_ready hr with hr | ⟨f, b, _, made⟩
      · refine .old (unchanged (fun s hs found => prepared.fresh r hr ?_) ▸ hr)
        obtain ⟨f, hf, marks⟩ := marks s hs
        exact List.mem_map.mpr ⟨f, hf, marks.id.symm.trans found⟩
      · by_cases external : f.facts.needsProofExternally = true
        · obtain ⟨s, hs, marks⟩ := parts f made.function external
          obtain ⟨needs, none⟩ := proved s hs (marks.id.trans made.id.2.symm)
          exact .internal hr made (marks.needsProof ▸ needs) keyed none
        · refine .internal hr made (made.circuit.resolve_right external) keyed ?_
          have unparted : b.function ∉ c.functionsWith (·.facts.needsProofExternally) := by
            rintro h
            obtain ⟨g, hg, id, outer⟩ := mem_functionsWith.mp h
            obtain rfl := List.inj_on_of_nodup_map prepared.numbers hg made.function (id.trans made.id.1)
            exact external outer
          rw [unchanged fun s hs found => external ?_, made.later.verifier unparted, made.split.grows.verifier]
          · rfl
          · exact (same hs made found).needsProofExternally ▸ (List.mem_filter.mp hs).2
    · have number := find?_function hr
      rcases prepared.of_ready (List.mem_of_find?_eq_some hr) with hr' | ⟨f, b, _, made'⟩
      · obtain ⟨f, hf, marks⟩ := marks s hs
        exact (prepared.fresh r hr' (List.mem_map.mpr ⟨f, hf, marks.id.symm.trans number.symm⟩)).elim
      · have marks := same hs made' number.symm
        refine .external (List.mem_of_find?_eq_some hr) made' (marks.needsProofExternally ▸ (List.mem_filter.mp hs).2)
          (fun known => ?_) (code p hp) (arguments p hp) (marks.needsProof ▸ made)
        have := old _ known
        omega

/-- Where the circuits so far come from: from functions of these contracts, or they have new numbers. -/
structure Circuit.Numbered (done : List Contract) (start : Nat) (cs : List Circuit) (n : Nat) : Prop where
  distinct : Distinct cs
  bounded : ∀ k ∈ cs, k.function < n
  source : ∀ k ∈ cs, k.function ∈ (done.flatMap Contract.allFunctions).map FunctionDef.id ∨ start ≤ k.function
  counts : start ≤ n

theorem Contract.split_assembled {o : Options} {u : SourceUnit} {done rest : List Contract} {c d : Contract}
    {cs ks : List Circuit} {start n m : Nat} (contracts : u.contracts = done ++ c :: rest)
    (numbers : (u.allFunctions.map FunctionDef.id).Nodup) (bounded : ∀ f ∈ u.allFunctions, f.id < start)
    (before : Circuit.Numbered done start cs n) (h : c.split o u u.symbols cs n = .ok ((d, ks), m)) :
    c.Assembled o u.NeedsProof cs d ks ∧ Circuit.Numbered (done ++ [c]) start ks m := by
  have all : u.allFunctions =
      done.flatMap Contract.allFunctions ++ (c.allFunctions ++ rest.flatMap Contract.allFunctions) := by
    show u.contracts.flatMap Contract.allFunctions = _
    rw [contracts, List.flatMap_append, List.flatMap_cons]
  have mine : ∀ f ∈ c.allFunctions, f ∈ u.allFunctions := fun f hf =>
    all ▸ List.mem_append_right _ (List.mem_append_left _ hf)
  have unique := numbers
  rw [all, List.map_append, List.map_append, List.nodup_append, List.nodup_append] at numbers
  obtain ⟨_, ⟨own, _, _⟩, apart⟩ := numbers
  have fresh : ∀ k ∈ cs, k.function ∉ c.allFunctions.map FunctionDef.id := by
    intro k hk hf
    rcases before.source k hk with source | new
    · exact apart _ source _ (List.mem_append_left _ hf) rfl
    · obtain ⟨f, hf, same⟩ := List.mem_map.mp hf
      have := bounded f (mine f hf)
      omega
  have empty : c.emptyCircuits.map Circuit.function =
      c.functionsWith fun f => f.facts.needsProof || f.facts.needsProofExternally := by
    unfold emptyCircuits functionsWith
    rw [List.map_map]
    rfl
  have sub (p : FunctionDef → Bool) : (c.functionsWith p).Sublist (c.allFunctions.map FunctionDef.id) :=
    List.filter_sublist.map _
  have distinct : Distinct (cs ++ c.emptyCircuits) := by
    unfold Distinct
    rw [List.map_append, empty]
    refine List.nodup_append.mpr ⟨before.distinct, own.sublist (sub _), fun i hi j hj same => ?_⟩
    obtain ⟨k, hk, rfl⟩ := List.mem_map.mp hi
    exact fresh k hk (same ▸ (sub _).subset hj)
  obtain @⟨built, ready, k, symbols, params, bodies, parts, n₁, split, later, kept, signed, taken, counts, owners, code, told⟩ :=
    Contract.split_staged u.symbols_proves own distinct h
  have functions : ready.map Circuit.function = (cs ++ c.emptyCircuits).map Circuit.function :=
    (forall₂_map_eq (later.imp fun _ _ h => h.function)).trans
      (forall₂_map_eq (split.imp fun _ _ h => h.1.grows.function))
  have from' : ∀ k ∈ ready, (∃ k' ∈ cs, k'.function = k.function) ∨ k.function ∈ c.allFunctions.map FunctionDef.id := by
    intro k hk
    have mem : k.function ∈ (cs ++ c.emptyCircuits).map Circuit.function := functions ▸ List.mem_map_of_mem hk
    rw [List.map_append, empty, List.mem_append] at mem
    exact mem.imp List.mem_map.mp fun h => (sub _).subset h
  have low : ∀ i ∈ c.allFunctions.map FunctionDef.id, i < n₁ := by
    intro i hi
    obtain ⟨f, hf, rfl⟩ := List.mem_map.mp hi
    have := bounded f (mine f hf)
    have := before.counts
    omega
  have outer : (bodies.filter (·.function.facts.needsProofExternally)).map (·.function.id) =
      c.functionsWith (·.facts.needsProofExternally) :=
    functionsWith_eq kept fun _ _ h => h.needsProofExternally
  have me : k.owners.contains .me = true := by
    rw [owners]
    rfl
  have parted := splitParts_parted me
    (by unfold Distinct; rw [functions]; exact distinct) (outer ▸ own.sublist (sub _))
    (fun s hs => low _ ((sub _).subset (outer ▸ List.mem_map_of_mem hs)))
    (fun k hk => (from' k hk).elim (fun ⟨k', hk', same⟩ => by have := before.bounded k' hk'; omega) (low _)) taken
  rw [owners] at parted
  refine ⟨.intro ⟨fresh, own, fun f hf => ⟨fun ⟨g, hg, same, needs⟩ => ?_, fun needs => ⟨f, mine f hf, rfl, needs⟩⟩,
    distinct, split, later⟩ (fun i hi => ?_) kept parted code (fun p hp => ?_) told, parted.distinct, parted.bounded,
    fun k hk => ?_, ?_⟩
  · rwa [List.inj_on_of_nodup_map unique hg (mine f hf) same] at needs
  · obtain ⟨f, hf, rfl, _⟩ := hi
    have := bounded f hf
    have := before.counts
    omega
  · obtain ⟨s, hs, names⟩ := splitParts_arguments me taken p hp
    obtain ⟨hs, needs⟩ := List.mem_filter.mp hs
    obtain ⟨f, hf, marks⟩ := exists_mem_of_forall₂_right kept hs
    refine ⟨f, hf, marks.needsProofExternally ▸ needs, ?_⟩
    rw [names, marks.id, signed f hf, FunctionDef.argumentNames]
  · rw [List.flatMap_append, List.map_append, List.mem_append]
    rcases parted.only k hk with ⟨k', hk', keyed, _⟩ | ⟨s, _, k', _, p, _, lower, made⟩
    · rw [keyed.function]
      rcases from' k' hk' with ⟨j, hj, same⟩ | mine
      · rw [← same]
        exact (before.source j hj).imp_left .inl
      · refine .inl (.inr ?_)
        rwa [List.flatMap_singleton]
    · rw [made.function]
      have := before.counts
      omega
  · have := before.counts
    have := parted.counts
    omega

/-! ## All contracts -/

section Whole

variable {o : Options} {start : Nat} {I : List Contract → List Circuit → Prop}

/-- What splitting a contract keeps is true of all circuits. -/
theorem splitContracts_assembled {u : SourceUnit} {done rest ds es : List Contract} {cs ks : List Circuit} {n m : Nat}
    (contracts : u.contracts = done ++ rest) (numbers : (u.allFunctions.map FunctionDef.id).Nodup)
    (bounded : ∀ f ∈ u.allFunctions, f.id < start) (before : Circuit.Numbered done start cs n)
    (step : ∀ c ∈ u.contracts, ∀ cs ds d built ready ks,
      c.Traced o u.NeedsProof d cs built ready ks → I ds cs → I (ds ++ [d]) ks)
    (first : I ds cs)
    (h : splitContracts o u u.symbols rest cs n = .ok ((es, ks), m)) : I (ds ++ es) ks := by
  induction rest generalizing done ds es cs n ks m with
  | nil =>
    cases state_pure_ok h
    rwa [List.append_nil]
  | cons c rest ih =>
    obtain ⟨⟨d, circuits⟩, n₁, hd, h⟩ := state_bind_ok h
    obtain ⟨⟨later, _⟩, n₂, hrest, h⟩ := state_bind_ok h
    cases state_pure_ok h
    obtain ⟨assembled, after⟩ := Contract.split_assembled contracts numbers bounded before hd
    have mem : c ∈ u.contracts := contracts ▸ List.mem_append_right _ List.mem_cons_self
    obtain ⟨_, _, traced⟩ := assembled.traced
    have last := ih (contracts.trans (List.append_cons ..)) after (step c mem cs ds d _ _ circuits traced first) hrest
    rwa [List.append_assoc] at last

theorem SourceUnit.split_assembled {u v : SourceUnit} {circuits : List Circuit} {n m : Nat}
    (distinct : u.numbers.Nodup) (bounded : ∀ i ∈ u.numbers, i < n) (h : u.split o n = .ok (v, circuits, m))
    (step : ∀ c ∈ u.contracts, ∀ cs ds d built ready ks,
      c.Traced o u.NeedsProof d cs built ready ks → I ds cs → I (ds ++ [d]) ks)
    (first : I [] []) :
    ∃ (w : SourceUnit) (k : Nat), w.link k = .ok (v, m) ∧ I w.contracts circuits := by
  unfold SourceUnit.split at h
  obtain ⟨⟨⟨contracts, _⟩, n₁⟩, hsplit, h⟩ := except_bind_ok h
  obtain ⟨⟨w, n₂⟩, hlink, h⟩ := except_bind_ok h
  cases h
  have before : Circuit.Numbered [] n [] n := ⟨List.nodup_nil, by simp, by simp, Nat.le_refl n⟩
  have low : ∀ f ∈ u.allFunctions, f.id < n := fun f hf =>
    bounded _ (u.functions_sublist.subset (List.mem_map_of_mem hf))
  exact ⟨_, n₁, hlink, splitContracts_assembled rfl (distinct.sublist u.functions_sublist) low before step first hsplit⟩

theorem SourceUnit.compile_assembled {u : SourceUnit} {next : Nat} {t : Transcript} {r : Compilation}
    (distinct : u.numbers.Nodup) (bounded : ∀ i ∈ u.numbers, i < next) (h : (u.compile next o t).2 = .ok r)
    (step : ∀ c ∈ (r.source.markHoms o).contracts, ∀ cs ds d built ready ks,
      c.Traced o (r.source.markHoms o).NeedsProof d cs built ready ks → I ds cs → I (ds ++ [d]) ks) (first : I [] []) :
    ∃ (w : SourceUnit) (n m : Nat), w.link n = .ok (r.code, m) ∧ I w.contracts r.circuits := by
  obtain ⟨t, p, n, hp, source, split⟩ := SourceUnit.compile_split h
  have same : (r.source.markHoms o).numbers = u.numbers := by
    rw [source]
    exact ((SourceUnit.mapFacts_numbers _).numbers).trans (SourceUnit.process_accepted hp).numbers
  have low : ∀ i ∈ (r.source.markHoms o).numbers, i < p.next := fun i hi =>
    Nat.lt_of_lt_of_le (bounded i (same ▸ hi)) (SourceUnit.process_next hp)
  obtain ⟨w, k, link, all⟩ := SourceUnit.split_assembled (same ▸ distinct) low split step first
  exact ⟨w, k, n, link, all⟩

end Whole

end Shroud
