import Shroud.Proofs.Assembly
import Shroud.Proofs.Sketch

/-!
# Sections of compiled programs

In a compiled program the sections of circuit values are laid out along the calls. `Circuit.Orderly` is what splitting a
contract keeps: every circuit that calls others, and every circuit of a function of the program, is arranged.

**Calls end.** The sizes and keys of a circuit are only known once those of all circuits below it are, so no chain of
calls goes on forever.

**Sizes.** The sections are disjoint and fit into the arrays exactly if no circuit has a negative size.

**Code.** What splitting emits agrees with the layout (`Circuit.Emitted`): internal parts insist on arrays that hold their
sections and hand on the places of those of their callees, and external parts make arrays that hold all of them.

**Results.** `SourceUnit.compile_tiling_iff`: the sections below every circuit of a compiled program, and its code. What
circuits know of each other does not depend on the order in which they are completed (`Circuit.complete_congr`).
-/

namespace Shroud

namespace Circuit

/-! ## Circuits with the same layout -/

/-- The circuits have values of the same sizes and call the same functions. -/
structure SameLayout (c d : Circuit) : Prop where
  function : d.function = c.function
  calls : d.calls = c.calls
  called : d.called = c.called
  callees : d.callees = c.callees
  ownSizes : d.ownSizes = c.ownSizes

section SameLayout

variable {P : Nat → Prop} {cs ds : List Circuit} {c d : Circuit}

theorem SameLayout.refl (c : Circuit) : c.SameLayout c := ⟨rfl, rfl, rfl, rfl, rfl⟩

theorem SameLayout.trans {e : Circuit} (h : c.SameLayout d) (h' : d.SameLayout e) : c.SameLayout e :=
  ⟨h'.function.trans h.function, h'.calls.trans h.calls, h'.called.trans h.called, h'.callees.trans h.callees,
    h'.ownSizes.trans h.ownSizes⟩

theorem SameLayout.sizes (h : c.SameLayout d) : d.sizes = c.sizes := by
  unfold Circuit.sizes
  rw [h.called, h.ownSizes]

theorem Rekeyed.sameLayout {os : List Label} (h : c.Rekeyed os d) : c.SameLayout d := by
  rw [h.same]
  exact ⟨rfl, rfl, rfl, rfl, rfl⟩

/-- Called circuits are replaced by ones with the same layout. -/
def Replaces (P : Nat → Prop) (cs ds : List Circuit) : Prop :=
  ∀ f k, P f → find? cs f = some k → ∃ k', find? ds f = some k' ∧ k.SameLayout k'

theorem Rekeys.replaces {os : List Label} (h : Rekeys os P cs ds) : Replaces P cs ds := by
  intro g k hg hk
  obtain ⟨k', hk', rekeyed⟩ := h g k hg hk
  exact ⟨k', hk', rekeyed.sameLayout⟩

theorem Replaces.sizesAt (h : Replaces P cs ds) {f : Nat} (hf : P f) (found : ∃ k, find? cs f = some k) :
    sizesAt ds f = sizesAt cs f := by
  obtain ⟨k, hk⟩ := found
  obtain ⟨k', hk', same⟩ := h f k hf hk
  unfold Circuit.sizesAt
  rw [hk, hk']
  exact same.sizes

theorem Tidy.follow (h : Tidy cs c) (calls : ∀ call ∈ c.calls, P call.callee) (replaces : Replaces P cs ds)
    (same : c.SameLayout d) : Tidy ds d := by
  have sizes : ∀ call ∈ c.calls, Circuit.sizesAt ds call.callee = Circuit.sizesAt cs call.callee := fun call hc =>
    replaces.sizesAt (calls call hc) (h.resolved call hc)
  have callees : d.calls.map CircuitCall.callee = c.calls.map CircuitCall.callee := by rw [same.calls]
  refine ⟨?_, ?_, fun g => ?_, fun call hc => ?_⟩
  · rw [same.called, h.total, callsSizes_congr callees sizes]
  · rw [same.calls, h.offsets, places_congr callees same.ownSizes sizes]
  · rw [same.callees, same.calls, h.callees g]
    refine exists_congr fun call => and_congr_right fun hc => or_congr_right ?_
    obtain ⟨k, hk⟩ := h.resolved call hc
    obtain ⟨k', hk', same'⟩ := replaces _ k (calls call hc) hk
    rw [hk, hk']
    simp [same'.callees]
  · rw [same.calls] at hc
    obtain ⟨k, hk⟩ := h.resolved call hc
    obtain ⟨k', hk', _⟩ := replaces _ k (calls call hc) hk
    exact ⟨k', hk'⟩

theorem Arranged.follow (h : Arranged cs c) (hc : c ∈ cs) (calls : ∀ k ∈ cs, ∀ call ∈ k.calls, P call.callee)
    (replaces : Replaces P cs ds) (same : c.SameLayout d) : Arranged ds d := by
  induction h generalizing d with
  | @intro c tidy below ih =>
    refine .intro (tidy.follow (calls c hc) replaces same) fun call hcall k' hk' => ?_
    rw [same.calls] at hcall
    obtain ⟨k, hk⟩ := tidy.resolved call hcall
    obtain ⟨_, hk'', same'⟩ := replaces _ k (calls c hc call hcall) hk
    obtain rfl := Option.some.inj (hk''.symm.trans hk')
    exact ih call hcall k hk (List.mem_of_find?_eq_some hk) same'

end SameLayout

/-! ## What splitting a contract keeps -/

/-- All calls lead to functions that need proofs. The circuits of these functions and all circuits with calls are
arranged. -/
structure Orderly (P : Nat → Prop) (cs : List Circuit) : Prop where
  distinct : Distinct cs
  calls : ∀ k ∈ cs, ∀ call ∈ k.calls, P call.callee
  arranged : ∀ k ∈ cs, P k.function ∨ k.calls ≠ [] → Arranged cs k
  proved : ∀ k ∈ cs, k.verifier = none → P k.function

end Circuit

open Circuit

section Prepared

variable {P : Nat → Prop} {c : Contract} {cs built ready : List Circuit} {f : FunctionDef} {b r k : Circuit}

/-- A circuit that knows the functions of all circuits below it. -/
theorem Circuit.mem_ownReach {s : CircuitSizes} (h : k.called = some s) {g : Nat} :
    g ∈ k.ownReach.callees ↔ g ∈ k.callees.getD [] := by
  unfold ownReach Reach.and
  rw [h]
  exact mem_includeAll.trans (by simp [Reach.none])

theorem exists_callee_iff {calls calls' : List CircuitCall}
    (h : calls'.map CircuitCall.callee = calls.map CircuitCall.callee) (Q : Nat → Prop) :
    (∃ call ∈ calls', Q call.callee) ↔ ∃ call ∈ calls, Q call.callee := by
  have through (l : List CircuitCall) : (∃ call ∈ l, Q call.callee) ↔ ∃ i ∈ l.map CircuitCall.callee, Q i := by simp
  rw [through, through, h]

/-- A called circuit is one from before, or it belongs to a function of the contract that needs a proof. -/
theorem Contract.Prepared.callee (h : c.Prepared P cs built ready) {g : Nat} (hg : P g) (hk : find? built g = some k) :
    ∃ k', find? ready g = some k' ∧
      ((k ∈ cs ∧ k' = k) ∨ ∃ f, f.facts.needsProof = true ∧ c.Made P built ready f k k') := by
  have number := find?_function hk
  rcases h.of_built (List.mem_of_find?_eq_some hk) with ⟨old, mem⟩ | ⟨f, k', mem, made⟩
  · exact ⟨k, number ▸ h.distinct_ready.find? mem, .inl ⟨old, rfl⟩⟩
  · refine ⟨k', ?_, .inr ⟨f, (h.needs f made.function).mp ?_, made⟩⟩
    · rw [← number, made.id.1, ← made.id.2]
      exact h.distinct_ready.find? mem
    · rwa [← made.id.1, number]

/-- What is found below a called circuit is what it knows later. -/
theorem Contract.Prepared.callee_totals (h : c.Prepared P cs built ready) (orderly : Orderly P cs) {g : Nat} {v : Reach}
    {s : CircuitSizes} (hg : P g) (hk : find? built g = some k) (here : Totals built k v s) :
    ∃ k', find? ready g = some k' ∧ (∀ f, f ∈ v.callees ↔ f ∈ k'.callees.getD []) ∧ ∀ p, p ∈ v.keys ↔ p ∈ k'.keys := by
  obtain ⟨k', hk', ⟨old, rfl⟩ | ⟨f, needs, made⟩⟩ := h.callee hg hk
  · refine ⟨_, hk', ?_⟩
    have proof : P k'.function := find?_function hk ▸ hg
    cases orderly.arranged k' old (.inl proof) with
    | intro tidy =>
      obtain ⟨rfl, _⟩ := here.unique (.known tidy.total)
      exact ⟨fun _ => mem_ownReach tidy.total, fun _ => mem_ownReach_keys⟩
  · obtain ⟨v', _, totals', keys, callees, _⟩ := made.later.proved (made.proved needs)
    obtain ⟨rfl, _⟩ := here.unique totals'
    exact ⟨k', hk', fun f => by rw [callees]; rfl, fun p => by rw [keys]⟩

theorem Contract.Made.ready_calls (h : c.Made P built ready f b r) : ∀ call ∈ r.calls, P call.callee := by
  intro call hc
  have there : call.callee ∈ b.calls.map CircuitCall.callee := h.later.callees ▸ List.mem_map_of_mem hc
  obtain ⟨call', hc', same⟩ := List.mem_map.mp there
  exact same ▸ h.calls call' hc'

theorem Contract.Prepared.calls (h : c.Prepared P cs built ready) (orderly : Orderly P cs) :
    ∀ k ∈ ready, ∀ call ∈ k.calls, P call.callee := by
  intro k hk
  rcases h.of_ready hk with old | ⟨f, b, _, made⟩
  · exact orderly.calls k old
  · exact made.ready_calls

/-- A function of the contract is laid out along its calls. -/
theorem Contract.Made.tidy (h : c.Prepared P cs built ready) (orderly : Orderly P cs)
    (made : c.Made P built ready f b r) (needs : f.facts.needsProof = true) : Tidy ready r := by
  obtain ⟨t, s, totals, _, callees', called, offsets⟩ := made.later.proved (made.proved needs)
  have unknown : b.called = none := made.split.grows.called
  cases totals with
  | known known => rw [unknown] at known; cases known
  | @calls _ u _ _ below =>
    have resolved : ∀ call ∈ b.calls, ∃ k v s k', find? built call.callee = some k ∧ Totals built k v s ∧
        find? ready call.callee = some k' ∧ ∀ g, g ∈ v.callees ↔ g ∈ k'.callees.getD [] := by
      intro call hc
      obtain ⟨k, v, s, hk, here⟩ := below.called call hc
      obtain ⟨k', hk', same, _⟩ := h.callee_totals orderly (made.calls call hc) hk here
      exact ⟨k, v, s, k', hk, here, hk', same⟩
    have known (g : Nat) : g ∈ (b.ownReach.and u).callees ↔ g ∈ u.callees := by
      show g ∈ includeAll b.ownReach.callees u.callees ↔ _
      rw [mem_includeAll]
      simp [ownReach, unknown, Reach.and, Reach.none, mem_includeAll]
    refine ⟨called, offsets, fun g => ?_, fun call hc => ?_⟩
    · rw [callees', Option.getD_some, exists_callee_iff made.later.callees (fun i => g = i ∨ ∃ k, find? ready i = some k ∧ g ∈ k.callees.getD [])]
      refine ((known g).trans below.mem_callees).trans (exists_congr fun call => and_congr_right fun hc => or_congr_right ?_)
      obtain ⟨k, v, s, k', hk, here, hk', same⟩ := resolved call hc
      rw [here.found_iff (q := (g ∈ ·.callees)) hk, hk', same g]
      simp
    · have there : call.callee ∈ b.calls.map CircuitCall.callee := made.later.callees ▸ List.mem_map_of_mem hc
      obtain ⟨call', hc', same⟩ := List.mem_map.mp there
      obtain ⟨_, _, _, k', _, _, hk', _⟩ := resolved call' hc'
      exact ⟨k', same ▸ hk'⟩

/-- No chain of calls goes on forever. -/
theorem Contract.Made.arranged (h : c.Prepared P cs built ready) (orderly : Orderly P cs)
    (made : c.Made P built ready f b r) (needs : f.facts.needsProof = true) : Arranged ready r := by
  obtain ⟨t, s, totals, -⟩ := made.later.proved (made.proved needs)
  obtain ⟨n, settles⟩ := totals.settles
  clear totals
  induction n generalizing f b r with
  | zero => exact settles.elim
  | succ n ih =>
    refine .intro (made.tidy h orderly needs) fun call hc k' hk' => ?_
    have there : call.callee ∈ b.calls.map CircuitCall.callee := made.later.callees ▸ List.mem_map_of_mem hc
    obtain ⟨call', hc', same⟩ := List.mem_map.mp there
    obtain ⟨k, hk, settles'⟩ := settles made.split.grows.called call' hc'
    obtain ⟨_, found, later⟩ := h.callee (made.calls call' hc') hk
    obtain rfl := Option.some.inj (found.symm.trans (same ▸ hk'))
    rcases later with ⟨old, rfl⟩ | ⟨f', needs', made'⟩
    · have proof := orderly.arranged _ old (.inl (find?_function hk ▸ made.calls call' hc'))
      exact proof.follow old orderly.calls h.rekeys.replaces (.refl _)
    · exact ih made' needs' settles'

end Prepared

section Assembled

variable {o : Options} {P : Nat → Prop} {c d : Contract} {cs ks built ready : List Circuit}

/-- An external part is laid out if the internal one is. -/
theorem Circuit.External.arranged {os : List Label} {w : FunctionDef} {c k own : Circuit} (h : c.External os true w own)
    (found : find? ks c.function = some k) (same : c.SameLayout k) (below : Arranged ks k) : Arranged ks own := by
  cases h with
  | @intro d grows calls =>
    have size : sizesAt ks c.function = c.sizes := by
      unfold sizesAt
      rw [found]
      exact same.sizes
    have called : d.called = some c.sizes := grows.called
    have callees : d.callees = some (includeOnce (c.callees.getD []) c.function) := by
      rw [grows.callees, wrapper, if_pos rfl]
    have hcalls : (d.calling true c.function).calls = [⟨0, c.function, d.secrets.size⟩] := by
      rw [calling, if_pos rfl, calls]
      rfl
    have hown : (d.calling true c.function).called = d.called ∧ (d.calling true c.function).callees = d.callees ∧
        (d.calling true c.function).ownSizes = d.ownSizes := by
      rw [calling, if_pos rfl]
      exact ⟨rfl, rfl, rfl⟩
    refine .intro ⟨?_, ?_, fun g => ?_, ?_⟩ ?_
    · rw [hown.1, called, callsSizes, hcalls]
      simp [size]
    · rw [places, hcalls, hown.2.2]
      rfl
    · rw [hown.2.1, callees, hcalls, Option.getD_some, mem_includeOnce]
      simp [found, same.callees, or_comm]
    · simp [hcalls, found]
    · simp only [hcalls, List.mem_singleton, forall_eq, found, Option.some.injEq, forall_eq']
      exact below

/-- Splitting a contract keeps circuits orderly. -/
theorem Contract.Traced.orderly (h : c.Traced o P d cs built ready ks) (orderly : Orderly P cs) : Orderly P ks := by
  have calls := h.prepared.calls orderly
  have inner {f : FunctionDef} {b r : Circuit} (made : c.Made P built ready f b r) (needs : f.facts.needsProof = true) :
      P r.function ∧ Arranged ready r :=
    ⟨made.id.2 ▸ (h.prepared.needs f made.function).mpr needs, made.arranged h.prepared orderly needs⟩
  refine ⟨h.distinct, fun k hk => ?_, fun k hk proof => ?_, fun k hk unproved => ?_⟩
  · cases h.origin k hk with
    | old mem => exact orderly.calls k mem
    | internal mem made _ rekeyed =>
      rw [rekeyed.sameLayout.calls]
      exact calls _ mem
    | external mem made _ _ _ _ external =>
      intro call hc
      have there := external.calls ▸ List.mem_map_of_mem hc
      split at there
      · rename_i needs
        exact List.mem_singleton.mp there ▸ (inner made needs).1
      · cases there
  · cases h.origin k hk with
    | old mem =>
      have before := (orderly.arranged k mem proof).follow mem orderly.calls h.prepared.rekeys.replaces (.refl k)
      exact before.follow (h.prepared.old mem).2 calls h.rekeys.replaces (.refl k)
    | internal mem made needs rekeyed => exact (inner made needs).2.follow mem calls h.rekeys.replaces rekeyed.sameLayout
    | @external f w b r mem made _ new _ _ external =>
      have needs : f.facts.needsProof = true := by
        by_contra unproved
        have none := external.calls
        rw [if_neg unproved] at none
        rcases proof with proof | nonempty
        · exact new (external.function ▸ proof)
        · exact nonempty (List.map_eq_nil_iff.mp none)
      obtain ⟨proof, arranged⟩ := inner made needs
      obtain ⟨k', hk', layout⟩ := h.rekeys.replaces _ r proof (h.prepared.distinct_ready.find? mem)
      rw [needs] at external
      exact external.arranged hk' layout (arranged.follow mem calls h.rekeys.replaces layout)
  · cases h.origin k hk with
    | old mem => exact orderly.proved k mem unproved
    | internal mem made needs rekeyed =>
      rw [rekeyed.function]
      exact (inner made needs).1
    | external mem made _ _ _ _ external => exact (external.verifier unproved).elim

end Assembled

/-! ## Emitted code -/

section Emitted

variable {o : Options} {P : Nat → Prop} {c d : Contract} {cs ks built ready : List Circuit} {k k' : Circuit}

theorem Circuit.Replaces.sites (h : Replaces P cs ds) (same : k.SameLayout k') (calls : ∀ call ∈ k.calls, P call.callee)
    (resolved : ∀ call ∈ k.calls, ∃ j, find? cs call.callee = some j) : k'.sites ds = k.sites cs :=
  sites_congr (by rw [same.calls]) (by rw [same.calls]) same.ownSizes
    fun call hc => h.sizesAt (calls call hc) (resolved call hc)

/-- The function that a circuit belongs to is told of the circuit's sections. Internal parts insist on arrays that hold
them. Calls there, and in all functions that they may lead to, get the arguments of their sites. External parts make
arrays for all sections below, and their callees start right behind them. -/
structure Circuit.Emitted (P : Nat → Prop) (code : List FunctionDef) (cs : List Circuit) (c : Circuit) : Prop where
  inner : c.verifier = none → ∃ f ∈ code, f.id = c.function ∧ ∃ fs : List Nat, c.function ∈ fs ∧
    (∀ i ∈ fs, P i ∧ ∃ k, find? cs i = some k) ∧ f.InSections c.sizes (fs.flatMap (sitesAt cs))
  outer : c.verifier ≠ none → ∃ f ∈ code, f.id = c.function ∧ f.body.Allocates c.sizes ∧
    ∀ call ∈ c.calls, f.body.HandsOn call.callee c.ownSizes

/-- Sites stay what they are when circuits are replaced by ones with the same layout. -/
theorem Circuit.Replaces.sitesAt (h : Replaces P cs ds) {i : Nat} (hi : P i) (hk : find? cs i = some k)
    (calls : ∀ call ∈ k.calls, P call.callee) (tidy : Arranged cs k) : sitesAt ds i = sitesAt cs i := by
  obtain ⟨k', hk', same⟩ := h i k hi hk
  unfold Circuit.sitesAt
  rw [hk, hk', Option.map_some, Option.map_some]
  cases tidy with
  | intro tidy => rw [h.sites same calls tidy.resolved]

theorem Circuit.Emitted.follow {code more : List FunctionDef} (h : k.Emitted P code cs) (orderly : Orderly P cs)
    (replaces : Replaces P cs ds) (sub : code ⊆ more) : k.Emitted P more ds := by
  refine ⟨fun inner => ?_, fun outer => ?_⟩
  · obtain ⟨f, hf, id, fs, mem, known, sections⟩ := h.inner inner
    refine ⟨f, sub hf, id, fs, mem, fun i hi => ?_, ?_⟩
    · obtain ⟨hp, k, hk⟩ := known i hi
      obtain ⟨k', hk', _⟩ := replaces i k hp hk
      exact ⟨hp, k', hk'⟩
    · have sites : ∀ i ∈ fs, sitesAt ds i = sitesAt cs i := by
        intro i hi
        obtain ⟨proof, k, hk⟩ := known i hi
        have mem := List.mem_of_find?_eq_some hk
        exact replaces.sitesAt proof hk (orderly.calls k mem)
          (orderly.arranged k mem (.inl (find?_function hk ▸ proof)))
      rwa [List.flatMap_congr sites]
  · obtain ⟨f, hf, rest⟩ := h.outer outer
    exact ⟨f, sub hf, rest⟩

/-- The circuit of an external part and its code. -/
theorem Circuit.External.emitted {os : List Label} {needsProof : Bool} {w : FunctionDef} {own : Circuit}
    (h : k.External os needsProof w own) :
    w.body.Allocates own.sizes ∧ ∀ call ∈ own.calls, w.body.HandsOn call.callee own.ownSizes := by
  have calls := h.calls
  cases h with
  | @intro d grows _ verifier requests allocates handsOn =>
    have same : (d.calling needsProof k.function).ownSizes = d.ownSizes ∧
        (d.calling needsProof k.function).sizes = d.sizes := by
      unfold calling
      split <;> exact ⟨rfl, rfl⟩
    rw [same.1, same.2]
    refine ⟨allocates, fun call hc => ?_⟩
    have there := calls ▸ List.mem_map_of_mem hc
    split at there
    · rename_i needs
      exact List.mem_singleton.mp there ▸ handsOn needs
    · cases there

/-- Splitting a contract emits code for its circuits and leaves that of earlier ones. -/
theorem Contract.Traced.emitted {code : List FunctionDef} (h : c.Traced o P d cs built ready ks) (orderly : Orderly P cs)
    (before : ∀ k ∈ cs, k.Emitted P code cs) : ∀ k ∈ ks, k.Emitted P (code ++ d.allFunctions) ks := by
  have replaces : Replaces P cs ks := by
    intro i k hi hk
    obtain ⟨k₁, hk₁, first⟩ := h.prepared.rekeys.replaces i k hi hk
    obtain ⟨k₂, hk₂, second⟩ := h.rekeys.replaces i k₁ hi hk₁
    exact ⟨k₂, hk₂, first.trans second⟩
  intro k hk
  cases h.origin k hk with
  | old mem => exact (before k mem).follow orderly replaces (List.subset_append_left _ _)
  | @internal f b r mem made needs rekeyed verifier =>
    refine ⟨fun _ => ?_, fun outer => (outer verifier).elim⟩
    obtain ⟨g, hg, id, _, found, sections⟩ := h.told f made.function needs
    obtain rfl := Option.some.inj (found.symm.trans (made.id.2 ▸ h.prepared.distinct_ready.find? mem))
    have number : f.id = k.function := made.id.2.symm.trans rekeyed.function.symm
    have proved : ∀ i ∈ c.functionsWith (·.facts.needsProof), P i ∧ (∃ k, find? ks i = some k) ∧
        sitesAt ks i = sitesAt ready i := by
      intro i hi
      obtain ⟨f', hf', rfl, needs'⟩ := Contract.mem_functionsWith.mp hi
      have proof : P f'.id := (h.prepared.needs f' hf').mpr needs'
      obtain ⟨_, _, _, r', hr', _⟩ := h.told f' hf' needs'
      obtain ⟨k', hk', _⟩ := h.rekeys f'.id r' proof hr'
      have mem' := List.mem_of_find?_eq_some hr'
      have arranged : Arranged ready r' := by
        rcases h.prepared.of_ready mem' with old | ⟨f'', b', _, made'⟩
        · exact (h.prepared.fresh r' old (find?_function hr' ▸ List.mem_map_of_mem hf')).elim
        · refine made'.arranged h.prepared orderly ((h.prepared.needs f'' made'.function).mp ?_)
          rwa [← made'.id.2, find?_function hr']
      exact ⟨proof, ⟨k', hk'⟩, h.rekeys.replaces.sitesAt proof hr' (h.prepared.calls orderly r' mem') arranged⟩
    refine ⟨g, List.mem_append_right _ hg, id.trans number, _, ?_, fun i hi => ⟨(proved i hi).1, (proved i hi).2.1⟩, ?_⟩
    · exact Contract.mem_functionsWith.mpr ⟨f, made.function, number, needs⟩
    · rwa [List.flatMap_congr fun i hi => (proved i hi).2.2, rekeyed.sameLayout.sizes]
  | @external f w b r mem made _ _ code _ external =>
    obtain ⟨allocates, handsOn⟩ := external.emitted
    exact ⟨fun inner => (external.verifier inner).elim,
      fun _ => ⟨w, List.mem_append_right _ code, external.function.symm, allocates, handsOn⟩⟩

end Emitted

/-! ## Compiled programs -/

theorem SourceUnit.compile_orderly {u : SourceUnit} {next : Nat} {o : Options} {t : Transcript} {r : Compilation}
    (distinct : u.numbers.Nodup) (bounded : ∀ i ∈ u.numbers, i < next) (h : (u.compile next o t).2 = .ok r) :
    Orderly (r.source.markHoms o).NeedsProof r.circuits := by
  obtain ⟨_, _, _, _, orderly⟩ := SourceUnit.compile_assembled (I := fun _ => Orderly (r.source.markHoms o).NeedsProof)
    distinct bounded h (fun _ _ _ _ _ _ _ _ traced orderly => traced.orderly orderly)
    ⟨List.nodup_nil, by simp, by simp, by simp⟩
  exact orderly

/-- The code of every circuit tells where sections are. -/
theorem SourceUnit.compile_emitted {u : SourceUnit} {next : Nat} {o : Options} {t : Transcript} {r : Compilation}
    (distinct : u.numbers.Nodup) (bounded : ∀ i ∈ u.numbers, i < next) (h : (u.compile next o t).2 = .ok r) :
    ∃ (w : SourceUnit) (n m : Nat), w.link n = .ok (r.code, m) ∧
      ∀ c ∈ r.circuits, c.Emitted (r.source.markHoms o).NeedsProof w.allFunctions r.circuits := by
  obtain ⟨w, n, m, link, _, emitted⟩ := SourceUnit.compile_assembled
    (I := fun ds cs => Orderly (r.source.markHoms o).NeedsProof cs ∧
      ∀ c ∈ cs, c.Emitted (r.source.markHoms o).NeedsProof (ds.flatMap Contract.allFunctions) cs)
    distinct bounded h
    (fun _ _ _ _ _ _ _ _ traced before => ⟨traced.orderly before.1, by
      rw [List.flatMap_append, List.flatMap_singleton]
      exact traced.emitted before.1 before.2⟩)
    ⟨⟨List.nodup_nil, by simp, by simp, by simp⟩, by simp⟩
  exact ⟨w, n, m, link, emitted⟩

/-- The sections below a circuit of a compiled program are laid out in the order of the calls, one directly after the
other, and the last one ends where the circuit does. They are disjoint and fit into the circuit's arrays exactly if none
of them has a negative size. This is what the calls are told, in the circuit and in the code; the arrays that an external
part makes and insists on have the sizes of its circuit. -/
theorem SourceUnit.compile_tiling_iff {u : SourceUnit} {next : Nat} {o : Options} {t : Transcript} {r : Compilation}
    (distinct : u.numbers.Nodup) (bounded : ∀ i ∈ u.numbers, i < next) (h : (u.compile next o t).2 = .ok r) :
    ∃ (w : SourceUnit) (n m : Nat), w.link n = .ok (r.code, m) ∧ ∀ c ∈ r.circuits,
      c.Emitted (r.source.markHoms o).NeedsProof w.allFunctions r.circuits ∧
      (c.verifier = none ∨ c.calls ≠ [] → Tidy r.circuits c ∧ ∃ ss, Tiling r.circuits c 0 ss ∧
        ((ss.Pairwise Section.Apart ∧ ∀ s ∈ ss, s.Fits 0 (0 + c.sizes)) ↔ ∀ s ∈ ss, 0 ≤ s.own)) := by
  obtain ⟨w, n, m, link, emitted⟩ := SourceUnit.compile_emitted distinct bounded h
  refine ⟨w, n, m, link, fun c hc => ⟨emitted c hc, fun kind => ?_⟩⟩
  have orderly := SourceUnit.compile_orderly distinct bounded h
  have arranged := orderly.arranged c hc (kind.imp_left (orderly.proved c hc))
  obtain ⟨ss, tiling⟩ := arranged.tiling 0
  cases arranged with
  | intro tidy => exact ⟨tidy, ss, tiling, tiling.apart_iff⟩

/-- A function that first adds twice a number to another one, both encrypted for the same owner, then calls a function
with a secret of its own. -/
def overlapping : SourceUnit :=
  let word := Ty.integer false (.ofBits 32)
  let theirs (id : Nat) : AnnTy := .owned word (.nameAt id "owner") .additive
  let succ (id : Nat) : Stmt :=
    .declareAt id word.mine "t" (.applyAt (id + 1) .add [.nameAt (id + 3) "s", .literalAt (id + 4) 1])
  let two := Expr.reclassify (.numbered 112) .reveal (.literalAt 113 2) (.nameAt 114 "owner") (some .additive)
  let sum := Expr.applyAt 108 .add [.nameAt 116 "a", .applyAt 110 .mul [two, .nameAt 115 "b"]]
  let init : FunctionDef :=
    { FunctionDef.sketch 120 "" "public" [.sketch 121 (.plain (.address false)) "x"]
        [.set (.nameAt 122 "owner") (.nameAt 123 "x")] with name := none }
  let inner := FunctionDef.sketch 124 "inner" "internal" [] [.set (.nameAt 125 "a") sum]
  let next := FunctionDef.sketch 130 "next" "internal" [.sketch 131 word.mine "s"] [succ 132]
  let outer := FunctionDef.sketch 140 "outer" "public" [.sketch 141 word.mine "s"]
    [succ 142, .eval default (.callAt 148 (.nameAt 149 "inner") []),
      .eval default (.callAt 150 (.nameAt 151 "next") [.nameAt 152 "s"])]
  let state := [⟨101, ["final"], .plain (.address false), "owner", none⟩, ⟨102, [], theirs 103, "a", none⟩,
    ⟨104, [], theirs 105, "b", none⟩]
  let u := SourceUnit.sketch 100 "Sums" state [inner, next, outer]
  { u with contracts := u.contracts.map fun c => { c with constructors := [init] } }

/-- The program compiles, and the sections of two calls overlap. -/
theorem overlapping_compiled : ∃ r, (overlapping.compile 160 .default .empty).2 = .ok r ∧
    ∃ c ∈ r.circuits, c.verifier = none ∧ ∃ ss ∈ sections? r.circuits 2 c 0,
      ¬ ss.Pairwise fun (s t : Section) => ¬ (s.Covers .secret 0 ∧ t.Covers .secret 0) := by
  obtain ⟨r, hr, h⟩ := exists_ok_of_any (x := (overlapping.compile 160 .default .empty).2)
    (p := fun r => decide (∃ c ∈ r.circuits, c.verifier = none ∧ ∃ ss ∈ sections? r.circuits 2 c 0,
      ¬ ss.Pairwise fun (s t : Section) => ¬ (s.Covers .secret 0 ∧ t.Covers .secret 0)))
    (by decide +kernel)
  exact ⟨r, hr, of_decide_eq_true h⟩

theorem overlapping_tiling_iff : ∃ r, (overlapping.compile 160 .default .empty).2 = .ok r ∧
    overlapping.numbers.Nodup ∧ (∀ i ∈ overlapping.numbers, i < 160) ∧
    ∃ (w : SourceUnit) (n m : Nat), w.link n = .ok (r.code, m) ∧ ∀ c ∈ r.circuits,
      c.Emitted (r.source.markHoms .default).NeedsProof w.allFunctions r.circuits ∧
      (c.verifier = none ∨ c.calls ≠ [] → Tidy r.circuits c ∧ ∃ ss, Tiling r.circuits c 0 ss ∧
        ((ss.Pairwise Section.Apart ∧ ∀ s ∈ ss, s.Fits 0 (0 + c.sizes)) ↔ ∀ s ∈ ss, 0 ≤ s.own)) := by
  obtain ⟨r, hr, _⟩ := overlapping_compiled
  have distinct : overlapping.numbers.Nodup := by decide +kernel
  have bounded : ∀ i ∈ overlapping.numbers, i < 160 := by decide +kernel
  exact ⟨r, hr, distinct, bounded, SourceUnit.compile_tiling_iff distinct bounded hr⟩

/-- The first called circuit has a negative size, so the second one starts inside of the caller's own section. -/
theorem overlapping_not_apart : ∃ r, (overlapping.compile 160 .default .empty).2 = .ok r ∧
    ∃ c ∈ r.circuits, c.verifier = none ∧ ∃ ss, Sections r.circuits c 0 ss ∧ ¬ ss.Pairwise Section.Apart := by
  obtain ⟨r, hr, c, hc, verifier, ss, hss, overlap⟩ := overlapping_compiled
  exact ⟨r, hr, c, hc, verifier, ss, sections?_sound hss, fun apart => overlap (apart.imp fun h => h .secret 0)⟩

end Shroud
