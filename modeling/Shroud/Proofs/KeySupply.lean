import Shroud.Proofs.Arrangement
import Shroud.Proofs.CircuitNames
import Shroud.Proofs.Scoping

/-!
# Keys for called circuits

A proof covers the circuit of an external part together with all circuits below it, and the external part alone hands in
keys. `Circuit.Below` follows the calls.

**Public keys** of known owners are collected along the calls. The external part asks for each of them exactly once.

**Secret keys** are not collected. The external part takes over those of the internal part, which are recorded for its
own encryptions only. An encryption with a shared secret further down has no secret key, unless one of the two happens
to need a key for the same backend.

**Results.** `SourceUnit.compile_suppliesKeys_iff`: all external parts of a compiled program.
-/

namespace Shroud

open Circuit

/-! ## Circuits below a circuit -/

namespace Circuit

/-- A circuit, or one that it calls, directly or through others. -/
inductive Below (cs : List Circuit) : Circuit → Circuit → Prop
  | refl {c} : Below cs c c
  | step {c k l} {call : CircuitCall} (mem : call ∈ c.calls) (found : find? cs call.callee = some k)
    (rest : Below cs k l) : Below cs c l

/-- The keys of all encryptions in a circuit. -/
def uses (c : Circuit) : List (CircuitVar × Bool) := CircuitStmt.allKeyUses c.body

/-- These are all keys of known owners that are used in the circuit or below. -/
def Keyed (cs : List Circuit) (keys : List (Label × Backend)) (c : Circuit) : Prop :=
  ∀ k, Below cs c k → ∀ u ∈ k.uses, ∀ p, IsStaticKey p u.1 → ∃ q ∈ keys, IsStaticKey q u.1

section Below

variable {P : Nat → Prop} {cs ds : List Circuit} {c d k : Circuit} {keys more : List (Label × Backend)}
  {os : List Label}

theorem Rekeyed.uses (h : c.Rekeyed os d) : d.uses = c.uses := by
  rw [h.same]
  rfl

/-- Circuits below a circuit were there before, up to keys. -/
theorem Below.back (h : Below ds d k) (same : c.Rekeyed os d) (arranged : c.calls ≠ [] → Arranged cs c) (hc : c ∈ cs)
    (calls : ∀ k ∈ cs, ∀ call ∈ k.calls, P call.callee) (rekeys : Rekeys os P cs ds) :
    ∃ l, Below cs c l ∧ l.Rekeyed os k := by
  induction h generalizing c with
  | refl => exact ⟨c, .refl, same⟩
  | @step d k l call mem found rest ih =>
    rw [same.sameLayout.calls] at mem
    obtain ⟨tidy, below⟩ := arranged (List.ne_nil_of_mem mem)
    obtain ⟨j, hj⟩ := tidy.resolved call mem
    obtain ⟨_, found', same'⟩ := rekeys _ j (calls c hc call mem) hj
    obtain rfl := Option.some.inj (found'.symm.trans found)
    obtain ⟨i, hi, last⟩ := ih same' (fun _ => below call mem j hj) (List.mem_of_find?_eq_some hj)
    exact ⟨i, .step mem hj hi, last⟩

theorem Keyed.mono (h : Keyed cs keys c) (sub : keys ⊆ more) : Keyed cs more c := by
  intro k hk u hu p hp
  obtain ⟨q, hq, isKey⟩ := h k hk u hu p hp
  exact ⟨q, sub hq, isKey⟩

theorem Keyed.follow (h : Keyed cs keys c) (same : c.Rekeyed os d) (arranged : c.calls ≠ [] → Arranged cs c) (hc : c ∈ cs)
    (calls : ∀ k ∈ cs, ∀ call ∈ k.calls, P call.callee) (rekeys : Rekeys os P cs ds) : Keyed ds keys d := by
  intro k hk u hu p hp
  obtain ⟨l, hl, same'⟩ := hk.back same arranged hc calls rekeys
  exact h l hl u (same'.uses ▸ hu) p hp

theorem Keyed.intro (own : ∀ u ∈ c.uses, ∀ p, IsStaticKey p u.1 → ∃ q ∈ keys, IsStaticKey q u.1)
    (below : ∀ call ∈ c.calls, ∀ k, find? cs call.callee = some k → Keyed cs keys k) : Keyed cs keys c := by
  intro k hk u hu p hp
  cases hk with
  | refl => exact own u hu p hp
  | step mem found rest => exact below _ mem _ found _ rest u hu p hp

end Below

end Circuit

/-! ## Bodies -/

theorem IsStaticKey.startsWith {p : Label × Backend} {v : CircuitVar} (h : IsStaticKey p v) :
    StartsWith "glob_key_" v.name := by
  rw [Label.keyName_ok h.1]
  exact startsWith_append ..

/-- Variables with numbers are no keys of known owners. -/
theorem IsStaticKey.not_bears {p : Label × Backend} {v : CircuitVar} (h : IsStaticKey p v) (q : Series) (n : Nat) :
    ¬ v.Bears q n := by
  intro bears
  have others : ∀ q ∈ Series.all, ¬ StartsWith "glob_key_" q.base ∧ ¬ StartsWith q.base "glob_key_" := by decide
  obtain ⟨before, after⟩ := others q (by cases q <;> decide)
  exact (List.prefix_or_prefix_of_prefix h.startsWith bears.startsWith).elim before after

section Bodies

variable {o : Options} {P : Nat → Prop} {c d : Contract} {cs built ready ks : List Circuit} {f : FunctionDef}
  {b r : Circuit}

/-- A circuit whose body was split lists its own keys. -/
theorem Contract.Made.ownKeys (h : c.Made P built ready f b r) :
    ∀ u ∈ r.uses, ∀ p, IsStaticKey p u.1 → ∃ q ∈ b.keys, IsStaticKey q u.1 := by
  intro u hu p hp
  obtain ⟨more, uses, offers, _⟩ := h.split.grows.uses
  obtain hu : u ∈ CircuitStmt.allKeyUses r.body := hu
  rw [h.later.body, uses] at hu
  rcases offers u hu with input | listed
  · obtain ⟨q, n, bears, _⟩ := (h.split.names (Supplies.apart_empty f.id)).numbered .input u.1 input
    exact (hp.not_bears q n bears).elim
  · exact listed

/-- What is listed for a function includes the keys of its own circuit and those of all called circuits. -/
theorem Contract.Made.listedKeys (h : c.Prepared P cs built ready) (orderly : Orderly P cs)
    (made : c.Made P built ready f b r) (needs : f.facts.needsProof = true) : b.keys ⊆ r.keys ∧
      ∀ call ∈ r.calls, ∀ k, find? ready call.callee = some k → k.keys ⊆ r.keys := by
  obtain ⟨t, s, totals, keys, _⟩ := made.later.proved (made.proved needs)
  have unknown : b.called = none := made.split.grows.called
  cases totals with
  | known known => rw [unknown] at known; cases known
  | @calls _ u _ _ below =>
    have listed (p : Label × Backend) : p ∈ r.keys ↔ p ∈ b.keys ∨ p ∈ u.keys := by
      rw [keys, ← mem_ownReach_keys (c := b)]
      exact mem_includeAll
    refine ⟨fun p hp => (listed p).mpr (.inl hp), fun call hc k hk p hp => (listed p).mpr (.inr ?_)⟩
    have there : call.callee ∈ b.calls.map CircuitCall.callee := made.later.callees ▸ List.mem_map_of_mem hc
    obtain ⟨call', hc', same⟩ := List.mem_map.mp there
    obtain ⟨j, v, s, hj, here⟩ := below.called call' hc'
    obtain ⟨k', hk', _, same'⟩ := h.callee_totals orderly (made.calls call' hc') hj here
    obtain rfl := Option.some.inj (hk'.symm.trans (same ▸ hk))
    exact below.mem_keys.mpr ⟨call', hc', j, v, s, hj, here, (same' p).mpr hp⟩

/-- A function that needs a proof lists all keys that are used in its circuit or below. -/
theorem Contract.Made.keyed (h : c.Prepared P cs built ready) (orderly : Orderly P cs) (before : ∀ k ∈ cs, Keyed cs k.keys k)
    (made : c.Made P built ready f b r) (needs : f.facts.needsProof = true) : Keyed ready r.keys r := by
  have arranged := made.arranged h orderly needs
  induction arranged generalizing f b with
  | @intro r _ _ ih =>
    obtain ⟨own, called⟩ := made.listedKeys h orderly needs
    refine .intro (fun u hu p hp => ?_) fun call hc k hk => .mono ?_ (called call hc k hk)
    · obtain ⟨q, hq, isKey⟩ := made.ownKeys u hu p hp
      exact ⟨q, own hq, isKey⟩
    · have proof := made.ready_calls call hc
      rcases h.of_ready (List.mem_of_find?_eq_some hk) with old | ⟨f', b', _, made'⟩
      · have arranged := orderly.arranged k old (.inl (find?_function hk ▸ proof))
        exact (before k old).follow (.refl _ k) (fun _ => arranged) old orderly.calls h.rekeys
      · refine ih call hc k hk made' ((h.needs f' made'.function).mp ?_)
        rw [← made'.id.2, find?_function hk]
        exact proof

end Bodies

/-! ## External parts -/

namespace Circuit

/-- The circuit or one that it calls directly shares a secret for this backend. -/
def SharesAbove (cs : List Circuit) (c : Circuit) (b : Backend) : Prop :=
  Shares c.uses b ∨ ∃ call ∈ c.calls, ∃ k, find? cs call.callee = some k ∧ Shares k.uses b

/-- The external part with this circuit asks for the listed keys. Its secret keys are those for its own encryptions and
for those of the internal part. -/
structure Equipped (o : Options) (fs : List FunctionDef) (cs : List Circuit) (c : Circuit) (w : FunctionDef) : Prop where
  function : c.function = w.id
  inputs : ∃ numbered keys, c.inputs.vars = numbered ++ keys ∧ (∀ v ∈ numbered, ∃ n, v.Bears .input n) ∧
    List.Forall₂ IsStaticKey c.keys keys
  secrets : ∃ args keys, c.secrets.vars = args ++ keys ∧
    (∃ f ∈ fs, args.map CircuitVar.name = f.argumentNames o) ∧ List.Forall₂ IsSecretKey c.secretKeys keys
  keysOnce : c.keys.Nodup
  secretKeysOnce : c.secretKeys.Nodup
  entered : w.body.enteredKeys = c.secretKeys
  taken : ∀ b, c.SharesAbove cs b → b ∈ c.secretKeys
  needed : c.calls ≠ [] → ∀ b ∈ c.secretKeys, c.SharesAbove cs b

section Equipped

variable {o : Options} {P : Nat → Prop} {fs : List FunctionDef} {cs ds : List Circuit} {c k own : Circuit}
  {w : FunctionDef} {b : Backend} {needs : Bool} {os : List Label}

theorem sharesAbove_congr (rekeys : Rekeys os P cs ds) (calls : ∀ call ∈ c.calls, P call.callee)
    (resolved : ∀ call ∈ c.calls, ∃ k, find? cs call.callee = some k) : c.SharesAbove ds b ↔ c.SharesAbove cs b := by
  refine or_congr_right (exists_congr fun call => and_congr_right fun hc => ?_)
  obtain ⟨k, hk⟩ := resolved call hc
  obtain ⟨k', hk', same⟩ := rekeys _ k (calls call hc) hk
  rw [hk, hk']
  simp [same.uses]

/-- Calling the internal part adds no encryptions. -/
theorem calling_uses (needs : Bool) (i : Nat) : (c.calling needs i).uses = c.uses := by
  unfold Circuit.uses calling
  split
  · exact (CircuitStmt.allKeyUses_append ..).trans (List.append_nil _)
  · rfl

/-- The circuit of an external part lists the keys of its own encryptions. -/
theorem External.ownKeys (h : c.External os needs w own) :
    ∀ u ∈ own.uses, ∀ p, IsStaticKey p u.1 → ∃ q ∈ own.keys, IsStaticKey q u.1 := by
  obtain @⟨d, grows, _, _, requests⟩ := h
  intro u hu p hp
  obtain ⟨more, all, offers, _⟩ := grows.uses
  rw [calling_uses, show d.uses = more from all] at hu
  rw [calling_eq]
  rcases offers u hu with input | listed
  · obtain ⟨s, vs, extends', inputs, isKey⟩ := requests.inputs
    rw [inputs] at input
    rcases List.mem_append.mp input with input | input
    · obtain ⟨-, -, numbers⟩ := extends'.fresh_names (r := .input) rfl rfl
      obtain ⟨n, -, bears⟩ := numbers u.1 input
      exact (hp.not_bears _ _ bears).elim
    · exact exists_mem_of_forall₂_right isKey input
  · exact listed

/-- The internal part is called if it needs a proof. -/
theorem External.sharesAbove_iff (h : c.External os needs w own)
    (found : needs = true → ∃ k, find? cs c.function = some k ∧ c.Rekeyed os k) :
    own.SharesAbove cs b ↔ Shares own.uses b ∨ needs = true ∧ Shares c.uses b := by
  refine or_congr_right ?_
  have callees := h.calls
  rw [show (∃ call ∈ own.calls, ∃ k, find? cs call.callee = some k ∧ Shares k.uses b) ↔
    ∃ i ∈ own.calls.map CircuitCall.callee, ∃ k, find? cs i = some k ∧ Shares k.uses b by simp, callees]
  cases needs with
  | false => simp
  | true =>
    obtain ⟨k, hk, same⟩ := found rfl
    simp [hk, same.uses]

theorem External.equipped (h : c.External os needs w own) (keys : c.keys.Nodup) (secretKeys : c.secretKeys.Nodup)
    (shared : ∀ b, b ∈ c.secretKeys ↔ Shares c.uses b)
    (arguments : ∃ f ∈ fs, w.secretNames = f.argumentNames o)
    (found : needs = true → ∃ k, find? cs c.function = some k ∧ c.Rekeyed os k) : Equipped o fs cs own w := by
  have above (b : Backend) := h.sharesAbove_iff (b := b) found
  have callees := h.calls
  have number := h.function
  obtain @⟨d, grows, _, _, requests⟩ := h
  obtain ⟨f, hf, names⟩ := arguments
  obtain ⟨s, vs, extends', inputs, isKey⟩ := requests.inputs
  obtain ⟨args, us, secrets, spelled, isSecretKey⟩ := requests.secrets
  obtain ⟨-, -, numbers⟩ := extends'.fresh_names (r := .input) rfl rfl
  obtain ⟨more, all, _, taken⟩ := grows.uses
  have taken (b : Backend) : b ∈ d.secretKeys ↔ Shares c.uses b ∨ Shares d.uses b := by
    rw [show d.uses = more from all, ← shared b]
    exact taken b
  simp only [calling_uses] at above
  have same := calling_eq (c := d) needs c.function
  refine ⟨number, ⟨s.vars, vs, ?_, fun v hv => ?_, ?_⟩, ⟨args, us, ?_, ⟨f, hf, spelled.trans names⟩, ?_⟩, ?_, ?_, ?_,
    fun b hb => ?_, fun calls b hb => ?_⟩
  · rw [same]
    exact inputs
  · obtain ⟨n, -, bears⟩ := numbers v hv
    exact ⟨n, bears⟩
  · rw [same]
    exact isKey
  · rw [same]
    exact secrets
  · rw [same]
    exact isSecretKey
  · rw [same]
    exact grows.keysOnce keys
  · rw [same]
    exact grows.secretKeysOnce secretKeys
  · rw [same]
    exact requests.entered
  · rw [same]
    exact (taken b).mpr (((above b).mp hb).symm.imp_left And.right)
  · rw [same] at hb
    have called : needs = true := by
      by_contra unproved
      rw [if_neg unproved] at callees
      exact calls (List.map_eq_nil_iff.mp callees)
    exact (above b).mpr (((taken b).mp hb).symm.imp_right fun h => ⟨called, h⟩)

theorem Equipped.follow (h : Equipped o fs cs c w) (arranged : c.calls ≠ [] → Arranged cs c)
    (calls : ∀ call ∈ c.calls, P call.callee) (rekeys : Rekeys os P cs ds) : Equipped o fs ds c w := by
  have resolved : ∀ call ∈ c.calls, ∃ k, find? cs call.callee = some k := by
    intro call hc
    obtain ⟨tidy, -⟩ := arranged (List.ne_nil_of_mem hc)
    exact tidy.resolved call hc
  have same (b : Backend) := sharesAbove_congr (b := b) rekeys calls resolved
  exact { h with
    taken := fun b hb => h.taken b ((same b).mp hb)
    needed := fun called b hb => (same b).mpr (h.needed called b hb) }

end Equipped

/-- Every key of a known owner that is used in the circuit or below is asked for exactly once. -/
def SuppliesPublicKeys (cs : List Circuit) (c : Circuit) : Prop :=
  ∀ k, Below cs c k → ∀ u ∈ k.uses, ∀ p, IsStaticKey p u.1 → (c.inputs.vars.map CircuitVar.name).count u.1.name = 1

/-- For every shared secret in the circuit or below, the sender's secret key is a secret input, and the function enters
it exactly once. -/
def SuppliesSecretKeys (cs : List Circuit) (c : Circuit) (f : FunctionDef) : Prop :=
  ∀ k, Below cs c k → ∀ b, Shares k.uses b →
    (c.secrets.vars.map CircuitVar.name).count b.secretKeyName = 1 ∧ f.body.enteredKeys.count b = 1

section Supplies

variable {o : Options} {fs : List FunctionDef} {cs : List Circuit} {c : Circuit} {w f : FunctionDef}

theorem Equipped.suppliesPublicKeys (h : Equipped o fs cs c w) (keyed : Keyed cs c.keys c) (owners : c.OwnersApart) :
    c.SuppliesPublicKeys cs := by
  intro k hk u hu p hp
  obtain ⟨q, hq, isKey⟩ := keyed k hk u hu p hp
  obtain ⟨numbered, keys, inputs, bears, isKeys⟩ := h.inputs
  obtain ⟨v, hv, isKey'⟩ := exists_mem_of_forall₂_left isKeys hq
  have same : v.name = u.1.name := Except.ok.inj (isKey'.1.symm.trans isKey.1)
  have once : (keys.map CircuitVar.name).Nodup := by
    refine nodup_names isKeys h.keysOnce fun p hp q hq v u hv hu same => ?_
    obtain ⟨name, backend⟩ := Label.keyName_injective hv.1 (same ▸ hu.1)
    exact Prod.ext (owners p hp q hq name) backend
  have fresh : u.1.name ∉ numbered.map CircuitVar.name := by
    intro again
    obtain ⟨x, hx, spelled⟩ := List.mem_map.mp again
    obtain ⟨n, hn⟩ := bears x hx
    refine isKey.not_bears .input n ?_
    unfold CircuitVar.Bears
    rwa [← spelled]
  rw [inputs, List.map_append, List.count_append, List.count_eq_zero_of_not_mem fresh, Nat.zero_add]
  exact List.count_eq_one_of_mem once (same ▸ List.mem_map_of_mem hv)

theorem Equipped.secretKey_iff (h : Equipped o fs cs c w) (unreserved : ∀ f ∈ fs, f.Unreserved)
    (entered : f.body.enteredKeys = w.body.enteredKeys) (b : Backend) :
    ((c.secrets.vars.map CircuitVar.name).count b.secretKeyName = 1 ∧ f.body.enteredKeys.count b = 1) ↔
      b ∈ c.secretKeys := by
  obtain ⟨args, keys, secrets, ⟨g, hg, spelled⟩, isKeys⟩ := h.secrets
  rw [entered, h.entered]
  refine ⟨fun supplied => List.count_pos_iff.mp (by omega), fun mem => ⟨?_, List.count_eq_one_of_mem h.secretKeysOnce mem⟩⟩
  obtain ⟨v, hv, name, _⟩ := exists_mem_of_forall₂_left isKeys mem
  have once : (keys.map CircuitVar.name).Nodup := nodup_names isKeys h.secretKeysOnce fun a _ b _ v u hv hu same =>
    Backend.secretKeyName_injective (hv.1.symm.trans (same.trans hu.1))
  have other : b.secretKeyName ∉ args.map CircuitVar.name := by
    intro again
    rw [spelled] at again
    refine (unreserved g hg).argumentNames o _ again (.inl ?_)
    rw [Backend.secretKeyName, String.append_assoc]
    exact startsWith_append ..
  rw [secrets, List.map_append, List.count_append, List.count_eq_zero_of_not_mem other, Nat.zero_add]
  exact List.count_eq_one_of_mem once (name ▸ List.mem_map_of_mem hv)

/-- Secret keys are supplied exactly if all shared secrets are for backends that the circuit itself or the internal part
shares secrets for. -/
theorem Equipped.suppliesSecretKeys_iff (h : Equipped o fs cs c w) (unreserved : ∀ f ∈ fs, f.Unreserved)
    (entered : f.body.enteredKeys = w.body.enteredKeys) :
    c.SuppliesSecretKeys cs f ↔ ∀ k, Below cs c k → ∀ b, Shares k.uses b → c.SharesAbove cs b := by
  refine forall₂_congr fun k hk => forall₂_congr fun b hb => ?_
  rw [h.secretKey_iff unreserved entered]
  refine ⟨fun mem => ?_, h.taken b⟩
  by_cases calls : c.calls = []
  · cases hk with
    | refl => exact .inl hb
    | step mem => rw [calls] at mem; cases mem
  · exact h.needed calls b mem

end Supplies

end Circuit

/-! ## Compiled programs -/

section Compiled

variable {o : Options} {P : Nat → Prop} {c d : Contract} {cs built ready ks : List Circuit} {fs : List FunctionDef}
  {ds : List Contract}

/-- What splitting a contract keeps: all keys of known owners are listed, and all external parts have their keys. -/
structure Circuit.Supplied (o : Options) (P : Nat → Prop) (fs : List FunctionDef) (ds : List Contract)
    (cs : List Circuit) : Prop where
  orderly : Orderly P cs
  keyed : ∀ k ∈ cs, Keyed cs k.keys k
  equipped : ∀ k ∈ cs, k.verifier ≠ none → ∃ w ∈ ds.flatMap Contract.allFunctions, Equipped o fs cs k w

theorem Contract.Traced.supplied (h : c.Traced o P d cs built ready ks) (mine : c.allFunctions ⊆ fs)
    (before : Supplied o P fs ds cs) : Supplied o P fs (ds ++ [d]) ks := by
  have orderly := before.orderly
  have arranged {k : Circuit} (hk : k ∈ cs) (calls : k.calls ≠ []) : Arranged cs k := orderly.arranged k hk (.inr calls)
  have old {k : Circuit} (hk : k ∈ cs) : Keyed ready k.keys k :=
    (before.keyed k hk).follow (.refl _ k) (arranged hk) hk orderly.calls h.prepared.rekeys
  have later {k : Circuit} (hk : k ∈ cs) (calls : k.calls ≠ []) : Arranged ready k :=
    (arranged hk calls).follow hk orderly.calls h.prepared.rekeys.replaces (.refl k)
  have calls : ∀ k ∈ ready, ∀ call ∈ k.calls, P call.callee := h.prepared.calls orderly
  have inner {f : FunctionDef} {b r : Circuit} (made : c.Made P built ready f b r) (needs : f.facts.needsProof = true) :
      Keyed ready r.keys r ∧ Arranged ready r :=
    ⟨made.keyed h.prepared orderly before.keyed needs, made.arranged h.prepared orderly needs⟩
  refine ⟨h.orderly orderly, fun k hk => ?_, fun k hk outer => ?_⟩
  · cases h.origin k hk with
    | old mem => exact (old mem).follow (.refl _ k) (later mem) (h.prepared.old mem).2 calls h.rekeys
    | internal mem made needs rekeyed =>
      obtain ⟨keyed, arranged⟩ := inner made needs
      exact (keyed.follow rekeyed (fun _ => arranged) mem calls h.rekeys).mono rekeyed.keys
    | @external f w b r mem made _ _ _ _ external =>
      refine .intro external.ownKeys fun call hc j hj => ?_
      have there := external.calls ▸ List.mem_map_of_mem hc
      split at there
      · rename_i needs
        obtain ⟨keyed, arranged⟩ := inner made needs
        have proof : P r.function := made.id.2 ▸ (h.prepared.needs f made.function).mpr needs
        obtain ⟨_, found, same⟩ := h.rekeys _ r proof (h.prepared.distinct_ready.find? mem)
        obtain rfl := Option.some.inj (found.symm.trans (List.mem_singleton.mp there ▸ hj))
        exact (keyed.follow same (fun _ => arranged) mem calls h.rekeys).mono external.keys.1
      · cases there
  · cases h.origin k hk with
    | old mem =>
      obtain ⟨w, hw, equipped⟩ := before.equipped k mem outer
      have once := equipped.follow (arranged mem) (orderly.calls k mem) h.prepared.rekeys
      refine ⟨w, ?_, once.follow (later mem) (calls k (h.prepared.old mem).2) h.rekeys⟩
      rw [List.flatMap_append]
      exact List.mem_append_left _ hw
    | internal _ _ _ _ verifier => exact (outer verifier).elim
    | @external f w b r mem made _ _ code arguments external =>
      obtain ⟨g, hg, _, names⟩ := arguments
      refine ⟨w, ?_, external.equipped made.keys_nodup.1 made.keys_nodup.2 ?_ ⟨g, mine hg, names⟩ fun needs => ?_⟩
      · rw [List.flatMap_append, List.flatMap_singleton]
        exact List.mem_append_right _ code
      · intro b'
        obtain ⟨more, uses, _, secretKeys⟩ := made.split.grows.uses
        rw [made.later.secretKeys, secretKeys, Circuit.uses, made.later.body, uses]
        exact or_iff_right (List.not_mem_nil)
      · have proof : P r.function := made.id.2 ▸ (h.prepared.needs f made.function).mpr needs
        exact h.rekeys _ r proof (h.prepared.distinct_ready.find? mem)

/-- Linking the statement does not change which secret keys it enters. -/
def Stmt.LinksKeys (s : Stmt) : Prop := ∀ c, Yields (fun t : Stmt => t.enteredKeys = s.enteredKeys) (s.link c)

theorem Stmt.linkAll_enteredKeys {ss : List Stmt} (each : ∀ s ∈ ss, s.LinksKeys) (c : LinkContext) :
    Yields (fun ts => Stmt.allEnteredKeys ts = Stmt.allEnteredKeys ss) (Stmt.linkAll c ss) := by
  induction ss generalizing c with
  | nil => exact .pure rfl
  | cons s ss ih =>
    rw [List.forall_mem_cons] at each
    refine (each.1 c).bind fun t ht => (ih each.2 _).bind fun ts hts => .pure ?_
    rw [allEnteredKeys, allEnteredKeys, ht, hts]

theorem Block.link_enteredKeys {b : Block} (each : ∀ s ∈ b.stmts, s.LinksKeys) (c : LinkContext) :
    Yields (fun t : Block => t.enteredKeys = b.enteredKeys) (b.link c) := by
  obtain ⟨i, ss, x⟩ := b
  exact (Stmt.linkAll_enteredKeys each _).bind fun _ h => .pure h

theorem Stmt.linksKeys (s : Stmt) : s.LinksKeys := by
  have optional (s : Option Stmt) (each : ∀ t, s = some t → t.LinksKeys) (c : LinkContext) :
      Yields (fun t => Stmt.enteredKeys? t = Stmt.enteredKeys? s) (Stmt.link? c s) := by
    cases s with
    | none => exact .pure rfl
    | some s => exact (each s rfl c).bind fun _ h => .pure h
  induction s using Stmt.inductOn with
  | ifThen i e t f thens elses =>
    intro c
    cases f with
    | none => exact .after fun _ => (Block.link_enteredKeys thens c).bind fun _ h => .pure h
    | some f =>
      refine .after fun _ => (Block.link_enteredKeys thens c).bind fun t' ht =>
        (Block.link_enteredKeys (elses f rfl) c).bind fun f' hf => .pure ?_
      rw [enteredKeys, enteredKeys, ht, hf]
  | whileLoop i e b h => exact fun c => .after fun _ => (Block.link_enteredKeys h c).bind fun _ h => .pure h
  | doWhile i b e h => exact fun c => (Block.link_enteredKeys h c).bind fun _ h => .after fun _ => .pure h
  | forLoop i init e update b inits updates h =>
    intro c
    rw [Stmt.link_forLoop]
    refine (optional init inits _).bind fun a ha => .after fun _ => (optional update updates _).bind fun u hu =>
      (Block.link_enteredKeys h _).bind fun d hd => .pure ?_
    rw [enteredKeys, enteredKeys, ha, hu, hd]
  | block b h => exact fun c => (Block.link_enteredKeys h c).bind fun _ h => .pure h
  | seq i ss x h => exact fun c => (Stmt.linkAll_enteredKeys h c).bind fun _ h => .pure h
  | simple s hs =>
    intro c
    cases s with
    | ret | eval | require => exact .after fun _ => .pure rfl
    | assign | declare => exact .after fun _ => .after fun _ => .pure rfl
    | breakLoop | continueLoop | compute | enterKey | comment | blank => exact .pure rfl
    | ifThen | whileLoop | doWhile | forLoop | block | seq => cases hs

theorem FunctionDef.link_enteredKeys (c : LinkContext) (f : FunctionDef) (s : LinkState) (g : FunctionDef)
    (t : LinkState) (h : f.link c s = .ok (g, t)) : g.id = f.id ∧ g.body.enteredKeys = f.body.enteredKeys := by
  obtain ⟨params, s₁, _, h⟩ := state_bind_ok h
  obtain ⟨returns, s₂, _, h⟩ := state_bind_ok h
  obtain ⟨body, s₃, hb, h⟩ := state_bind_ok h
  obtain ⟨_, s₄, _, h⟩ := state_bind_ok h
  cases state_pure_ok h
  exact ⟨rfl, Block.link_enteredKeys (fun s _ => s.linksKeys) _ _ _ hb⟩

/-- The external part of a function asks for each key of a known owner that is used in its circuit or in one below
exactly once, if different owners have different names. It supplies the secret keys for all shared secrets there exactly
if its own circuit or that of the internal part shares a secret for the same backend. No parameter may have a name that
starts like those of keys. -/
theorem SourceUnit.compile_suppliesKeys_iff {u : SourceUnit} {next : Nat} {t : Transcript} {r : Compilation}
    (distinct : u.numbers.Nodup) (bounded : ∀ i ∈ u.numbers, i < next) (h : (u.compile next o t).2 = .ok r)
    (unreserved : ∀ f ∈ r.source.allFunctions, f.Unreserved) :
    ∀ c ∈ r.circuits, c.verifier ≠ none → c.OwnersApart → ∃ f ∈ r.code.allFunctions, f.id = c.function ∧
      c.SuppliesPublicKeys r.circuits ∧ (c.SuppliesSecretKeys r.circuits f ↔
        ∀ k, Below r.circuits c k → ∀ b, Shares k.uses b → c.SharesAbove r.circuits b) := by
  have unreserved : ∀ f ∈ (r.source.markHoms o).allFunctions, f.Unreserved := by
    intro g hg
    obtain ⟨f, hf, params, -⟩ := SourceUnit.markHoms_source hg
    rw [FunctionDef.Unreserved, params]
    exact unreserved f hf
  obtain ⟨w, n, m, linked, supplied⟩ := SourceUnit.compile_assembled
    (I := Supplied o (r.source.markHoms o).NeedsProof (r.source.markHoms o).allFunctions) distinct bounded h
    (fun c hc _ _ _ _ _ _ traced before => traced.supplied (fun f hf => List.mem_flatMap.mpr ⟨c, hc, hf⟩) before)
    ⟨⟨List.nodup_nil, by simp, by simp, by simp⟩, by simp, by simp⟩
  intro c hc outer owners
  obtain ⟨f, hf, equipped⟩ := supplied.equipped c hc outer
  obtain ⟨d, hd, hf⟩ := List.mem_flatMap.mp hf
  obtain ⟨e, he, same⟩ := exists_mem_of_forall₂_left (SourceUnit.link_each FunctionDef.link_enteredKeys linked) hd
  obtain ⟨g, hg, id, entered⟩ := exists_mem_of_forall₂_left (List.rel_append same.constructors same.functions) hf
  exact ⟨g, List.mem_flatMap.mpr ⟨e, he, hg⟩, id.trans equipped.function.symm,
    equipped.suppliesPublicKeys (supplied.keyed c hc) owners, equipped.suppliesSecretKeys_iff unreserved entered⟩

end Compiled

/-- The backends for which encryptions share secrets. -/
def sharedBackends (uses : List (CircuitVar × Bool)) : List Backend :=
  uses.filterMap fun u => match u.2, u.1.type with
    | true, .publicKey b => some b
    | _, _ => none

theorem mem_sharedBackends {uses : List (CircuitVar × Bool)} {b : Backend} :
    b ∈ sharedBackends uses ↔ Shares uses b := by
  unfold sharedBackends Shares
  simp only [List.mem_filterMap, Prod.exists]
  constructor
  · rintro ⟨v, shared, hu, hb⟩
    split at hb
    · rename_i type
      cases hb
      exact ⟨v, by assumption, type⟩
    · cases hb
  · rintro ⟨v, hv, type⟩
    exact ⟨v, true, hv, by rw [type]⟩

instance (uses : List (CircuitVar × Bool)) (b : Backend) : Decidable (Shares uses b) :=
  decidable_of_iff _ mem_sharedBackends

/-- A function without private values of its own calls one that encrypts a public number. -/
def keyless : SourceUnit :=
  let hidden : Expr := .reclassify (.numbered 104) .reveal (.nameAt 105 "n") .meLabel none
  .sketch 100 "C" [⟨101, [], .plain AnnTy.uint, "n", none⟩]
    [.sketch 102 "hide" "internal" [] [.declareAt 103 AnnTy.uint.mine "t" hidden],
      .sketch 106 "run" "public" [] [.eval default (.callAt 107 (.nameAt 108 "hide") [])]]

/-- The program compiles to an external part without the secret key that the circuit two calls below needs. -/
theorem keyless_compiled : ∃ r, (keyless.compile 110 .default .empty).2 = .ok r ∧
    (∀ f ∈ r.source.allFunctions, f.Unreserved) ∧ ∃ c ∈ r.circuits, c.verifier ≠ none ∧ c.OwnersApart ∧
      ∃ call ∈ c.calls, ∃ k ∈ find? r.circuits call.callee, ∃ call' ∈ k.calls,
        ∃ l ∈ find? r.circuits call'.callee, Shares l.uses .ecdhAes ∧
          (c.secrets.vars.map CircuitVar.name).count Backend.ecdhAes.secretKeyName = 0 := by
  obtain ⟨r, hr, h⟩ := exists_ok_of_any (x := (keyless.compile 110 .default .empty).2)
    (p := fun r => decide ((∀ f ∈ r.source.allFunctions, f.Unreserved) ∧
      ∃ c ∈ r.circuits, c.verifier ≠ none ∧ c.OwnersApart ∧
      ∃ call ∈ c.calls, ∃ k ∈ find? r.circuits call.callee, ∃ call' ∈ k.calls,
        ∃ l ∈ find? r.circuits call'.callee, Shares l.uses .ecdhAes ∧
          (c.secrets.vars.map CircuitVar.name).count Backend.ecdhAes.secretKeyName = 0))
    (by decide +kernel)
  exact ⟨r, hr, of_decide_eq_true h⟩

theorem keyless_suppliesKeys_iff : ∃ r, (keyless.compile 110 .default .empty).2 = .ok r ∧
    (∀ f ∈ r.source.allFunctions, f.Unreserved) ∧ ∃ c ∈ r.circuits, c.verifier ≠ none ∧ c.OwnersApart ∧
      ∃ f ∈ r.code.allFunctions, f.id = c.function ∧ c.SuppliesPublicKeys r.circuits ∧
        (c.SuppliesSecretKeys r.circuits f ↔
          ∀ k, Below r.circuits c k → ∀ b, Shares k.uses b → c.SharesAbove r.circuits b) := by
  obtain ⟨r, hr, unreserved, c, hc, outer, owners, _⟩ := keyless_compiled
  have supplies := SourceUnit.compile_suppliesKeys_iff (by decide +kernel) (by decide +kernel) hr unreserved
  exact ⟨r, hr, unreserved, c, hc, outer, owners, supplies c hc outer owners⟩

/-- The secret key is missing. -/
theorem keyless_not_supplied : ∃ r, (keyless.compile 110 .default .empty).2 = .ok r ∧
    ∃ c ∈ r.circuits, c.verifier ≠ none ∧ ∀ f, ¬ c.SuppliesSecretKeys r.circuits f := by
  obtain ⟨r, hr, _, c, hc, outer, _, call, hcall, k, hk, call', hcall', l, hl, shares, none⟩ := keyless_compiled
  refine ⟨r, hr, c, hc, outer, fun f supplied => ?_⟩
  have below : Below r.circuits c l := .step hcall hk (.step hcall' hl .refl)
  have once := (supplied l below .ecdhAes shares).1
  rw [none] at once
  cases once

end Shroud
