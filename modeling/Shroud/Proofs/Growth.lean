import Shroud.Proofs.CallTotals
import Shroud.Proofs.Linking
import Shroud.Proofs.Run

/-!
# Growth of circuits

What a run of the splitter adds to a circuit, apart from its history: encryptions with their keys, and calls.

**Keys.** Every encryption in a circuit has a key. It is either an input of the same circuit or the key of an owner
that is known in advance, which is then listed among the requested ones. An encryption with a shared secret also
needs the sender's secret key of its backend.

**Calls.** The recorded calls lead to functions that need a proof and were known before the splitter started.

**Outputs** are handed out one after the other under fresh names, and none is taken back.

**Asking** activities record no calls.
-/

namespace Shroud

open SplitM

/-! ## Keys in use -/

mutual

/-- The keys of the encryptions in a statement, with whether the encryption uses a shared secret. -/
def CircuitStmt.keyUses : CircuitStmt → List (CircuitVar × Bool)
  | .encrypt _ _ key _ _ => [(key, false)]
  | .encryptShared _ key _ _ => [(key, true)]
  | .block _ ss => CircuitStmt.allKeyUses ss
  | _ => []

/-- The keys of all encryptions. -/
def CircuitStmt.allKeyUses : List CircuitStmt → List (CircuitVar × Bool)
  | [] => []
  | s :: ss => s.keyUses ++ CircuitStmt.allKeyUses ss

end

namespace CircuitStmt

theorem allKeyUses_append (ss ts : List CircuitStmt) : allKeyUses (ss ++ ts) = allKeyUses ss ++ allKeyUses ts := by
  induction ss with
  | nil => rfl
  | cons s ss ih => rw [List.cons_append, allKeyUses, allKeyUses, ih, List.append_assoc]

theorem allKeyUses_singleton (s : CircuitStmt) : allKeyUses [s] = s.keyUses := by
  rw [allKeyUses, allKeyUses, List.append_nil]

theorem allKeyUses_indented (name : String) (n : Nat) (ss : List CircuitStmt) :
    allKeyUses (ss.take n ++ [.block name (ss.drop n)]) = allKeyUses ss := by
  rw [allKeyUses_append, allKeyUses_singleton, keyUses, ← allKeyUses_append, List.take_append_drop]

theorem allKeyUses_amend (text : String) (n : Nat) (ss : List CircuitStmt) :
    allKeyUses (ss.modify n (amend text)) = allKeyUses ss := by
  induction ss generalizing n with
  | nil => simp
  | cons s ss ih =>
    cases n with
    | zero =>
      rw [List.modify_zero_cons, allKeyUses, allKeyUses]
      congr 1
      cases s <;> rfl
    | succ n => rw [List.modify_succ_cons, allKeyUses, allKeyUses, ih]

end CircuitStmt

/-- Variables with fresh names were added to the supply. -/
inductive NameSupply.Extends (s : NameSupply) : NameSupply → Prop
  | refl : Extends s s
  | fresh {r : NameSupply} (h : Extends s r) (t : Ty) (source : Option Expr) (suffix : String) :
    Extends s (r.fresh t source suffix).2

theorem NameSupply.Extends.trans {s r q : NameSupply} (h : s.Extends r) (k : r.Extends q) : s.Extends q := by
  induction k with
  | refl => exact h
  | fresh _ t source suffix ih => exact .fresh ih t source suffix

namespace Circuit

/-- The key is an input of the circuit, or that of one of these owners. -/
def Offers (c : Circuit) (keys : List (Label × Backend)) (v : CircuitVar) : Prop :=
  v ∈ c.inputs.vars ∨ ∃ p ∈ keys, IsStaticKey p v

/-- Some of these encryptions use a secret that is shared with the owner of a key for the backend. -/
def Shares (uses : List (CircuitVar × Bool)) (b : Backend) : Prop := ∃ v, (v, true) ∈ uses ∧ v.type = .publicKey b

/-- The second circuit is the first one with encryptions added, and with what they need. Keys are listed of these owners
alone. -/
structure Grows (os : List Label) (c d : Circuit) : Prop where
  function : d.function = c.function
  verifier : d.verifier = c.verifier
  callees : d.callees = c.callees
  called : d.called = c.called
  keys : c.keys ⊆ d.keys
  inputs : c.inputs.vars ⊆ d.inputs.vars
  outputs : c.outputs.Extends d.outputs
  uses : ∃ more, CircuitStmt.allKeyUses d.body = CircuitStmt.allKeyUses c.body ++ more ∧
    (∀ u ∈ more, d.Offers d.keys u.1) ∧ ∀ b, b ∈ d.secretKeys ↔ b ∈ c.secretKeys ∨ Shares more b
  known : ∀ p ∈ d.keys, p ∈ c.keys ∨ p.1 ∈ os
  keysOnce : c.keys.Nodup → d.keys.Nodup
  secretKeysOnce : c.secretKeys.Nodup → d.secretKeys.Nodup

/-- The second circuit is the first one without encryptions or calls added, but perhaps with keys. -/
structure Asks (os : List Label) (c d : Circuit) : Prop where
  function : d.function = c.function
  verifier : d.verifier = c.verifier
  callees : d.callees = c.callees
  called : d.called = c.called
  calls : d.calls = c.calls
  secretKeys : d.secretKeys = c.secretKeys
  uses : CircuitStmt.allKeyUses d.body = CircuitStmt.allKeyUses c.body
  keys : c.keys ⊆ d.keys
  inputs : c.inputs.vars ⊆ d.inputs.vars
  outputs : c.outputs.Extends d.outputs
  known : ∀ p ∈ d.keys, p ∈ c.keys ∨ p.1 ∈ os
  keysOnce : c.keys.Nodup → d.keys.Nodup

variable {c d e : Circuit} {v : CircuitVar} {b : Backend} {us vs : List (CircuitVar × Bool)} {os : List Label}

theorem Offers.mono {ks ls : List (Label × Backend)} (h : c.Offers ks v) (hi : c.inputs.vars ⊆ d.inputs.vars)
    (hk : ks ⊆ ls) : d.Offers ls v := by
  rcases h with h | ⟨p, hp, h⟩
  · exact .inl (hi h)
  · exact .inr ⟨p, hk hp, h⟩

theorem shares_append : Shares (us ++ vs) b ↔ Shares us b ∨ Shares vs b := by
  unfold Shares
  simp only [List.mem_append, or_and_right, exists_or]

theorem Asks.grows (h : c.Asks os d) : c.Grows os d := by
  refine ⟨h.function, h.verifier, h.callees, h.called, h.keys, h.inputs, h.outputs, ⟨[], ?_, by simp, fun b => ?_⟩,
    h.known, h.keysOnce, fun hn => h.secretKeys ▸ hn⟩
  · rw [h.uses, List.append_nil]
  · rw [h.secretKeys]
    simp [Shares]

theorem known_trans (h : ∀ p ∈ d.keys, p ∈ c.keys ∨ p.1 ∈ os) (k : ∀ p ∈ e.keys, p ∈ d.keys ∨ p.1 ∈ os) :
    ∀ p ∈ e.keys, p ∈ c.keys ∨ p.1 ∈ os := fun p hp => (k p hp).elim (h p) .inr

theorem Asks.refl (os : List Label) (c : Circuit) : c.Asks os c :=
  ⟨rfl, rfl, rfl, rfl, rfl, rfl, rfl, List.Subset.refl _, List.Subset.refl _, .refl, fun _ => .inl, id⟩

theorem Asks.trans (h : c.Asks os d) (k : d.Asks os e) : c.Asks os e :=
  ⟨k.function.trans h.function, k.verifier.trans h.verifier, k.callees.trans h.callees, k.called.trans h.called,
    k.calls.trans h.calls, k.secretKeys.trans h.secretKeys, k.uses.trans h.uses, List.Subset.trans h.keys k.keys,
    List.Subset.trans h.inputs k.inputs, h.outputs.trans k.outputs, known_trans h.known k.known,
    fun hn => k.keysOnce (h.keysOnce hn)⟩

theorem Grows.refl (os : List Label) (c : Circuit) : c.Grows os c := (Asks.refl os c).grows

theorem Grows.trans (h : c.Grows os d) (k : d.Grows os e) : c.Grows os e := by
  obtain ⟨us, hus, offersU, secretU⟩ := h.uses
  obtain ⟨vs, hvs, offersV, secretV⟩ := k.uses
  refine ⟨k.function.trans h.function, k.verifier.trans h.verifier, k.callees.trans h.callees,
    k.called.trans h.called, List.Subset.trans h.keys k.keys, List.Subset.trans h.inputs k.inputs,
    h.outputs.trans k.outputs, ⟨us ++ vs, by rw [hvs, hus, List.append_assoc], fun u hu => ?_, fun b => ?_⟩,
    known_trans h.known k.known, fun hn => k.keysOnce (h.keysOnce hn), fun hn => k.secretKeysOnce (h.secretKeysOnce hn)⟩
  · rcases List.mem_append.mp hu with hu | hu
    · exact (offersU u hu).mono k.inputs k.keys
    · exact offersV u hu
  · rw [secretV, secretU, shares_append, or_assoc]

end Circuit

/-- The splitter went on from the first workspace to the second one without adding encryptions or calls. -/
structure Workspace.Asks (os : List Label) (w v : Workspace) : Prop where
  circuit : w.circuit.Asks os v.circuit
  symbols : v.symbols.Within w.symbols
  next : w.next ≤ v.next

/-- The splitter went on from the first workspace to the second one. -/
structure Workspace.Grows (os : List Label) (w v : Workspace) : Prop where
  circuit : w.circuit.Grows os v.circuit
  symbols : v.symbols.Within w.symbols
  next : w.next ≤ v.next

/-- The call leads to a function that needs a proof. -/
def Workspace.Knows (w : Workspace) (call : CircuitCall) : Prop :=
  ∃ i g, w.symbols.function? i = some g ∧ g.facts.needsProof = true ∧ call.callee = g.id

variable {os : List Label}

theorem Workspace.Asks.refl (os : List Label) (w : Workspace) : w.Asks os w := ⟨.refl _ _, .refl _, Nat.le_refl _⟩

theorem Workspace.Asks.trans {w v u : Workspace} (h : w.Asks os v) (k : v.Asks os u) : w.Asks os u :=
  ⟨h.circuit.trans k.circuit, k.symbols.trans h.symbols, Nat.le_trans h.next k.next⟩

theorem Workspace.Asks.grows {w v : Workspace} (h : w.Asks os v) : w.Grows os v := ⟨h.circuit.grows, h.symbols, h.next⟩

theorem Workspace.Grows.trans {w v u : Workspace} (h : w.Grows os v) (k : v.Grows os u) : w.Grows os u :=
  ⟨h.circuit.trans k.circuit, k.symbols.trans h.symbols, Nat.le_trans h.next k.next⟩

theorem Workspace.Knows.mono {w v : Workspace} {call : CircuitCall} (h : v.Knows call) (k : w.Grows os v) :
    w.Knows call := by
  obtain ⟨i, g, hg, proof, callee⟩ := h
  exact ⟨i, g, k.symbols i g hg, proof, callee⟩

namespace SplitM

section Growing

variable {α β : Type} {x : SplitM α} {f : α → SplitM β}

/-- The activity adds neither encryptions nor calls. -/
def Asking (x : SplitM α) : Prop := ∀ k w a w', Runs k x w a w' → w.Asks k.owners w'

/-- The activity makes the circuit grow and records no calls. -/
def Silent (x : SplitM α) : Prop := ∀ k w a w', Runs k x w a w' → w.Grows k.owners w' ∧ w'.circuit.calls = w.circuit.calls

/-- The activity makes the circuit grow, and every call it records leads to a function that needs a proof. -/
def Growing (x : SplitM α) : Prop := ∀ k w a w', Runs k x w a w' →
  w.Grows k.owners w' ∧ ∀ call ∈ w'.circuit.calls, call ∈ w.circuit.calls ∨ w.Knows call

theorem Asking.silent (h : Asking x) : Silent x := by
  intro k w a w' hr
  have asks := h k w a w' hr
  exact ⟨asks.grows, asks.circuit.calls⟩

theorem Silent.growing (h : Silent x) : Growing x := by
  intro k w a w' hr
  obtain ⟨grows, calls⟩ := h k w a w' hr
  exact ⟨grows, fun call hc => .inl (calls ▸ hc)⟩

theorem Asking.growing (h : Asking x) : Growing x := h.silent.growing

theorem Asking.pure {a : α} : Asking (pure a) := by
  intro k w b w' h
  obtain ⟨_, rfl⟩ := runs_pure.mp h
  exact .refl _ w

theorem Growing.pure {a : α} : Growing (pure a) := Asking.pure.growing

theorem Asking.bind (hx : Asking x) (hf : ∀ a, Asking (f a)) : Asking (x >>= f) := by
  intro k w b w' h
  obtain ⟨a, v, h₁, h₂⟩ := runs_bind.mp h
  exact (hx k w a v h₁).trans (hf a k v b w' h₂)

theorem Silent.bind (hx : Silent x) (hf : ∀ a, Silent (f a)) : Silent (x >>= f) := by
  intro k w b w' h
  obtain ⟨a, v, h₁, h₂⟩ := runs_bind.mp h
  obtain ⟨grows, calls⟩ := hx k w a v h₁
  obtain ⟨grows', calls'⟩ := hf a k v b w' h₂
  exact ⟨grows.trans grows', calls'.trans calls⟩

/-- One activity after another, of which it is known what it returns. -/
theorem Growing.bind_gives {Q : α → Prop} (hx : Growing x) (hQ : ∀ k w a w', Runs k x w a w' → Q a)
    (hf : ∀ a, Q a → Growing (f a)) : Growing (x >>= f) := by
  intro k w b w' h
  obtain ⟨a, v, h₁, h₂⟩ := runs_bind.mp h
  obtain ⟨grows, calls⟩ := hx k w a v h₁
  obtain ⟨grows', calls'⟩ := hf a (hQ k w a v h₁) k v b w' h₂
  refine ⟨grows.trans grows', fun call hc => ?_⟩
  rcases calls' call hc with hc | known
  · exact calls call hc
  · exact .inr (known.mono grows)

theorem Growing.bind (hx : Growing x) (hf : ∀ a, Growing (f a)) : Growing (x >>= f) :=
  hx.bind_gives (Q := fun _ => True) (fun _ _ _ _ _ => trivial) fun a _ => hf a

/-- An activity that adds neither encryptions nor calls, before another one. -/
theorem Asking.before (hx : Asking x) (hf : ∀ a, Growing (f a)) : Growing (x >>= f) := hx.growing.bind hf

theorem Asking.throw {e : Error} : Asking (throw e : SplitM α) := fun _ _ _ _ h => (runs_throw h).elim

theorem Asking.ofExcept {r : Except Error α} : Asking (ofExcept r : SplitM α) := by
  intro k w b w' h
  obtain ⟨_, rfl⟩ := runs_ofExcept.mp h
  exact .refl _ w

theorem asking_get : Asking (get : SplitM Workspace) := by
  intro k w b w' h
  obtain ⟨_, rfl⟩ := runs_get.mp h
  exact .refl _ w

theorem asking_read : Asking (read : SplitM SplitContext) := by
  intro k w b w' h
  obtain ⟨_, rfl⟩ := runs_read.mp h
  exact .refl _ w

theorem asking_symbols : Asking symbols := asking_get.bind fun _ => .pure

theorem asking_circuit : Asking circuit := asking_get.bind fun _ => .pure

theorem asking_versions : Asking versions := asking_circuit.bind fun _ => .pure

theorem asking_options : Asking options := asking_read.bind fun _ => .pure

theorem asking_backend {h : Hom} : Asking (backend h) := asking_options.bind fun _ => .pure

theorem asking_draft? : Asking draft? := asking_get.bind fun _ => .pure

theorem asking_modify {g : Workspace → Workspace} (h : ∀ os, ∀ w : Workspace, w.Asks os (g w)) :
    Asking (modify g : SplitM PUnit) := by
  intro k w a w' hr
  obtain rfl := runs_modify.mp hr
  exact h _ w

/-- A change of the drafts alone. -/
theorem asking_drafts {g : Workspace → List Draft} : Asking (modify fun w => { w with drafts := g w } : SplitM PUnit) :=
  asking_modify fun _ _ => ⟨.refl _ _, .refl _, Nat.le_refl _⟩

theorem asking_modifyDraft {g : Draft → Draft} : Asking (modifyDraft g) := asking_drafts

theorem asking_precede {s : Stmt} : Asking (precede s) := by
  refine asking_draft?.bind fun d => ?_
  cases d with
  | none => exact .throw
  | some d => exact asking_modifyDraft

theorem asking_restate {s : Stmt} : Asking (restate s) := asking_modifyDraft

theorem asking_put {e : Expr} : Asking (put e) := by
  unfold put
  split
  · exact asking_modifyDraft.bind fun _ => .pure
  · exact .pure

theorem asking_context : Asking context := by
  refine asking_draft?.bind fun d => ?_
  cases d with
  | none => exact .throw
  | some d => exact .pure

theorem asking_knowledge : Asking knowledge := asking_draft?.bind fun _ => .pure

theorem asking_linking {l : LinkM α} (hl : LinkM.Growing l) : Asking (linking l) := by
  intro k w b w' h
  obtain ⟨s, v, hs, h⟩ := runs_bind.mp h
  obtain ⟨rfl, rfl⟩ := runs_get.mp hs
  split at h
  · rename_i a t hrun
    obtain ⟨_, u, hu, h⟩ := runs_bind.mp h
    obtain rfl := runs_set.mp hu
    obtain ⟨_, rfl⟩ := runs_pure.mp h
    have grows := hl _ _ hrun
    exact ⟨.refl _ _, grows.symbols, grows.next⟩
  · exact (runs_throw h).elim

theorem asking_relink {e : Expr} : Asking (relink e) :=
  asking_context.bind fun c => asking_linking (e.growing_link c)

theorem asking_fresh : Asking fresh := asking_linking LinkM.growing_fresh

theorem asking_modifyCircuit {g : Circuit → Circuit} (h : ∀ os, ∀ c : Circuit, c.Asks os (g c)) : Asking (modifyCircuit g) :=
  asking_modify fun _ _ => ⟨h _ _, .refl _, Nat.le_refl _⟩

theorem Asking.mapM {f : α → SplitM β} (hf : ∀ a, Asking (f a)) (as : List α) : Asking (as.mapM f) := by
  induction as with
  | nil =>
    rw [List.mapM_nil]
    exact .pure
  | cons a as ih =>
    rw [List.mapM_cons]
    exact (hf a).bind fun _ => ih.bind fun _ => .pure

theorem Growing.forM {f : α → SplitM PUnit} (hf : ∀ a, Growing (f a)) (as : List α) : Growing (as.forM f) := by
  induction as with
  | nil => exact .pure
  | cons a as ih => exact (hf a).bind fun _ => ih

end Growing

/-! ## Additions to the circuit -/

section Additions

variable {α β : Type} {x : SplitM α}

/-- A part of the circuit changes that has nothing to do with keys or calls. -/
theorem Circuit.asks_of_same {os : List Label} {c d : Circuit} (h : d = { c with
    hasResult := d.hasResult, body := d.body, secrets := d.secrets, temporaries := d.temporaries, inputs := d.inputs
    outputs := d.outputs, versions := d.versions, history := d.history })
    (uses : CircuitStmt.allKeyUses d.body = CircuitStmt.allKeyUses c.body) (inputs : c.inputs.vars ⊆ d.inputs.vars)
    (outputs : c.outputs.Extends d.outputs) : c.Asks os d := by
  rw [h]
  exact ⟨rfl, rfl, rfl, rfl, rfl, rfl, uses, List.Subset.refl _, inputs, outputs, fun _ => .inl, id⟩

theorem asking_emit {s : CircuitStmt} (hs : s.keyUses = []) : Asking (emit s) := by
  refine asking_modifyCircuit fun _ c => Circuit.asks_of_same rfl ?_ (List.Subset.refl _) .refl
  rw [CircuitStmt.allKeyUses_append, CircuitStmt.allKeyUses_singleton, hs, List.append_nil]

theorem asking_comment {text : String} : Asking (comment text) := asking_emit rfl

theorem asking_handOut (make : Circuit → CircuitVar × NameSupply) (store : NameSupply → Circuit → Circuit)
    (h : ∀ os, ∀ c : Circuit, c.Asks os (store (make c).2 c)) : Asking (do
      let (v, s) := make (← circuit)
      modifyCircuit (store s)
      return v) := by
  intro k w v w' hr
  obtain ⟨_, rfl⟩ := (runs_handOut make store).mp hr
  exact ⟨h _ _, .refl _, Nat.le_refl _⟩

theorem asking_addSecret {name : String} {t : Ty} : Asking (addSecret name t) :=
  asking_handOut (fun c => c.secrets.add name t none) (fun s c => { c with secrets := s })
    fun _ _ => Circuit.asks_of_same rfl rfl (List.Subset.refl _) .refl

theorem asking_freshSecret {t : Ty} {suffix : String} : Asking (freshSecret t suffix) :=
  asking_handOut (fun c => c.secrets.fresh t none suffix) (fun s c => { c with secrets := s })
    fun _ _ => Circuit.asks_of_same rfl rfl (List.Subset.refl _) .refl

theorem asking_freshTemporary {t : Ty} {source : Expr} {suffix : String} : Asking (freshTemporary t source suffix) :=
  asking_handOut (fun c => c.temporaries.fresh t (some source) suffix) (fun s c => { c with temporaries := s })
    fun _ _ => Circuit.asks_of_same rfl rfl (List.Subset.refl _) .refl

theorem asking_freshOutput {t : Ty} {source : Expr} {suffix : String} : Asking (freshOutput t source suffix) :=
  asking_handOut (fun c => c.outputs.fresh t (some source) suffix) (fun s c => { c with outputs := s })
    fun _ _ => Circuit.asks_of_same rfl rfl (List.Subset.refl _) (.fresh .refl _ _ _)

theorem asking_addInput {name : String} {t : Ty} : Asking (addInput name t) :=
  asking_handOut (fun c => c.inputs.add name t none) (fun s c => { c with inputs := s })
    fun _ _ => Circuit.asks_of_same rfl rfl (List.subset_append_left _ _) .refl

theorem asking_freshInput {t : Ty} {source : Option Expr} {suffix : String} : Asking (freshInput t source suffix) :=
  asking_handOut (fun c => c.inputs.fresh t source suffix) (fun s c => { c with inputs := s })
    fun _ _ => Circuit.asks_of_same rfl rfl (List.subset_append_left _ _) .refl

theorem asking_setVersions {vs : Versions} : Asking (setVersions vs) :=
  asking_modifyCircuit fun _ _ => Circuit.asks_of_same rfl rfl (List.Subset.refl _) .refl

theorem asking_setVersion {x : Variable} {v : CircuitVar} : Asking (setVersion x v) :=
  asking_versions.bind fun _ => asking_setVersions

theorem asking_forgetAll {xs : List Variable} : Asking (forgetAll xs) :=
  asking_versions.bind fun _ => asking_setVersions

theorem asking_record {s : Step} : Asking (record s) :=
  asking_modifyCircuit fun _ _ => Circuit.asks_of_same rfl rfl (List.Subset.refl _) .refl

theorem asking_note {e : Event} : Asking (note e) := asking_circuit.bind fun _ => asking_record

theorem asking_resume {vs : Versions} : Asking (resume vs) := asking_setVersions.bind fun _ => asking_note

theorem Growing.indented {name : String} (hx : Growing x) : Growing (indented name x) := by
  refine asking_circuit.before fun c => hx.bind fun a => ?_
  refine Asking.before (asking_modifyCircuit ?_) fun _ => .pure
  exact fun _ d => Circuit.asks_of_same rfl (CircuitStmt.allKeyUses_indented ..) (List.Subset.refl _) .refl

theorem Growing.guarded {cond : CircuitVar} {holds : Bool} (hx : Growing x) : Growing (guarded cond holds x) :=
  (asking_emit rfl).before fun _ => hx.bind fun _ => (asking_emit rfl).before fun _ => .pure

theorem Growing.captured (hx : Growing x) : Growing (captured x) := by
  refine asking_circuit.before fun c => hx.bind fun a => asking_circuit.before fun d => ?_
  refine Asking.before (asking_modifyCircuit ?_) fun _ => .pure
  exact fun _ _ => Circuit.asks_of_same rfl rfl (List.Subset.refl _) .refl

theorem Growing.grouped {step : List Step → Step} (hx : Growing x) : Growing (grouped step x) :=
  hx.captured.bind fun _ => asking_record.before fun _ => .pure

theorem Growing.inScope {isCall : Bool} {visible : Variable → Bool} (hx : Growing x) :
    Growing (inScope isCall visible x) :=
  asking_versions.before fun _ => hx.captured.bind fun _ => asking_versions.before fun _ =>
    asking_record.before fun _ => asking_resume.before fun _ => .pure

end Additions

end SplitM

/-! ## Keys -/

section Keys

variable {k : SplitContext} {w w' : Workspace} {b : Backend} {v : CircuitVar}

theorem runs_addInput {name : String} {t : Ty} (h : Runs k (addInput name t) w v w') :
    v = (w.circuit.inputs.add name t none).1 ∧
      w' = { w with circuit := { w.circuit with inputs := (w.circuit.inputs.add name t none).2 } } := by
  obtain ⟨rfl, rfl⟩ := (runs_handOut (fun c => c.inputs.add name t none) (fun s c => { c with inputs := s })).mp h
  exact ⟨rfl, rfl⟩

theorem asking_requestKey {owner : Label} {name : String} : Asking (requestKey b owner name) :=
  asking_addInput.bind fun _ => Asking.ofExcept.bind fun _ => Asking.ofExcept.bind fun _ => .pure

/-- The key becomes an input with this name, and a statement looks it up. -/
theorem runs_requestKey {owner : Label} {name : String} {p : CircuitVar × Stmt}
    (h : Runs k (requestKey b owner name) w p w') : p.1.name = name ∧ p.1.type = .publicKey b ∧
      w'.circuit.inputs.vars = w.circuit.inputs.vars ++ [p.1] ∧ w'.circuit.keys = w.circuit.keys ∧
      w'.circuit.secrets = w.circuit.secrets ∧ ∃ place value, p.2 = .set place value := by
  obtain ⟨v, u, h₁, h⟩ := runs_bind.mp h
  obtain ⟨_, u₁, h₂, h⟩ := runs_bind.mp h
  obtain ⟨_, u₂, h₃, h⟩ := runs_bind.mp h
  obtain ⟨rfl, rfl⟩ := runs_pure.mp h
  obtain ⟨_, rfl⟩ := runs_ofExcept.mp h₂
  obtain ⟨_, rfl⟩ := runs_ofExcept.mp h₃
  obtain ⟨rfl, rfl⟩ := runs_addInput h₁
  exact ⟨rfl, rfl, rfl, rfl, rfl, _, _, rfl⟩

/-- A key that the circuit can refer to. -/
def Circuit.HasKey (c : Circuit) (b : Backend) (v : CircuitVar) : Prop := c.Offers c.keys v ∧ v.type = .publicKey b

theorem Circuit.HasKey.mono {c d : Circuit} {os : List Label} (h : c.HasKey b v) (k : c.Asks os d) : d.HasKey b v :=
  ⟨h.1.mono k.inputs k.keys, h.2⟩

theorem Circuit.asks_listKey {os : List Label} {owner : Label} (known : owner ∈ os) (c : Circuit) :
    c.Asks os { c with keys := includeOnce c.keys (owner, b) } :=
  ⟨rfl, rfl, rfl, rfl, rfl, rfl, rfl, fun _ hp => mem_includeOnce.mpr (.inl hp), List.Subset.refl _, .refl,
    fun p hp => (mem_includeOnce.mp hp).imp_right fun (same : p = (owner, b)) => same ▸ known, includeOnce_nodup⟩

/-- The key of an owner is listed, or looked up. -/
theorem runs_publicKey {owner : Label} (h : Runs k (publicKey owner b) w v w') :
    w.Asks k.owners w' ∧ w'.circuit.HasKey b v := by
  obtain ⟨_, _, h₁, h⟩ := runs_bind.mp h
  obtain ⟨rfl, rfl⟩ := runs_read.mp h₁
  split at h
  · rename_i known
    obtain ⟨_, w₁, h₁, h⟩ := runs_bind.mp h
    obtain ⟨name, _, h₂, h⟩ := runs_bind.mp h
    obtain ⟨hname, rfl⟩ := runs_ofExcept.mp h₂
    obtain ⟨rfl, rfl⟩ := runs_pure.mp h
    obtain rfl := runs_modifyCircuit.mp h₁
    exact ⟨⟨Circuit.asks_listKey (List.contains_iff_mem.mp known) _, .refl _, Nat.le_refl _⟩,
      .inr ⟨(owner, b), mem_includeOnce.mpr (.inr rfl), hname, rfl⟩, rfl⟩
  · obtain ⟨_, w₁, h₁, h⟩ := runs_bind.mp h
    have asks := asking_draft? _ _ _ _ h₁
    split at h
    · exact (runs_throw h).elim
    · obtain ⟨c, w₂, h₂, h⟩ := runs_bind.mp h
      obtain ⟨p, w₃, h₃, h⟩ := runs_bind.mp h
      obtain ⟨_, w₄, h₄, h⟩ := runs_bind.mp h
      obtain ⟨rfl, rfl⟩ := runs_pure.mp h
      have preceded := asking_precede _ _ _ _ h₄
      refine ⟨((asks.trans (asking_circuit _ _ _ _ h₂)).trans (asking_requestKey _ _ _ _ h₃)).trans preceded, ?_⟩
      obtain ⟨_, type, inputs, _⟩ := runs_requestKey h₃
      refine Circuit.HasKey.mono ⟨.inl ?_, type⟩ preceded.circuit
      rw [inputs]
      exact List.mem_append_right _ (List.mem_singleton_self _)

theorem runs_freshInput_mem {t : Ty} {source : Option Expr} {suffix : String}
    (h : Runs k (freshInput t source suffix) w v w') : v ∈ w'.circuit.inputs.vars ∧ v.type = t.abstract := by
  obtain ⟨rfl, rfl⟩ := (runs_handOut (fun c => c.inputs.fresh t source suffix)
    (fun s c => { c with inputs := s })).mp h
  exact ⟨List.mem_append_right _ (List.mem_singleton_self _), rfl⟩

/-- The key that a ciphertext names is an input. -/
theorem runs_senderKey {cipher : CircuitVar} (h : Runs k (senderKey cipher b) w v w') :
    w.Asks k.owners w' ∧ w'.circuit.HasKey b v := by
  obtain ⟨u, w₁, h₁, h⟩ := runs_bind.mp h
  obtain ⟨_, w₂, h₂, h⟩ := runs_bind.mp h
  obtain ⟨_, w₃, h₃, h⟩ := runs_bind.mp h
  obtain ⟨_, w₄, h₄, h⟩ := runs_bind.mp h
  obtain ⟨_, w₅, h₅, h⟩ := runs_bind.mp h
  obtain ⟨rfl, rfl⟩ := runs_pure.mp h
  obtain ⟨_, rfl⟩ := runs_ofExcept.mp h₂
  obtain ⟨_, rfl⟩ := runs_ofExcept.mp h₃
  obtain ⟨_, rfl⟩ := runs_ofExcept.mp h₄
  obtain ⟨hv, type⟩ := runs_freshInput_mem h₁
  have preceded := asking_precede _ _ _ _ h₅
  exact ⟨(asking_freshInput _ _ _ _ h₁).trans preceded, Circuit.HasKey.mono ⟨.inl hv, type⟩ preceded.circuit⟩

end Keys

/-! ## Encryptions -/

section Encryptions

variable {c d : Circuit} {b : Backend} {key plain cipher randomness : CircuitVar} {isDecryption : Bool} {os : List Label}

theorem Circuit.Asks.encrypt (h : c.Asks os d) (hk : d.HasKey b key) :
    c.Grows os { d with body := d.body ++ [.encrypt plain randomness key cipher isDecryption] } := by
  refine ⟨h.function, h.verifier, h.callees, h.called, h.keys, h.inputs, h.outputs,
    ⟨[(key, false)], ?_, List.forall_mem_singleton.mpr hk.1, fun x => ?_⟩, h.known, h.keysOnce, fun hn => h.secretKeys ▸ hn⟩
  · rw [CircuitStmt.allKeyUses_append, CircuitStmt.allKeyUses_singleton, h.uses]
    rfl
  · show x ∈ d.secretKeys ↔ _
    rw [h.secretKeys]
    simp [Shares]

/-- A shared secret is agreed on with the owner of a key and the sender's secret key of the same backend. -/
theorem Circuit.Asks.encryptShared (h : Circuit.Asks os { c with secretKeys := includeOnce c.secretKeys b } d)
    (hk : d.HasKey b key) : c.Grows os { d with body := d.body ++ [.encryptShared plain key cipher isDecryption] } := by
  refine ⟨h.function, h.verifier, h.callees, h.called, h.keys, h.inputs, h.outputs,
    ⟨[(key, true)], ?_, List.forall_mem_singleton.mpr hk.1, fun x => ?_⟩, h.known, h.keysOnce, fun hn => ?_⟩
  · rw [CircuitStmt.allKeyUses_append, CircuitStmt.allKeyUses_singleton, h.uses]
    rfl
  · show x ∈ d.secretKeys ↔ _
    rw [h.secretKeys, mem_includeOnce]
    simp only [Shares, List.mem_singleton, Prod.mk.injEq, and_true, exists_eq_left, hk.2, Ty.publicKey.injEq]
    exact or_congr_right eq_comm
  · show d.secretKeys.Nodup
    rw [h.secretKeys]
    exact includeOnce_nodup hn

variable {owner : Label} {relation : Relation}

theorem silent_ensureEncryption : Silent (ensureEncryption plain owner b cipher relation) := by
  intro k w a w' h
  unfold ensureEncryption at h
  dsimp only at h
  split at h
  · obtain ⟨_, w₁, h₁, h⟩ := runs_bind.mp h
    obtain rfl := runs_modifyCircuit.mp h₁
    obtain ⟨mine, w₂, h₂, h⟩ := runs_bind.mp h
    obtain ⟨asks, hasMine⟩ := runs_publicKey h₂
    -- the other key is that of the ciphertext's sender or of the recipient
    suffices other : ∀ u o, w₂.Asks k.owners u → u.circuit.HasKey b o →
        Runs k (emit (.encryptShared plain o cipher (decide (relation = .decryption)))) u a w' →
        w.Grows k.owners w' ∧ w'.circuit.calls = w.circuit.calls by
      split at h
      · obtain ⟨o, w₃, h₃, h⟩ := runs_bind.mp h
        obtain ⟨asks, hasKey⟩ := runs_senderKey h₃
        exact other w₃ o asks hasKey h
      · split at h
        · obtain ⟨o, w₃, h₃, h⟩ := runs_bind.mp h
          obtain ⟨rfl, rfl⟩ := runs_pure.mp h₃
          obtain ⟨_, w₄, h₄, h⟩ := runs_bind.mp h
          obtain ⟨o, w₅, h₅, h⟩ := runs_bind.mp h
          obtain ⟨rfl, rfl⟩ := runs_pure.mp h₅
          have commented := asking_comment _ _ _ _ h₄
          exact other w₄ _ commented (hasMine.mono commented.circuit) h
        · obtain ⟨o, w₃, h₃, h⟩ := runs_bind.mp h
          obtain ⟨asks, hasKey⟩ := runs_publicKey h₃
          obtain ⟨_, w₄, h₄, h⟩ := runs_bind.mp h
          obtain ⟨o, w₅, h₅, h⟩ := runs_bind.mp h
          obtain ⟨rfl, rfl⟩ := runs_pure.mp h₅
          have commented := asking_comment _ _ _ _ h₄
          exact other w₄ _ (asks.trans commented) (hasKey.mono commented.circuit) h
    intro u o asks' hasKey h
    obtain rfl := runs_emit.mp h
    have all := asks.trans asks'
    exact ⟨⟨all.circuit.encryptShared hasKey, all.symbols, all.next⟩, all.circuit.calls⟩
  · obtain ⟨r, w₁, h₁, h⟩ := runs_bind.mp h
    obtain ⟨key, w₂, h₂, h⟩ := runs_bind.mp h
    obtain ⟨asks, hasKey⟩ := runs_publicKey h₂
    have asks := (asking_addSecret _ _ _ _ h₁).trans asks
    suffices last : ∀ u, w₂.Asks k.owners u →
        Runs k (emit (.encrypt plain r key cipher (decide (relation = .decryption)))) u a w' →
        w.Grows k.owners w' ∧ w'.circuit.calls = w.circuit.calls by
      split at h
      · obtain ⟨_, w₃, h₃, h⟩ := runs_bind.mp h
        exact last w₃ (asking_comment _ _ _ _ h₃) h
      · exact last w₂ (.refl _ _) h
    intro u asks' h
    obtain rfl := runs_emit.mp h
    have all := asks.trans asks'
    exact ⟨⟨all.circuit.encrypt (hasKey.mono asks'.circuit), all.symbols, all.next⟩, all.circuit.calls⟩

end Encryptions

end Shroud
