import Mathlib.Data.List.Nodup
import Mathlib.Logic.Function.Basic
import Shroud.Proofs.Run
import Shroud.Proofs.Traces

/-!
# Supplies of names

A circuit has four supplies of names. A fresh name starts with the base name of its supply and a running number, so
every name is told apart from all others by the number that it bears in one of the series.

**Randomness.** The randomness of an encryption is not numbered: its name is that of the ciphertext with a suffix. It
bears the number of the ciphertext then, and it is new because every ciphertext is encrypted once, right after it got
its name.
-/

namespace Shroud

/-- The supplies of names of a circuit. -/
abbrev Supplies := Series → NameSupply

namespace Supplies

/-- A variable is added to one of the supplies. -/
def add (S : Supplies) (r : Series) (name : String) (t : Ty) (source : Option Expr) : Supplies :=
  Function.update S r ((S r).add name t source).2

/-- Variables with fresh names are added, one after the other. -/
inductive Extends (S : Supplies) : Supplies → Prop
  | refl : Extends S S
  | fresh {R : Supplies} (h : Extends S R) (r : Series) (t : Ty) (source : Option Expr) (suffix : String) :
    Extends S (R.add r ((R r).name t ++ suffix) t source)

/-- The names of all variables are different. -/
structure Apart (S : Supplies) : Prop where
  base : ∀ r, (S r).base = r.base
  numbered : ∀ r, ∀ v ∈ (S r).vars, ∃ q k, v.Bears q k ∧ k < (S q).count
  once : ∀ r, ((S r).vars.map CircuitVar.name).Nodup
  disjoint : ∀ r q, ∀ v ∈ (S r).vars, ∀ u ∈ (S q).vars, v.name = u.name → r = q

/-- No other name bears the number of this one. -/
structure Only (S : Supplies) (q : Series) (k : Nat) (v : CircuitVar) : Prop where
  bears : v.Bears q k
  lower : k < (S q).count
  only : ∀ r, ∀ u ∈ (S r).vars, u.Bears q k → u.name = v.name

variable {S R : Supplies} {r q : Series} {name : String} {t : Ty} {source : Option Expr} {k : Nat} {v u : CircuitVar}

theorem Extends.trans {T : Supplies} (h : S.Extends R) (k : R.Extends T) : S.Extends T := by
  induction k with
  | refl => exact h
  | fresh _ r t source suffix ih => exact .fresh ih r t source suffix

/-! ## One more variable -/

theorem mem_add : u ∈ (S.add r name t source q).vars ↔ u ∈ (S q).vars ∨ q = r ∧ u = ((S r).add name t source).1 := by
  unfold add
  by_cases h : q = r
  · subst h
    rw [Function.update_self, NameSupply.add, List.mem_append, List.mem_singleton]
    simp
  · rw [Function.update_of_ne h]
    simp [h]

theorem base_add : (S.add r name t source q).base = (S q).base := by
  unfold add
  by_cases h : q = r
  · subst h
    rw [Function.update_self]
    rfl
  · rw [Function.update_of_ne h]

theorem count_add : (S q).count ≤ (S.add r name t source q).count := by
  unfold add
  by_cases h : q = r
  · subst h
    rw [Function.update_self]
    exact Nat.le_succ _
  · rw [Function.update_of_ne h]

theorem count_add_self : (S.add r name t source r).count = (S r).count + 1 := by
  rw [add, Function.update_self]
  rfl

/-- Names stay different if a new one is added that bears a number. -/
theorem Apart.add (h : S.Apart) (new : ∀ q, ∀ v ∈ (S q).vars, v.name ≠ name)
    (numbered : ∃ q k, ((S r).add name t source).1.Bears q k ∧ k < (S.add r name t source q).count) :
    (S.add r name t source).Apart := by
  refine ⟨fun q => base_add.trans (h.base q), fun q v hv => ?_, fun q => ?_, fun p q v hv u hu same => ?_⟩
  · rcases mem_add.mp hv with hv | ⟨-, rfl⟩
    · obtain ⟨p, k, bears, lower⟩ := h.numbered q v hv
      exact ⟨p, k, bears, Nat.lt_of_lt_of_le lower count_add⟩
    · exact numbered
  · by_cases hq : q = r
    · subst hq
      rw [Supplies.add, Function.update_self, NameSupply.add, List.map_append, List.map_singleton]
      refine List.nodup_append.mpr ⟨h.once q, List.nodup_singleton _, fun x hx y hy => ?_⟩
      obtain ⟨v, hv, rfl⟩ := List.mem_map.mp hx
      rw [List.mem_singleton.mp hy]
      exact new q v hv
    · rw [Supplies.add, Function.update_of_ne hq]
      exact h.once q
  · rcases mem_add.mp hv with hv | ⟨hp, rfl⟩ <;> rcases mem_add.mp hu with hu | ⟨hq, rfl⟩
    · exact h.disjoint p q v hv u hu same
    · exact (new p v hv same).elim
    · exact (new q u hu same.symm).elim
    · exact hp.trans hq.symm

/-- A fresh name bears a number that no name had before. -/
theorem Apart.fresh (h : S.Apart) (r : Series) (t : Ty) (source : Option Expr) (suffix : String) :
    (S.add r ((S r).name t ++ suffix) t source).Apart := by
  have bears := NameSupply.fresh_bears (h.base r) t source suffix
  refine h.add (fun q v hv same => ?_) ⟨r, (S r).count, bears, by rw [count_add_self]; exact Nat.lt_succ_self _⟩
  obtain ⟨p, k, hk, lower⟩ := h.numbered q v hv
  obtain ⟨rest, spelled⟩ := bears
  obtain ⟨rfl, rfl⟩ := hk.unique ⟨rest, same.trans spelled⟩
  exact Nat.lt_irrefl _ lower

theorem Apart.extends (h : S.Apart) (more : S.Extends R) : R.Apart := by
  induction more with
  | refl => exact h
  | fresh _ r t source suffix ih => exact ih.fresh r t source suffix

/-- A variable that just got a fresh name is the only one with its number. -/
theorem Apart.only_fresh (h : S.Apart) (r : Series) (t : Ty) (source : Option Expr) (suffix : String) :
    (S.add r ((S r).name t ++ suffix) t source).Only r (S r).count ((S r).fresh t source suffix).1 := by
  refine ⟨NameSupply.fresh_bears (h.base r) t source suffix, by rw [count_add_self]; exact Nat.lt_succ_self _,
    fun q u hu bears => ?_⟩
  rcases mem_add.mp hu with hu | ⟨-, rfl⟩
  · obtain ⟨p, k, hk, lower⟩ := h.numbered q u hu
    obtain ⟨rfl, rfl⟩ := hk.unique bears
    exact (Nat.lt_irrefl _ lower).elim
  · rfl

/-- It remains the only one while others get fresh names. -/
theorem Only.extends (h : S.Only q k v) (apart : S.Apart) (more : S.Extends R) : R.Only q k v := by
  induction more with
  | refl => exact h
  | @fresh R more r t source suffix ih =>
    refine ⟨ih.bears, Nat.lt_of_lt_of_le ih.lower count_add, fun p u hu bears => ?_⟩
    rcases mem_add.mp hu with hu | ⟨-, rfl⟩
    · exact ih.only p u hu bears
    · obtain ⟨rfl, rfl⟩ := (NameSupply.fresh_bears ((apart.extends more).base r) t source suffix).unique bears
      exact (Nat.lt_irrefl _ ih.lower).elim

/-- The randomness of a ciphertext takes the number that so far only the ciphertext bears. -/
theorem Apart.randomness (h : S.Apart) (only : S.Only q k v) (t : Ty) :
    (S.add .secret (v.name ++ "_R") t none).Apart := by
  obtain ⟨rest, spelled⟩ := only.bears
  have again : v.name ++ "_R" = q.base ++ toString k ++ "_" ++ (rest ++ "_R") := by
    rw [spelled, String.append_assoc]
  refine h.add (fun r u hu same => ?_) ⟨q, k, ⟨_, again⟩, Nat.lt_of_lt_of_le only.lower count_add⟩
  have shorter : v.name = v.name ++ "_R" := (only.only r u hu ⟨_, same.trans again⟩).symm.trans same
  have length := congrArg String.length shorter
  rw [String.length_append] at length
  have : "_R".length = 2 := rfl
  omega

end Supplies

/-! ## Activities -/

section Supply

variable (c : Circuit) (s : NameSupply)

theorem Circuit.supply_secrets : ({ c with secrets := s } : Circuit).supply = Function.update c.supply .secret s := by
  funext r
  cases r <;> rfl

theorem Circuit.supply_temporaries :
    ({ c with temporaries := s } : Circuit).supply = Function.update c.supply .temporary s := by
  funext r
  cases r <;> rfl

theorem Circuit.supply_inputs : ({ c with inputs := s } : Circuit).supply = Function.update c.supply .input s := by
  funext r
  cases r <;> rfl

theorem Circuit.supply_outputs : ({ c with outputs := s } : Circuit).supply = Function.update c.supply .output s := by
  funext r
  cases r <;> rfl

end Supply

namespace SplitM

section Naming

variable {α β : Type} {x : SplitM α} {f : α → SplitM β} {t : Ty} {source : Option Expr} {suffix : String}

/-- The activity adds variables under fresh names only. -/
def Naming (x : SplitM α) : Prop := ∀ k w a w', Runs k x w a w' → Supplies.Extends w.circuit.supply w'.circuit.supply

theorem Idle.naming (h : Idle x) : Naming x := by
  intro k w a w' hr
  rw [h k w a w' hr]
  exact .refl

theorem Naming.bind (hx : Naming x) (hf : ∀ a, Naming (f a)) : Naming (x >>= f) := by
  intro k w b w' h
  obtain ⟨a, v, h₁, h₂⟩ := runs_bind.mp h
  exact (hx k w a v h₁).trans (hf a k v b w' h₂)

theorem Naming.mapM {f : α → SplitM β} (h : ∀ a, Naming (f a)) (as : List α) : Naming (as.mapM f) := by
  induction as with
  | nil =>
    rw [List.mapM_nil]
    exact Idle.pure.naming
  | cons a as ih =>
    rw [List.mapM_cons]
    exact (h a).bind fun _ => ih.bind fun _ => Idle.pure.naming

/-- A part of the circuit changes that is no supply of names. -/
theorem naming_modifyCircuit {g : Circuit → Circuit} (h : ∀ c : Circuit, (g c).supply = c.supply) :
    Naming (modifyCircuit g) := by
  intro k w a w' hr
  obtain rfl := runs_modifyCircuit.mp hr
  show Supplies.Extends _ (g w.circuit).supply
  rw [h]
  exact .refl

theorem naming_emit {s : CircuitStmt} : Naming (emit s) := naming_modifyCircuit fun _ => rfl

theorem naming_comment {text : String} : Naming (comment text) := naming_emit

/-! ### Fresh names -/

/-- A supply hands out its next name. -/
def HandsOut (r : Series) (t : Ty) (source : Option Expr) (suffix : String) (x : SplitM CircuitVar) : Prop :=
  ∀ k w v w', Runs k x w v w' → v = ((w.circuit.supply r).fresh t source suffix).1 ∧
    w'.circuit.supply = Supplies.add w.circuit.supply r ((w.circuit.supply r).name t ++ suffix) t source

theorem HandsOut.naming {r : Series} {x : SplitM CircuitVar} (h : HandsOut r t source suffix x) : Naming x := by
  intro k w v w' hr
  rw [(h k w v w' hr).2]
  exact .fresh .refl r t source suffix

theorem freshSecret_handsOut : HandsOut .secret t none suffix (freshSecret t suffix) := by
  intro k w v w' h
  obtain ⟨rfl, rfl⟩ := (runs_handOut (fun c => c.secrets.fresh t none suffix) (fun s c => { c with secrets := s })).mp h
  exact ⟨rfl, Circuit.supply_secrets ..⟩

theorem freshTemporary_handsOut {e : Expr} : HandsOut .temporary t (some e) suffix (freshTemporary t e suffix) := by
  intro k w v w' h
  obtain ⟨rfl, rfl⟩ := (runs_handOut (fun c => c.temporaries.fresh t (some e) suffix)
    (fun s c => { c with temporaries := s })).mp h
  exact ⟨rfl, Circuit.supply_temporaries ..⟩

theorem freshInput_handsOut : HandsOut .input t source suffix (freshInput t source suffix) := by
  intro k w v w' h
  obtain ⟨rfl, rfl⟩ := (runs_handOut (fun c => c.inputs.fresh t source suffix) (fun s c => { c with inputs := s })).mp h
  exact ⟨rfl, Circuit.supply_inputs ..⟩

theorem freshOutput_handsOut {e : Expr} : HandsOut .output t (some e) suffix (freshOutput t e suffix) := by
  intro k w v w' h
  obtain ⟨rfl, rfl⟩ := (runs_handOut (fun c => c.outputs.fresh t (some e) suffix)
    (fun s c => { c with outputs := s })).mp h
  exact ⟨rfl, Circuit.supply_outputs ..⟩

/-! ### Keys -/

variable {k : SplitContext} {w w' : Workspace} {b : Backend} {owner : Label}

theorem requestKey_supply {name : String} {p : CircuitVar × Stmt} (h : Runs k (requestKey b owner name) w p w') :
    w'.circuit.supply = Supplies.add w.circuit.supply .input name (.publicKey b) none := by
  obtain ⟨v, w₁, h₁, h⟩ := runs_bind.mp h
  obtain ⟨_, _, h₂, h⟩ := runs_bind.mp h
  obtain ⟨_, _, h₃, h⟩ := runs_bind.mp h
  obtain ⟨_, rfl⟩ := runs_ofExcept.mp h₂
  obtain ⟨_, rfl⟩ := runs_ofExcept.mp h₃
  obtain ⟨-, rfl⟩ := runs_pure.mp h
  obtain ⟨-, rfl⟩ := (runs_handOut (fun c => c.inputs.add name (.publicKey b) none)
    (fun s c => { c with inputs := s })).mp h₁
  exact Circuit.supply_inputs ..

/-- A key that is looked up gets the next name of the inputs, with that of its owner behind it. -/
theorem naming_publicKey : Naming (publicKey owner b) := by
  refine idle_read.naming.bind fun k => ?_
  split
  · exact (naming_modifyCircuit fun _ => by rfl).bind fun _ => Idle.ofExcept.naming.bind fun _ => Idle.pure.naming
  · refine idle_draft?.naming.bind fun d => ?_
    split
    · exact Idle.throw.naming
    · intro k w v w' h
      obtain ⟨_, _, h₁, h⟩ := runs_bind.mp h
      obtain ⟨rfl, rfl⟩ := runs_circuit.mp h₁
      obtain ⟨p, w₁, h₂, h⟩ := runs_bind.mp h
      refine Supplies.Extends.trans ?_ ((idle_precede.bind fun _ => .pure).naming k w₁ v w' h)
      rw [requestKey_supply h₂, String.append_assoc]
      exact .fresh .refl .input (.publicKey b) none ("_" ++ owner.name)

theorem naming_senderKey {cipher : CircuitVar} : Naming (senderKey cipher b) :=
  freshInput_handsOut.naming.bind fun _ => (Idle.ofExcept.bind fun _ => Idle.ofExcept.bind fun _ =>
    Idle.ofExcept.bind fun _ => idle_precede.bind fun _ => .pure).naming

end Naming

/-! ### Encryptions -/

section Encryptions

variable {α : Type} {k : SplitContext} {w w₁ w₂ w' : Workspace} {plain cipher : CircuitVar} {owner : Label} {b : Backend}
  {relation : Relation} {a : Unit}

/-- What an encryption consists of behind the randomness. -/
theorem naming_encrypt {randomness : CircuitVar} {isDecryption : Bool} : Naming (do
    let key ← publicKey owner b
    if !isDecryption then comment (cipher.name ++ " = enc(" ++ plain.name ++ ", " ++ key.name ++ ")")
    emit (.encrypt plain randomness key cipher isDecryption)) := by
  refine naming_publicKey.bind fun key => ?_
  dsimp only
  split
  · exact naming_comment.bind fun _ => naming_emit
  · exact naming_emit

theorem naming_ensureEncryption (symmetric : b.symmetric = true) :
    Naming (ensureEncryption plain owner b cipher relation) := by
  unfold ensureEncryption
  dsimp only
  rw [if_pos symmetric]
  refine (naming_modifyCircuit fun _ => by rfl).bind fun _ => naming_publicKey.bind fun mine => ?_
  split
  · exact naming_senderKey.bind fun _ => naming_emit
  · split
    · exact Idle.pure.naming.bind fun _ => naming_comment.bind fun _ => Idle.pure.naming.bind fun _ => naming_emit
    · exact naming_publicKey.bind fun _ => naming_comment.bind fun _ => Idle.pure.naming.bind fun _ => naming_emit

/-- An encryption by an asymmetric backend needs randomness, whose name is told from that of the ciphertext or, for an
argument, from that of the value. -/
theorem runs_ensureEncryption (asymmetric : b.symmetric = false)
    (h : Runs k (ensureEncryption plain owner b cipher relation) w a w') :
    Supplies.Extends (Supplies.add w.circuit.supply .secret
      ((if relation = .argument then plain.name else cipher.name) ++ "_R") (.randomness b) none) w'.circuit.supply := by
  unfold ensureEncryption at h
  dsimp only at h
  rw [if_neg (by rw [asymmetric]; exact Bool.false_ne_true)] at h
  obtain ⟨v, w₁, h₁, h⟩ := runs_bind.mp h
  have rest := naming_encrypt k w₁ a w' h
  obtain ⟨rfl, rfl⟩ := (runs_handOut (fun c => c.secrets.add _ (.randomness b) none)
    (fun s c => { c with secrets := s })).mp h₁
  rwa [Circuit.supply_secrets] at rest

/-- A ciphertext that bears a number of its own is encrypted. -/
theorem apart_encrypted {q : Series} {n : Nat} (inside : relation ≠ .argument)
    (h : Runs k (ensureEncryption plain owner b cipher relation) w a w') (apart : Supplies.Apart w.circuit.supply)
    (only : Supplies.Only w.circuit.supply q n cipher) : Supplies.Apart w'.circuit.supply := by
  cases hb : b.symmetric with
  | true => exact apart.extends (naming_ensureEncryption hb k w a w' h)
  | false =>
    have more := runs_ensureEncryption hb h
    rw [if_neg inside] at more
    exact (apart.randomness only _).extends more

/-- A ciphertext is encrypted after it got a fresh name. -/
theorem HandsOut.apart_encrypted {r : Series} {t : Ty} {source : Option Expr} {suffix : String} {x : SplitM CircuitVar}
    (hx : HandsOut r t source suffix x) (inside : relation ≠ .argument) (h₁ : Runs k x w cipher w₁)
    (between : Supplies.Extends w₁.circuit.supply w₂.circuit.supply)
    (h₂ : Runs k (ensureEncryption plain owner b cipher relation) w₂ a w') (apart : Supplies.Apart w.circuit.supply) :
    Supplies.Apart w'.circuit.supply := by
  obtain ⟨rfl, hs⟩ := hx k w cipher w₁ h₁
  have apart₁ := hs ▸ apart.fresh r t source suffix
  have only := hs ▸ apart.only_fresh r t source suffix
  exact SplitM.apart_encrypted inside h₂ (apart₁.extends between) (only.extends apart₁ between)

end Encryptions

end SplitM

end Shroud
