import Shroud.Proofs.Stages

/-!
# External parts

The circuit of an external part starts with the keys of the internal part. It gets a ciphertext for every private
argument, then all listed keys as public inputs and the sender's secret keys as secret inputs, and last the call of the
internal part.

**Secret keys.** The public code of an external part asks for each of the secret keys once.
-/

namespace Shroud

open SplitM

/-! ## Requests for secret keys -/

mutual

/-- The backends whose secret keys a statement asks for. -/
def Stmt.enteredKeys : Stmt → List Backend
  | .enterKey _ b => [b]
  | .ifThen _ _ t none => t.enteredKeys
  | .ifThen _ _ t (some e) => t.enteredKeys ++ e.enteredKeys
  | .whileLoop _ _ b | .doWhile _ b _ => b.enteredKeys
  | .forLoop _ s _ u b => Stmt.enteredKeys? s ++ Stmt.enteredKeys? u ++ b.enteredKeys
  | .block b => b.enteredKeys
  | .seq _ ss _ => Stmt.allEnteredKeys ss
  | _ => []

def Stmt.enteredKeys? : Option Stmt → List Backend
  | none => []
  | some s => s.enteredKeys

def Block.enteredKeys : Block → List Backend
  | ⟨_, ss, _⟩ => Stmt.allEnteredKeys ss

def Stmt.allEnteredKeys : List Stmt → List Backend
  | [] => []
  | s :: ss => s.enteredKeys ++ Stmt.allEnteredKeys ss

end

theorem Stmt.allEnteredKeys_eq (ss : List Stmt) : Stmt.allEnteredKeys ss = ss.flatMap Stmt.enteredKeys := by
  induction ss with
  | nil => rfl
  | cons s ss ih => rw [Stmt.allEnteredKeys, List.flatMap_cons, ih]

@[simp]
theorem Stmt.allEnteredKeys_append (ss ts : List Stmt) :
    Stmt.allEnteredKeys (ss ++ ts) = Stmt.allEnteredKeys ss ++ Stmt.allEnteredKeys ts := by
  simp only [Stmt.allEnteredKeys_eq, List.flatMap_append]

theorem Stmt.allEnteredKeys_nil {ss : List Stmt} (h : ∀ s ∈ ss, s.enteredKeys = []) : Stmt.allEnteredKeys ss = [] := by
  rw [Stmt.allEnteredKeys_eq]
  exact List.flatMap_eq_nil_iff.mpr h

@[simp]
theorem Stmt.allEnteredKeys_framed (text : String) (ss : List Stmt) :
    Stmt.allEnteredKeys (Stmt.framed text ss) = Stmt.allEnteredKeys ss := by
  unfold Stmt.framed
  split
  · rename_i h
    rw [List.isEmpty_iff.mp h]
  · simp only [Stmt.allEnteredKeys_append]
    exact List.append_nil _

@[simp]
theorem Stmt.allEnteredKeys_declareResults (vs : List LocalVar) : Stmt.allEnteredKeys (declareResults vs) = [] := by
  refine allEnteredKeys_nil fun s hs => ?_
  unfold declareResults Stmt.headed at hs
  split at hs
  · cases hs
  · simp only [List.mem_append, List.mem_map, List.mem_singleton] at hs
    rcases hs with (rfl | ⟨v, _, rfl⟩) | rfl <;> rfl

@[simp]
theorem Stmt.allEnteredKeys_map (bs : List Backend) : Stmt.allEnteredKeys (bs.map (.enterKey default)) = bs := by
  induction bs with
  | nil => rfl
  | cons b bs ih => exact congrArg (b :: ·) ih

/-! ## What an external part adds to its circuit -/

section Wrapper

variable {k : SplitContext} {w w' : Workspace}

/-- The variable holds the sender's secret key of the backend. -/
def IsSecretKey (b : Backend) (v : CircuitVar) : Prop := v.name = b.secretKeyName ∧ v.type = .publicKey b

theorem silent_backUpArguments (ps : List Param) : ∀ offset : Int, Silent (backUpArguments offset ps) := by
  have check (p : Param) (name : String) : Silent (checkArgument p name) := by
    unfold checkArgument
    split
    · exact asking_addSecret.silent.bind fun _ => asking_freshInput.silent.bind fun _ =>
        silent_ensureEncryption.bind fun _ => Asking.pure.silent
    · exact Asking.throw.silent
  induction ps with
  | nil => exact fun _ => Asking.pure.silent
  | cons p ps ih =>
    intro offset
    unfold backUpArguments
    split
    · split
      · exact (check p _).bind fun _ => (Asking.mapM (fun _ => Asking.ofExcept.bind fun _ => .pure) _).silent.bind
          fun _ => (ih _).bind fun _ => Asking.pure.silent
      · exact ih _
    · exact ih _

theorem asking_requestKeys (keys : List (Label × Backend)) : ∀ (offset : Int) (declared : List Backend),
    Asking (requestKeys offset declared keys) := by
  induction keys with
  | nil => exact fun _ _ => .pure
  | cons p keys ih =>
    intro offset declared
    obtain ⟨owner, b⟩ := p
    unfold requestKeys
    refine Asking.bind ?_ fun _ => Asking.ofExcept.bind fun _ => asking_requestKey.bind fun _ =>
      (Asking.mapM (fun _ => Asking.ofExcept.bind fun _ => .pure) _).bind fun _ => (ih _ _).bind fun _ => .pure
    split
    · exact .pure
    · exact asking_fresh.bind fun _ => .pure

theorem asking_requestSecretKeys : Asking requestSecretKeys :=
  asking_circuit.bind fun _ => .mapM (fun _ => asking_addSecret.bind fun _ => .pure) _

/-- An activity with a draft of its own runs inside of it. -/
theorem runs_working {α : Type} {c : LinkContext} {s : Option Stmt} {x : SplitM α} {p : α × List Stmt}
    (h : Runs k (working c s x) w p w') : ∃ v v', Runs k x v p.1 v' ∧
      v.circuit = w.circuit ∧ v.symbols = w.symbols ∧ v.next = w.next ∧
      w'.circuit = v'.circuit ∧ w'.symbols = v'.symbols ∧ w'.next = v'.next := by
  obtain ⟨_, v, h₁, h⟩ := runs_bind.mp h
  obtain rfl := runs_modify.mp h₁
  obtain ⟨a, v', hx, h⟩ := runs_bind.mp h
  obtain ⟨d, _, h₁, h⟩ := runs_bind.mp h
  obtain ⟨rfl, rfl⟩ := runs_gets.mp h₁
  split at h
  · exact (runs_throw h).elim
  · obtain ⟨_, _, h₁, h⟩ := runs_bind.mp h
    obtain rfl := runs_modify.mp h₁
    obtain ⟨rfl, rfl⟩ := runs_pure.mp h
    exact ⟨_, v', hx, rfl, rfl, rfl, rfl, rfl, rfl⟩

/-- Statements that copy words. -/
theorem runs_copies {f : Nat → Except Error Expr} {place : Nat → Expr} {ns : List Nat} {ss : List Stmt}
    (h : Runs k (ns.mapM fun n => do return Stmt.set (place n) (← ofExcept (f n))) w ss w') :
    w' = w ∧ Stmt.allEnteredKeys ss = [] := by
  induction ns generalizing w ss with
  | nil =>
    rw [List.mapM_nil] at h
    obtain ⟨rfl, rfl⟩ := runs_pure.mp h
    exact ⟨rfl, rfl⟩
  | cons n ns ih =>
    rw [List.mapM_cons] at h
    obtain ⟨s, w₁, h₁, h⟩ := runs_bind.mp h
    obtain ⟨ts, w₂, h₂, h⟩ := runs_bind.mp h
    obtain ⟨rfl, rfl⟩ := runs_pure.mp h
    obtain ⟨_, _, h₃, h₁⟩ := runs_bind.mp h₁
    obtain ⟨_, rfl⟩ := runs_ofExcept.mp h₃
    obtain ⟨rfl, rfl⟩ := runs_pure.mp h₁
    obtain ⟨rfl, entered⟩ := ih h₂
    exact ⟨rfl, entered⟩

/-- Every listed key becomes a public input. -/
theorem runs_requestKeys {keys : List (Label × Backend)} {offset : Int} {declared : List Backend}
    {r : List Stmt × Int} (h : Runs k (requestKeys offset declared keys) w r w') :
    (∃ vs, w'.circuit.inputs.vars = w.circuit.inputs.vars ++ vs ∧ List.Forall₂ IsStaticKey keys vs) ∧
      w'.circuit.keys = w.circuit.keys ∧ (∀ q, q ≠ .input → w'.circuit.supply q = w.circuit.supply q) ∧
      Stmt.allEnteredKeys r.1 = [] := by
  induction keys generalizing offset declared w r with
  | nil =>
    obtain ⟨rfl, rfl⟩ := runs_pure.mp h
    exact ⟨⟨[], (List.append_nil _).symm, .nil⟩, rfl, fun _ _ => rfl, rfl⟩
  | cons p keys ih =>
    obtain ⟨owner, b⟩ := p
    unfold requestKeys at h
    obtain ⟨first, w₁, h₁, h⟩ := runs_bind.mp h
    obtain ⟨name, _, h₂, h⟩ := runs_bind.mp h
    obtain ⟨hname, rfl⟩ := runs_ofExcept.mp h₂
    obtain ⟨⟨v, lookUp⟩, w₂, h₃, h⟩ := runs_bind.mp h
    obtain ⟨copies, w₃, h₄, h⟩ := runs_bind.mp h
    obtain ⟨⟨rest, last⟩, w₄, h₅, h⟩ := runs_bind.mp h
    obtain ⟨rfl, rfl⟩ := runs_pure.mp h
    have declared : w₁.circuit = w.circuit ∧ Stmt.allEnteredKeys first = [] := by
      split at h₁
      · obtain ⟨rfl, rfl⟩ := runs_pure.mp h₁
        exact ⟨rfl, rfl⟩
      · obtain ⟨_, u, h₆, h₁⟩ := runs_bind.mp h₁
        obtain ⟨rfl, rfl⟩ := runs_pure.mp h₁
        exact ⟨idle_fresh _ _ _ _ h₆, rfl⟩
    obtain ⟨vname, type, inputs, ks, _, _, _, set⟩ := runs_requestKey h₃
    have others (q : Series) (hq : q ≠ .input) : w₂.circuit.supply q = w.circuit.supply q := by
      rw [requestKey_supply h₃, declared.1, Supplies.add, Function.update_of_ne hq]
    obtain ⟨rfl, copied⟩ := runs_copies h₄
    obtain ⟨⟨vs, inputs', all⟩, ks', others', entered⟩ := ih h₅
    rw [declared.1] at inputs ks
    refine ⟨⟨v :: vs, ?_, .cons ⟨hname.trans (congrArg _ vname.symm), type⟩ all⟩, ks'.trans ks,
      fun q hq => (others' q hq).trans (others q hq), ?_⟩
    · rw [inputs', inputs, List.append_assoc]
      rfl
    · obtain rfl : lookUp = _ := set
      simp only [Stmt.allEnteredKeys_append, declared.2, copied, entered, List.append_nil]
      rfl

/-- Every run of the activity leaves the names in the circuit alone. -/
def KeepsNames {α : Type} (k : SplitContext) (x : SplitM α) : Prop :=
  ∀ w a w', Runs k x w a w' → w'.circuit.supply = w.circuit.supply

section KeepsNames

variable {α β : Type} {x : SplitM α} {f : α → SplitM β}

theorem SplitM.Idle.keepsNames (hx : Idle x) : KeepsNames k x :=
  fun w a w' h => congrArg Circuit.supply (hx k w a w' h)

theorem KeepsNames.bind (hx : KeepsNames k x) (hf : ∀ a, KeepsNames k (f a)) : KeepsNames k (x >>= f) := by
  intro w b w' h
  obtain ⟨a, v, h₁, h₂⟩ := runs_bind.mp h
  exact (hf a v b w' h₂).trans (hx w a v h₁)

theorem keepsNames_modifyCircuit {g : Circuit → Circuit} (h : ∀ c : Circuit, (g c).supply = c.supply) :
    KeepsNames k (modifyCircuit g) := by
  intro w a w' hr
  obtain rfl := runs_modifyCircuit.mp hr
  exact h w.circuit

theorem keepsNames_emit {s : CircuitStmt} : KeepsNames k (emit s) := keepsNames_modifyCircuit fun _ => rfl

/-- The key of an owner that is known in advance is not looked up. -/
theorem keepsNames_publicKey {owner : Label} {b : Backend} (known : k.owners.contains owner = true) :
    KeepsNames k (publicKey owner b) := by
  intro w v w' h
  obtain ⟨_, _, h₁, h⟩ := runs_bind.mp h
  obtain ⟨rfl, rfl⟩ := runs_read.mp h₁
  rw [if_pos known] at h
  refine KeepsNames.bind (keepsNames_modifyCircuit fun _ => ?_) (fun _ => ?_) w v w' h
  · rfl
  · exact Idle.keepsNames (Idle.ofExcept.bind fun _ => .pure)

end KeepsNames

/-- The encryption of an argument needs randomness at most. -/
theorem runs_ensureArgument (me : k.owners.contains .me = true) {plain cipher : CircuitVar} {b : Backend} {a : Unit}
    (h : Runs k (ensureEncryption plain .me b cipher .argument) w a w') :
    w'.circuit.supply = if b.symmetric then w.circuit.supply
      else Supplies.add w.circuit.supply .secret (plain.name ++ "_R") (.randomness b) none := by
  unfold ensureEncryption at h
  dsimp only at h
  split at h
  · rename_i symmetric
    rw [if_pos symmetric]
    refine KeepsNames.bind (keepsNames_modifyCircuit fun _ => ?_) (fun _ => ?_) w a w' h
    · rfl
    · refine (keepsNames_publicKey me).bind fun mine => ?_
      simp only [reduceCtorEq, decide_false, if_false, if_true]
      exact Idle.pure.keepsNames.bind fun _ => keepsNames_emit.bind fun _ => Idle.pure.keepsNames.bind fun _ =>
        keepsNames_emit
  · rename_i asymmetric
    rw [if_neg asymmetric]
    obtain ⟨randomness, w₁, h₁, h⟩ := runs_bind.mp h
    obtain ⟨-, rfl⟩ := (runs_handOut (fun c => c.secrets.add _ (.randomness b) none)
      (fun s c => { c with secrets := s })).mp h₁
    simp only [reduceCtorEq, decide_false, Bool.not_false, if_true] at h
    refine (KeepsNames.bind (keepsNames_publicKey me) (fun _ => ?_) _ a w' h).trans (Circuit.supply_secrets ..)
    exact keepsNames_emit.bind fun _ => keepsNames_emit

/-- The names of the secret inputs that belong to an argument. -/
def Param.secretNames (p : Param) : List String :=
  match p.source, p.name, p.type.type with
  | some source, some name, .cipher _ b =>
    if !source.isPrivate then [] else if b.symmetric then [name] else [name, name ++ "_R"]
  | _, _, _ => []

/-- The names of the secret inputs that belong to the arguments of a function. -/
def FunctionDef.secretNames (f : FunctionDef) : List String := f.params.flatMap Param.secretNames

/-- Ciphertexts of arguments are added to the inputs of the circuit, and these names to its secret inputs. -/
structure Circuit.TakesArguments (c d : Circuit) (names : List String) : Prop where
  secrets : ∃ vs, d.secrets.vars = c.secrets.vars ++ vs ∧ vs.map CircuitVar.name = names
  inputs : c.inputs.Extends d.inputs
  temporaries : d.temporaries = c.temporaries
  outputs : d.outputs = c.outputs

theorem Circuit.TakesArguments.refl (c : Circuit) : c.TakesArguments c [] :=
  ⟨⟨[], (List.append_nil _).symm, rfl⟩, .refl, rfl, rfl⟩

theorem Circuit.TakesArguments.trans {c d e : Circuit} {ns ms : List String} (h : c.TakesArguments d ns)
    (k : d.TakesArguments e ms) : c.TakesArguments e (ns ++ ms) := by
  obtain ⟨vs, hvs, ns⟩ := h.secrets
  obtain ⟨us, hus, ms⟩ := k.secrets
  refine ⟨⟨vs ++ us, ?_, ?_⟩, h.inputs.trans k.inputs, k.temporaries.trans h.temporaries, k.outputs.trans h.outputs⟩
  · rw [hus, hvs, List.append_assoc]
  · rw [List.map_append, ns, ms]

theorem runs_checkArgument (me : k.owners.contains .me = true) {p : Param} {source : AnnTy} {name : String}
    {v : CircuitVar} (hs : p.source = some source) (hn : p.name = some name) (hp : source.isPrivate = true)
    (h : Runs k (checkArgument p name) w v w') : w.circuit.TakesArguments w'.circuit p.secretNames := by
  unfold checkArgument at h
  split at h
  · rename_i t b ht
    obtain ⟨plain, w₁, h₁, h⟩ := runs_bind.mp h
    obtain ⟨c, w₂, h₂, h⟩ := runs_bind.mp h
    obtain ⟨_, w₃, h₃, h⟩ := runs_bind.mp h
    obtain ⟨rfl, rfl⟩ := runs_pure.mp h
    have supply := runs_ensureArgument me h₃
    obtain ⟨rfl, rfl⟩ := (runs_handOut (fun c => c.secrets.add name p.type.sourceType.type none)
      (fun s c => { c with secrets := s })).mp h₁
    obtain ⟨rfl, rfl⟩ := (runs_handOut (fun c => c.inputs.fresh p.type.type none ("_" ++ name))
      (fun s c => { c with inputs := s })).mp h₂
    have inputs : w₃.circuit.inputs = (w.circuit.inputs.fresh p.type.type none ("_" ++ name)).2 := by
      refine (congrFun supply .input).trans ?_
      split <;> rfl
    have names : p.secretNames = if b.symmetric then [name] else [name, name ++ "_R"] := by
      simp [Param.secretNames, hs, hn, hp, ht]
    refine ⟨?_, inputs ▸ .fresh .refl _ _ _, ?_, ?_⟩
    · rw [names]
      split at supply
      · rename_i symmetric
        rw [if_pos symmetric]
        exact ⟨_, congrArg NameSupply.vars (congrFun supply .secret), rfl⟩
      · rename_i asymmetric
        rw [if_neg asymmetric]
        exact ⟨[_, _], (congrArg NameSupply.vars (congrFun supply .secret)).trans (List.append_assoc ..), rfl⟩
    · refine (congrFun supply .temporary).trans ?_
      split <;> rfl
    · refine (congrFun supply .output).trans ?_
      split <;> rfl
  · exact (runs_throw h).elim

/-- A ciphertext for every private argument becomes a public input. -/
theorem runs_backUpArguments (me : k.owners.contains .me = true) {ps : List Param} {offset : Int} {r : List Stmt × Int}
    (h : Runs k (backUpArguments offset ps) w r w') :
    w.circuit.TakesArguments w'.circuit (ps.flatMap Param.secretNames) ∧ Stmt.allEnteredKeys r.1 = [] := by
  induction ps generalizing offset w r with
  | nil =>
    obtain ⟨rfl, rfl⟩ := runs_pure.mp h
    exact ⟨.refl _, rfl⟩
  | cons p ps ih =>
    unfold backUpArguments at h
    rw [List.flatMap_cons]
    split at h
    · rename_i source name hs hn
      split at h
      · rename_i hp
        obtain ⟨c, w₁, h₁, h⟩ := runs_bind.mp h
        obtain ⟨copies, w₂, h₂, h⟩ := runs_bind.mp h
        obtain ⟨⟨rest, last⟩, w₃, h₃, h⟩ := runs_bind.mp h
        obtain ⟨rfl, rfl⟩ := runs_pure.mp h
        obtain ⟨rfl, copied⟩ := runs_copies h₂
        obtain ⟨takes, entered⟩ := ih h₃
        refine ⟨(runs_checkArgument me hs hn hp h₁).trans takes, ?_⟩
        rw [Stmt.allEnteredKeys_append, copied, entered]
        rfl
      · rename_i hp
        have none : p.secretNames = [] := by
          unfold Param.secretNames
          split
          · rename_i hs' _ _
            obtain rfl := Option.some.inj (hs.symm.trans hs')
            exact if_pos (by simpa using hp)
          · rfl
        rw [none, List.nil_append]
        exact ih h
    · rename_i missing
      have none : p.secretNames = [] := by
        unfold Param.secretNames
        split
        · rename_i source name _ _ hs hn _
          exact (missing source name hs hn).elim
        · rfl
      rw [none, List.nil_append]
      exact ih h

/-- Every secret key becomes a secret input, and the public code asks for it. -/
theorem runs_requestSecretKeys {r : List Stmt} (h : Runs k requestSecretKeys w r w') :
    (∃ vs, w'.circuit.secrets.vars = w.circuit.secrets.vars ++ vs ∧
      List.Forall₂ IsSecretKey w.circuit.secretKeys vs) ∧
      (∀ q, q ≠ .secret → w'.circuit.supply q = w.circuit.supply q) ∧ w'.circuit.keys = w.circuit.keys ∧
      r = w.circuit.secretKeys.map (Stmt.enterKey default) := by
  have all (bs : List Backend) {w : Workspace} {r : List Stmt} (h : Runs k (bs.mapM fun b => do
      let _ ← addSecret b.secretKeyName (.publicKey b)
      return Stmt.enterKey default b) w r w') :
      (∃ vs, w'.circuit.secrets.vars = w.circuit.secrets.vars ++ vs ∧ List.Forall₂ IsSecretKey bs vs) ∧
        (∀ q, q ≠ .secret → w'.circuit.supply q = w.circuit.supply q) ∧ w'.circuit.keys = w.circuit.keys ∧
        r = bs.map (Stmt.enterKey default) := by
    induction bs generalizing w r with
    | nil =>
      rw [List.mapM_nil] at h
      obtain ⟨rfl, rfl⟩ := runs_pure.mp h
      exact ⟨⟨[], (List.append_nil _).symm, .nil⟩, fun _ _ => rfl, rfl, rfl⟩
    | cons b bs ih =>
      rw [List.mapM_cons] at h
      obtain ⟨s, w₁, h₁, h⟩ := runs_bind.mp h
      obtain ⟨ss, w₂, h₂, h⟩ := runs_bind.mp h
      obtain ⟨rfl, rfl⟩ := runs_pure.mp h
      obtain ⟨v, w₃, h₃, h₁⟩ := runs_bind.mp h₁
      obtain ⟨rfl, rfl⟩ := runs_pure.mp h₁
      obtain ⟨rfl, rfl⟩ := (runs_handOut (fun c => c.secrets.add b.secretKeyName (.publicKey b) none)
        (fun s c => { c with secrets := s })).mp h₃
      obtain ⟨⟨vs, secrets, isKey⟩, others, keys, rfl⟩ := ih h₂
      refine ⟨⟨(w.circuit.secrets.add b.secretKeyName (.publicKey b) none).1 :: vs, ?_, .cons ?_ isKey⟩,
        fun q hq => (others q hq).trans ?_, keys, rfl⟩
      · rw [secrets]
        exact List.append_assoc ..
      · exact ⟨rfl, rfl⟩
      · rw [Circuit.supply_secrets, Function.update_of_ne hq]
  obtain ⟨_, _, h₁, h⟩ := runs_bind.mp h
  obtain ⟨rfl, rfl⟩ := runs_circuit.mp h₁
  exact all _ h

/-- The external part checks these arguments and asks for all listed keys and all secret keys, each of them once. -/
structure Circuit.Requests (c d : Circuit) (arguments : List String) (body : Block) : Prop where
  inputs : ∃ s keys, c.inputs.Extends s ∧ d.inputs.vars = s.vars ++ keys ∧ List.Forall₂ IsStaticKey d.keys keys
  secrets : ∃ args keys, d.secrets.vars = c.secrets.vars ++ (args ++ keys) ∧ args.map CircuitVar.name = arguments ∧
    List.Forall₂ IsSecretKey d.secretKeys keys
  temporaries : d.temporaries = c.temporaries
  outputs : d.outputs = c.outputs
  entered : body.enteredKeys = d.secretKeys

/-- Last comes the call of the internal part, if it needs a proof. -/
def Circuit.calling (c : Circuit) (needsProof : Bool) (callee : Nat) : Circuit :=
  if needsProof then { c with calls := c.calls ++ [⟨0, callee, c.secrets.size⟩], body := c.body ++ [.call callee] }
  else c

theorem runs_wrapperBody (me : k.owners.contains .me = true) {f : FunctionDef} {params : List Param}
    {results : List LocalVar} {body : Block} (h : Runs k (wrapperBody f params results) w body w') :
    ∃ d, w.circuit.Grows k.owners d ∧ d.calls = w.circuit.calls ∧ d.verifier ≠ none ∧ 
      w.circuit.Requests d (params.flatMap Param.secretNames) body ∧ w'.circuit = d.calling f.facts.needsProof f.id ∧
      w.next ≤ w'.next ∧ body.Allocates d.sizes ∧ (f.facts.needsProof = true → body.HandsOn f.id d.ownSizes) := by
  unfold wrapperBody at h
  obtain ⟨_, _, h₁, h⟩ := runs_bind.mp h
  obtain ⟨rfl, rfl⟩ := runs_circuit.mp h₁
  obtain ⟨⟨⟨args, keys⟩, before⟩, w₁, h₁, h⟩ := runs_bind.mp h
  obtain ⟨secretKeys, w₂, h₂, h⟩ := runs_bind.mp h
  obtain ⟨_, _, h₃, h⟩ := runs_bind.mp h
  obtain ⟨rfl, rfl⟩ := runs_circuit.mp h₃
  obtain ⟨_, _, h₃, h⟩ := runs_bind.mp h
  obtain ⟨rfl, rfl⟩ := runs_circuit.mp h₃
  obtain ⟨_, _, h₃, h⟩ := runs_bind.mp h
  obtain ⟨rfl, rfl⟩ := runs_circuit.mp h₃
  -- the arguments and the keys
  obtain ⟨v, v', hv, start, symbols, next, circuit, symbols', next'⟩ := runs_working h₁
  obtain ⟨⟨backedUp, offset⟩, u₁, hargs, hv⟩ := runs_bind.mp hv
  obtain ⟨_, _, h₃, hv⟩ := runs_bind.mp hv
  obtain ⟨rfl, rfl⟩ := runs_circuit.mp h₃
  obtain ⟨⟨requested, last⟩, u₂, hkeys, hv⟩ := runs_bind.mp hv
  obtain ⟨_, _, h₃, hv⟩ := runs_bind.mp hv
  obtain ⟨rfl, rfl⟩ := runs_circuit.mp h₃
  obtain ⟨grows, calls⟩ := silent_backUpArguments params 0 _ _ _ _ hargs
  have asks := asking_requestKeys _ _ _ _ _ _ _ hkeys
  have asks' := asking_requestSecretKeys _ _ _ _ h₂
  obtain ⟨takes, entered⟩ := runs_backUpArguments me hargs
  obtain ⟨⟨vs, inputs, isKey⟩, sameKeys, others, entered'⟩ := runs_requestKeys hkeys
  obtain ⟨rfl, rfl, rfl⟩ : v' = u₂ ∧ backedUp = args ∧ requested = keys := by
    dsimp only at hv
    split at hv
    · obtain ⟨_, _, h₃, _⟩ := runs_bind.mp hv
      exact (runs_throw h₃).elim
    · obtain ⟨h₃, rfl⟩ := runs_pure.mp hv
      cases h₃
      exact ⟨rfl, rfl, rfl⟩
  obtain ⟨⟨ws, secrets, isSecretKey⟩, others', keys', rfl⟩ := runs_requestSecretKeys h₂
  have d : w.circuit.Grows k.owners w₂.circuit := by
    rw [← start]
    exact grows.circuit.trans (asks.circuit.grows.trans (circuit ▸ asks'.circuit.grows))
  have more : w.next ≤ w₂.next := by
    rw [← next]
    exact grows.next.trans (asks.next.trans (next' ▸ asks'.next))
  have made (hb : body.enteredKeys = w₁.circuit.secretKeys) :
      w.circuit.Requests w₂.circuit (params.flatMap Param.secretNames) body := by
    rw [circuit] at others' secrets
    obtain ⟨us, arguments, names⟩ := takes.secrets
    refine ⟨⟨u₁.circuit.inputs, vs, start ▸ takes.inputs, ?_, ?_⟩, ⟨us, ws, ?_, names, ?_⟩, ?_, ?_, ?_⟩
    · rw [show w₂.circuit.inputs = v'.circuit.inputs from others' .input nofun, inputs]
    · rw [keys', circuit, sameKeys]
      exact isKey
    · rw [secrets, show v'.circuit.secrets = u₁.circuit.secrets from others .secret nofun, arguments, start,
        List.append_assoc]
    · exact asks'.circuit.secretKeys ▸ isSecretKey
    · exact (others' .temporary nofun).trans ((others .temporary nofun).trans (start ▸ takes.temporaries))
    · exact (others' .output nofun).trans ((others .output nofun).trans (start ▸ takes.outputs))
    · rw [hb, asks'.circuit.secretKeys]
  refine ⟨w₂.circuit, d, ?_, ?_⟩
  · rw [asks'.circuit.calls, circuit, asks.circuit.calls, calls, start]
  have outputs : w.circuit.sizes.output = w₂.circuit.sizes.output := by
    have own : w₂.circuit.outputs = w.circuit.outputs :=
      (others' .output nofun).trans (circuit ▸ (others .output nofun).trans (start ▸ takes.outputs))
    unfold Circuit.sizes Circuit.ownSizes
    rw [own, d.called]
    rfl
  rw [outputs] at h
  dsimp only at h entered entered'
  unfold Circuit.calling
  split at h
  · rename_i needs
    obtain ⟨_, u, h₃, h⟩ := runs_bind.mp h
    obtain rfl := runs_modifyCircuit.mp h₃
    obtain ⟨_, u, h₃, h⟩ := runs_bind.mp h
    obtain rfl := runs_emit.mp h₃
    split at h
    · exact (runs_throw h).elim
    · rename_i verifier
      obtain ⟨_, u, h₃, h⟩ := runs_bind.mp h
      obtain ⟨rfl, rfl⟩ := runs_pure.mp h
      rw [if_pos needs]
      refine ⟨by simp [verifier], made ?_, idle_fresh _ _ _ _ h₃, more.trans (asking_fresh _ _ _ _ h₃).next,
        ⟨_, _, rfl⟩, fun _ => ⟨f.title, params.map fun p => .name (p.name.getD ""), w₂.circuit.secrets.size,
          LocalVar.reads results, ?_⟩⟩
      · simp [Block.ofStmts, Block.enteredKeys, entered, entered', apply_ite Stmt.allEnteredKeys, Stmt.allEnteredKeys,
          Stmt.enteredKeys, Stmt.set]
      · cases f.returns.isEmpty with
        | true => exact .inl (by simp [Block.ofStmts, needs, Circuit.ownSizes, FunctionDef.ref])
        | false => exact .inr (by simp [Block.ofStmts, needs, Circuit.ownSizes, FunctionDef.ref])
  · rename_i needs
    split at h
    · exact (runs_throw h).elim
    · rename_i verifier
      obtain ⟨_, u, h₃, h⟩ := runs_bind.mp h
      obtain ⟨rfl, rfl⟩ := runs_pure.mp h
      rw [if_neg needs]
      refine ⟨by simp [verifier], made ?_, idle_fresh _ _ _ _ h₃, more.trans (asking_fresh _ _ _ _ h₃).next,
        ⟨_, _, rfl⟩, fun proved => (needs proved).elim⟩
      simp [Block.ofStmts, Block.enteredKeys, entered, entered', apply_ite Stmt.allEnteredKeys, Stmt.allEnteredKeys,
        Stmt.enteredKeys, Stmt.set]

end Wrapper

/-! ## Taking functions apart -/

/-- The circuit of an external part, given that of the internal part: it takes over the keys, asks for them and calls the
internal part. -/
inductive Circuit.External (os : List Label) (c : Circuit) (needsProof : Bool) (w : FunctionDef) : Circuit → Prop
  | intro {d} (grows : (c.wrapper needsProof w.id).Grows os d) (calls : d.calls = []) (verifier : d.verifier ≠ none)
    (requests : (c.wrapper needsProof w.id).Requests d w.secretNames w.body) (allocates : w.body.Allocates d.sizes)
    (handsOn : needsProof = true → w.body.HandsOn c.function d.ownSizes) :
    External os c needsProof w (d.calling needsProof c.function)

/-- The circuits differ at most in the verifier and in the keys. None is missing, and others are those of these owners. -/
structure Circuit.Rekeyed (os : List Label) (c d : Circuit) : Prop where
  same : d = { c with verifier := d.verifier, keys := d.keys, secretKeys := d.secretKeys }
  keys : c.keys ⊆ d.keys
  known : ∀ p ∈ d.keys, p ∈ c.keys ∨ p.1 ∈ os

section Parts

open Circuit

variable {k : SplitContext} {symbols : Symbols} {params : Nat → List Param} {ss : List FunctionSplit}
  {cs ks : List Circuit} {c d own : Circuit} {f w : FunctionDef} {needs : Bool} {n m : Nat} {os : List Label}

theorem Circuit.Rekeyed.refl (os : List Label) (c : Circuit) : c.Rekeyed os c := ⟨rfl, List.Subset.refl _, fun _ => .inl⟩

theorem Circuit.Rekeyed.trans {e : Circuit} (h : c.Rekeyed os d) (h' : d.Rekeyed os e) : c.Rekeyed os e := by
  refine ⟨?_, List.Subset.trans h.keys h'.keys, known_trans h.known h'.known⟩
  rw [h'.same, h.same]

theorem Circuit.Rekeyed.function (h : c.Rekeyed os d) : d.function = c.function := by rw [h.same]

/-- Only calls and statements are added. -/
theorem Circuit.calling_eq (needs : Bool) (i : Nat) :
    c.calling needs i = { c with calls := (c.calling needs i).calls, body := (c.calling needs i).body } := by
  unfold calling
  split <;> rfl

theorem Circuit.External.function (h : c.External os needs w own) : own.function = w.id := by
  cases h with
  | intro grows => rw [calling_eq, grows.function]; rfl

theorem Circuit.External.verifier (h : c.External os needs w own) : own.verifier ≠ none := by
  cases h with
  | intro _ _ verifier => rwa [calling_eq]

theorem Circuit.External.keys (h : c.External os needs w own) :
    c.keys ⊆ own.keys ∧ ∀ p ∈ own.keys, p ∈ c.keys ∨ p.1 ∈ os := by
  cases h with
  | intro grows => rw [calling_eq]; exact ⟨grows.keys, grows.known⟩

theorem Circuit.External.calls (h : c.External os needs w own) :
    own.calls.map CircuitCall.callee = if needs then [c.function] else [] := by
  cases h with
  | intro _ calls =>
    unfold calling
    split
    · rw [calls]
      rfl
    · rw [calls]
      rfl

/-- A parameter more leaves the rest of a function as it is. -/
theorem addParam_ok {g : FunctionDef} {type : AnnTy} {name storage : String}
    (h : f.addParam type name storage n = .ok (g, m)) : g.id = f.id ∧ g.body = f.body := by
  obtain ⟨id, n₁, _, h⟩ := state_bind_ok h
  cases state_pure_ok h
  exact ⟨rfl, rfl⟩

theorem addParam_secretNames {g : FunctionDef} {type : AnnTy} {name storage : String} (isPublic : type.isPrivate = false)
    (h : f.addParam type name storage n = .ok (g, m)) : g.secretNames = f.secretNames := by
  obtain ⟨id, n₁, _, h⟩ := state_bind_ok h
  cases state_pure_ok h
  have none : (Param.generated id type name storage).secretNames = [] := by
    unfold Param.secretNames
    split
    · rename_i source _ _ _ hs _ _
      obtain rfl := Option.some.inj hs
      simp [isPublic]
    · rfl
  unfold FunctionDef.secretNames
  rw [List.flatMap_append, List.flatMap_singleton, none, List.append_nil]

/-- Numbers and places of storage do not matter for the names. -/
theorem secretNames_mapM {ps qs : List Param} {g : Param → NumberM Param}
    (hg : ∀ p n q m, g p n = .ok (q, m) → q.secretNames = p.secretNames) (h : ps.mapM g n = .ok (qs, m)) :
    qs.flatMap Param.secretNames = ps.flatMap Param.secretNames := by
  have same := state_mapM_ok hg h
  clear h
  induction same with
  | nil => rfl
  | cons first _ ih => rw [List.flatMap_cons, List.flatMap_cons, first, ih]

theorem FunctionSplit.wrapper_ok {s : FunctionSplit} {ps : List Param} (me : k.owners.contains .me = true)
    (callee : c.function = s.function.id) (h : s.wrapper k symbols ps c n = .ok ((w, own), m)) :
    c.External k.owners s.function.facts.needsProof w own ∧ n ≤ w.id ∧ w.id < m ∧
      w.secretNames = ps.flatMap Param.secretNames := by
  obtain ⟨params, n₁, hparams, h⟩ := state_bind_ok h
  obtain ⟨returns, n₂, hreturns, h⟩ := state_bind_ok h
  obtain ⟨results, n₃, hresults, h⟩ := state_bind_ok h
  obtain ⟨id, n₄, hid, h⟩ := state_bind_ok h
  obtain ⟨⟨body, d⟩, n₅, hbody, h⟩ := state_bind_ok h
  obtain ⟨w₁, n₆, hw₁, h⟩ := state_bind_ok h
  obtain ⟨w₂, n₇, hw₂, h⟩ := state_bind_ok h
  cases state_pure_ok h
  obtain ⟨v, hr, rfl, rfl⟩ := runWith_ok hbody
  obtain ⟨e, grows, calls, verifier, requests, same, next, allocates, handsOn⟩ := runs_wrapperBody me hr
  have counts₁ := NumberM.Counts.mapM (fun _ => NumberM.Counts.bind (counts_fresh.bind fun _ => .pure) fun _ => .pure)
    _ _ _ _ hparams
  have counts₂ := NumberM.Counts.mapM (fun _ => counts_fresh.bind fun _ => .pure) _ _ _ _ hreturns
  have counts₃ := NumberM.Counts.mapM (fun _ => counts_fresh.bind fun _ => .pure) _ _ _ _ hresults
  have counts₆ := counts_addParam _ _ _ hw₁
  have counts₇ := counts_addParam _ _ _ hw₂
  obtain ⟨id₁, body₁⟩ := addParam_ok hw₁
  obtain ⟨id₂, body₂⟩ := addParam_ok hw₂
  have names : w.secretNames = params.flatMap Param.secretNames :=
    (addParam_secretNames rfl hw₂).trans (addParam_secretNames rfl hw₁)
  have arguments : params.flatMap Param.secretNames = ps.flatMap Param.secretNames := by
    refine secretNames_mapM (fun p n q m hq => ?_) hparams
    obtain ⟨r, n', hr, hq⟩ := state_bind_ok hq
    obtain ⟨i, n'', _, hr⟩ := state_bind_ok hr
    cases state_pure_ok hr
    cases state_pure_ok hq
    dsimp only
    split <;> rfl
  have number : w.id = id := id₂.trans id₁
  obtain ⟨rfl, rfl⟩ : n₃ = id ∧ n₃ + 1 = n₄ := by
    cases hid
    exact ⟨rfl, rfl⟩
  rw [same, show (FunctionSplit.internal s.function).id = c.function from callee.symm]
  have code : w.body = body := body₂.trans body₁
  refine ⟨.intro (number ▸ grows) calls verifier ?_ (code ▸ allocates) (code ▸ callee ▸ handsOn), ?_, ?_,
    names.trans arguments⟩
  · rw [number, code, names]
    exact requests
  · omega
  · dsimp only at next
    omega

/-- What taking functions apart does to the circuits: they stay, up to keys, unless they belong to a function that needs
no proof, and every function gets the circuit of an external part. -/
structure Parted (os : List Label) (ss : List FunctionSplit) (cs : List Circuit) (n : Nat) (parts : List (FunctionDef × FunctionDef))
    (ks : List Circuit) (m : Nat) : Prop where
  distinct : Distinct ks
  kept : ∀ c ∈ cs, (∀ s ∈ ss, s.function.id = c.function → s.function.facts.needsProof = true) →
    ∃ d ∈ ks, c.Rekeyed os d
  only : ∀ d ∈ ks, (∃ c ∈ cs, c.Rekeyed os d ∧
      (∀ s ∈ ss, s.function.id = c.function → s.function.facts.needsProof = true ∧ d.verifier = none) ∧
      ((∀ s ∈ ss, s.function.id ≠ c.function) → d = c)) ∨
    ∃ s ∈ ss, ∃ c, find? cs s.function.id = some c ∧ ∃ p ∈ parts, n ≤ p.1.id ∧ c.External os s.function.facts.needsProof p.1 d
  bounded : ∀ d ∈ ks, d.function < m
  counts : n ≤ m

/-- The first function is taken apart. -/
theorem Parted.one {s : FunctionSplit} {p : FunctionDef × FunctionDef} (distinct : Distinct cs)
    (bounded : ∀ c ∈ cs, c.function < n) (found : find? cs s.function.id = some c)
    (external : c.External os s.function.facts.needsProof p.1 own) (lower : n ≤ p.1.id) (upper : p.1.id < m) :
    Parted os [s] cs n [p] ((if s.function.facts.needsProof
      then update cs { c with verifier := none, keys := own.keys, secretKeys := own.secretKeys }
      else cs.filter fun k => k.function != s.function.id) ++ [own]) m := by
  have number : own.function = p.1.id := external.function
  have added : ∀ d ∈ [own], (∃ c ∈ cs, c.Rekeyed os d ∧
      (∀ s' ∈ [s], s'.function.id = c.function → s'.function.facts.needsProof = true ∧ d.verifier = none) ∧
      ((∀ s' ∈ [s], s'.function.id ≠ c.function) → d = c)) ∨
      ∃ s' ∈ [s], ∃ c, find? cs s'.function.id = some c ∧ ∃ q ∈ [p], n ≤ q.1.id ∧ c.External os s'.function.facts.needsProof q.1 d := by
    intro d hd
    obtain rfl := List.mem_singleton.mp hd
    exact .inr ⟨s, List.mem_singleton_self s, c, found, p, List.mem_singleton_self p, lower, external⟩
  have fresh {ds : List Circuit} (distinct : Distinct ds) (h : ∀ d ∈ ds, d.function < n) :
      Distinct (ds ++ [own]) := by
    unfold Distinct
    rw [List.map_append, List.map_singleton]
    refine List.nodup_append.mpr ⟨distinct, List.nodup_singleton _, fun i hi j hj => ?_⟩
    obtain ⟨d, hd, rfl⟩ := List.mem_map.mp hi
    obtain rfl := List.mem_singleton.mp hj
    have := h d hd
    omega
  have limit {ds : List Circuit} (h : ∀ d ∈ ds, d.function < n) : ∀ d ∈ ds ++ [own], d.function < m := by
    intro d hd
    rcases List.mem_append.mp hd with hd | hd
    · have := h d hd
      omega
    · rw [List.mem_singleton.mp hd, number]
      exact upper
  by_cases needs : s.function.facts.needsProof = true
  · rw [if_pos needs, update_eq]
    let e : Circuit := { c with verifier := none, keys := own.keys, secretKeys := own.secretKeys }
    have rekeyed : ∀ d ∈ cs, d.Rekeyed os (replace e d) ∧ (s.function.id = d.function → (replace e d).verifier = none) ∧
        (s.function.id ≠ d.function → replace e d = d) := by
      intro d hd
      unfold replace
      split
      · rename_i same
        have same : d.function = c.function := beq_iff_eq.mp same
        obtain rfl := distinct.eq hd (List.mem_of_find?_eq_some found) same
        exact ⟨⟨rfl, external.keys.1, external.keys.2⟩, fun _ => rfl, fun other => (other (find?_function found).symm).elim⟩
      · rename_i other
        exact ⟨.refl os d, fun same => (other (beq_iff_eq.mpr (same.symm.trans (find?_function found).symm))).elim, fun _ => rfl⟩
    have bounded' : ∀ d ∈ cs.map (replace e), d.function < n := by
      refine List.forall_mem_map.mpr fun d hd => ?_
      rw [replace_function]
      exact bounded d hd
    refine ⟨fresh ?_ bounded', fun d hd _ => ?_, fun d hd => ?_, limit bounded', Nat.le_of_lt (Nat.lt_of_le_of_lt lower upper)⟩
    · unfold Distinct
      rw [List.map_map, show Circuit.function ∘ replace e = Circuit.function from funext fun _ => replace_function]
      exact distinct
    · exact ⟨replace e d, List.mem_append_left _ (List.mem_map_of_mem hd), (rekeyed d hd).1⟩
    · rcases List.mem_append.mp hd with hd | hd
      · obtain ⟨a, ha, rfl⟩ := List.mem_map.mp hd
        obtain ⟨same, none, other⟩ := rekeyed a ha
        refine .inl ⟨a, ha, same, fun s' hs' found => ?_, fun h => other (h s (List.mem_singleton_self s))⟩
        rw [List.mem_singleton.mp hs'] at found ⊢
        exact ⟨needs, none found⟩
      · exact added d hd
  · rw [if_neg needs]
    have bounded' : ∀ d ∈ cs.filter fun k => k.function != s.function.id, d.function < n := fun d hd =>
      bounded d (List.mem_of_mem_filter hd)
    refine ⟨fresh (List.Nodup.sublist (List.filter_sublist.map _) distinct) bounded', fun d hd proved => ?_,
      fun d hd => ?_, limit bounded', Nat.le_of_lt (Nat.lt_of_le_of_lt lower upper)⟩
    · refine ⟨d, List.mem_append_left _ (List.mem_filter.mpr ⟨hd, bne_iff_ne.mpr fun same => ?_⟩), .refl os d⟩
      exact needs (proved s (List.mem_singleton_self s) same.symm)
    · rcases List.mem_append.mp hd with hd | hd
      · obtain ⟨hd, other⟩ := List.mem_filter.mp hd
        refine .inl ⟨d, hd, .refl os d, fun s' hs' same => ?_, fun _ => rfl⟩
        rw [List.mem_singleton.mp hs'] at same
        exact (bne_iff_ne.mp other same.symm).elim
      · exact added d hd

/-- Then come the other functions. -/
theorem Parted.cons {s : FunctionSplit} {p : FunctionDef × FunctionDef} {parts : List (FunctionDef × FunctionDef)}
    {ds : List Circuit} {l : Nat} (distinct : Distinct cs) (numbers : ((s :: ss).map (·.function.id)).Nodup)
    (known : ∀ s' ∈ ss, s'.function.id < n) (first : Parted os [s] cs n [p] ds l)
    (rest : Parted os ss ds l parts ks m) : Parted os (s :: ss) cs n (p :: parts) ks m := by
  rw [List.map_cons, List.nodup_cons] at numbers
  have external {d e : Circuit} {s' : FunctionSplit} {q : FunctionDef × FunctionDef} (hq : n ≤ q.1.id)
      (h : d.External os s'.function.facts.needsProof q.1 e) : ∀ s' ∈ ss, s'.function.id ≠ e.function := by
    intro s' hs' same
    have := known s' hs'
    rw [same, h.function] at this
    omega
  refine ⟨rest.distinct, fun c hc proved => ?_, fun d hd => ?_, rest.bounded, Nat.le_trans first.counts rest.counts⟩
  · rw [List.forall_mem_cons] at proved
    obtain ⟨d, hd, keyed⟩ := first.kept c hc (fun s' hs' => List.mem_singleton.mp hs' ▸ proved.1)
    obtain ⟨e, he, keyed'⟩ := rest.kept d hd (fun s' hs' same => proved.2 s' hs' (same.trans keyed.function))
    exact ⟨e, he, keyed.trans keyed'⟩
  · rcases rest.only d hd with ⟨e, he, keyed, proved, same⟩ | ⟨s', hs', e, he, q, hq, lower, made⟩
    · rcases first.only e he with ⟨c, hc, keyed', proved', same'⟩ | ⟨s', hs', c, hc, q, hq, lower, made⟩
      · refine .inl ⟨c, hc, keyed'.trans keyed, List.forall_mem_cons.mpr ⟨fun found => ?_, ?_⟩, fun other => ?_⟩
        · obtain ⟨needs, none⟩ := proved' s (List.mem_singleton_self s) found
          refine ⟨needs, (Eq.trans (congrArg _ (same fun s' hs' again => numbers.1 ?_)) none)⟩
          exact List.mem_map.mpr ⟨s', hs', (again.trans keyed'.function).trans found.symm⟩
        · exact fun s' hs' found => proved s' hs' (found.trans keyed'.function.symm)
        · rw [List.forall_mem_cons] at other
          obtain rfl := same' (fun s' hs' => List.mem_singleton.mp hs' ▸ other.1)
          exact same other.2
      · obtain rfl := same (external lower made)
        exact .inr ⟨s', List.mem_singleton.mp hs' ▸ List.mem_cons_self, c, hc, q,
          List.mem_singleton.mp hq ▸ List.mem_cons_self, lower, made⟩
    · have there : find? cs s'.function.id = some e := by
        rcases first.only e (List.mem_of_find?_eq_some he) with ⟨c, hc, keyed, _, same⟩ | ⟨t, _, c, _, r, _, low, made'⟩
        · have number : c.function = s'.function.id := keyed.function.symm.trans (find?_function he)
          obtain rfl := same fun t ht found => numbers.1 (List.mem_map.mpr ⟨s', hs',
            number.symm.trans (found.symm.trans (by rw [List.mem_singleton.mp ht]))⟩)
          exact number ▸ distinct.find? hc
        · exact (external low made' s' hs' (find?_function he).symm).elim
      exact .inr ⟨s', List.mem_cons_of_mem _ hs', e, there, q, List.mem_cons_of_mem _ hq,
        Nat.le_trans first.counts lower, made⟩

theorem splitParts_parted {parts : List (FunctionDef × FunctionDef)} (me : k.owners.contains .me = true)
    (distinct : Distinct cs) (numbers : (ss.map (·.function.id)).Nodup) (known : ∀ s ∈ ss, s.function.id < n)
    (bounded : ∀ c ∈ cs, c.function < n)
    (h : splitParts k symbols params ss cs n = .ok ((parts, ks), m)) : Parted k.owners ss cs n parts ks m := by
  induction ss generalizing cs n parts ks m with
  | nil =>
    cases state_pure_ok h
    refine ⟨distinct, fun c hc _ => ⟨c, hc, .refl _ c⟩, fun d hd => .inl ⟨d, hd, .refl _ d, ?_, fun _ => rfl⟩, bounded,
      Nat.le_refl n⟩
    simp
  | cons s ss ih =>
    rw [splitParts] at h
    cases hc : find? cs s.function.id with
    | none =>
      rw [hc] at h
      cases h
    | some c =>
      rw [hc] at h
      obtain ⟨⟨w, own⟩, n₁, hw, h⟩ := state_bind_ok h
      obtain ⟨⟨rest, ds⟩, n₂, hrest, h⟩ := state_bind_ok h
      cases state_pure_ok h
      obtain ⟨external, lower, upper, _⟩ := s.wrapper_ok me (find?_function hc) hw
      rw [List.forall_mem_cons] at known
      have first := Parted.one (p := (w, FunctionSplit.internal s.function)) distinct bounded hc external lower upper
      refine .cons distinct numbers known.2 first (ih first.distinct (List.nodup_cons.mp numbers).2 (fun s' hs' => ?_)
        first.bounded hrest)
      exact Nat.lt_of_lt_of_le (known.2 s' hs') first.counts

/-- External parts have the arguments of their functions. -/
theorem splitParts_arguments {parts : List (FunctionDef × FunctionDef)} (me : k.owners.contains .me = true)
    (h : splitParts k symbols params ss cs n = .ok ((parts, ks), m)) :
    ∀ p ∈ parts, ∃ s ∈ ss, p.1.secretNames = (params s.function.id).flatMap Param.secretNames := by
  induction ss generalizing cs n parts ks m with
  | nil =>
    cases state_pure_ok h
    simp
  | cons s ss ih =>
    rw [splitParts] at h
    cases hc : find? cs s.function.id with
    | none =>
      rw [hc] at h
      cases h
    | some c =>
      rw [hc] at h
      obtain ⟨⟨w, own⟩, n₁, hw, h⟩ := state_bind_ok h
      obtain ⟨⟨rest, ds⟩, n₂, hrest, h⟩ := state_bind_ok h
      cases state_pure_ok h
      obtain ⟨_, _, _, arguments⟩ := s.wrapper_ok me (find?_function hc) hw
      refine List.forall_mem_cons.mpr ⟨⟨s, List.mem_cons_self, arguments⟩, fun p hp => ?_⟩
      obtain ⟨t, ht, same⟩ := ih hrest p hp
      exact ⟨t, List.mem_cons_of_mem _ ht, same⟩

end Parts

end Shroud
