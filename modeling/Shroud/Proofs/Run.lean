import Mathlib.Data.Set.Insert
import Shroud.Proofs.Assets

/-!
# Runs of the splitter

What the activities of the splitter do to the workspace is stated about their runs: `Runs c x w a w'` says
that `x` ends with the result `a` and leaves `w'` behind.

**Idle** activities leave the circuit alone: they look something up, link names or change drafts.

**Quiet** activities add to a circuit without declaring a value, opening a guard or changing what is known
about variables. They may hand out names, and they may state something about variables with such names or about
given ones.
-/

namespace Shroud

namespace SplitM

section Runs

variable {α β : Type} {c : SplitContext} {w w' : Workspace} {a : α} {b : β}

/-- How an activity ends, and the workspace it leaves behind. -/
def outcome (c : SplitContext) (x : SplitM α) (w : Workspace) : Except Error α × Workspace := (x.run c).run w

/-- The activity gives the result and leaves the second workspace behind. -/
def Runs (c : SplitContext) (x : SplitM α) (w : Workspace) (a : α) (w' : Workspace) : Prop :=
  outcome c x w = (.ok a, w')

theorem runs_of_ok {x : SplitM α} (h : (outcome c x w).1 = .ok a) : Runs c x w a (outcome c x w).2 := Prod.ext h rfl

theorem runs_pure {a b : α} : Runs c (pure a) w b w' ↔ a = b ∧ w = w' := by
  show ((Except.ok a, w) : Except Error α × Workspace) = (.ok b, w') ↔ _
  simp

theorem outcome_bind {x : SplitM α} {f : α → SplitM β} : outcome c (x >>= f) w =
    match outcome c x w with
    | (.ok a, v) => outcome c (f a) v
    | (.error e, v) => (.error e, v) := by
  unfold outcome
  simp only [ReaderT.run_bind, ExceptT.run_bind]
  simp only [bind, StateT.bind]
  rcases (x.run c).run w with ⟨r | r, v⟩ <;> rfl

theorem runs_bind {x : SplitM α} {f : α → SplitM β} :
    Runs c (x >>= f) w b w' ↔ ∃ a v, Runs c x w a v ∧ Runs c (f a) v b w' := by
  unfold Runs
  rw [outcome_bind]
  rcases outcome c x w with ⟨r | r, v⟩ <;> simp

theorem runs_throw {e : Error} : ¬ Runs c (throw e : SplitM α) w a w' := by
  intro h
  cases h

theorem runs_read {d : SplitContext} : Runs c (read : SplitM SplitContext) w d w' ↔ c = d ∧ w = w' := by
  show ((Except.ok c, w) : Except Error _ × Workspace) = (.ok d, w') ↔ _
  simp

theorem runs_get {v : Workspace} : Runs c (get : SplitM Workspace) w v w' ↔ w = v ∧ w = w' := by
  show ((Except.ok w, w) : Except Error _ × Workspace) = (.ok v, w') ↔ _
  simp

theorem runs_set {v : Workspace} {u : PUnit} : Runs c (set v : SplitM PUnit) w u w' ↔ v = w' := by
  show ((Except.ok PUnit.unit, v) : Except Error _ × Workspace) = (.ok u, w') ↔ _
  simp

theorem runs_modify {f : Workspace → Workspace} {u : PUnit} :
    Runs c (modify f : SplitM PUnit) w u w' ↔ f w = w' := by
  show ((Except.ok PUnit.unit, f w) : Except Error _ × Workspace) = (.ok u, w') ↔ _
  simp

theorem runs_ofExcept {x : Except Error α} : Runs c (ofExcept x : SplitM α) w a w' ↔ x = .ok a ∧ w = w' := by
  cases x with
  | error e =>
    constructor
    · exact fun h => (runs_throw h).elim
    · rintro ⟨⟨⟩, _⟩
  | ok b => simpa [ofExcept] using runs_pure

/-- A look at the workspace. -/
theorem runs_gets {f : Workspace → α} : Runs c (do return f (← get)) w a w' ↔ f w = a ∧ w = w' := by
  simp only [runs_bind, runs_get, runs_pure]
  constructor
  · rintro ⟨_, _, ⟨rfl, rfl⟩, rfl, rfl⟩
    exact ⟨rfl, rfl⟩
  · rintro ⟨rfl, rfl⟩
    exact ⟨w, w, ⟨rfl, rfl⟩, rfl, rfl⟩

theorem runs_circuit {k : Circuit} : Runs c circuit w k w' ↔ w.circuit = k ∧ w = w' := runs_gets

theorem runs_symbols {s : Symbols} : Runs c symbols w s w' ↔ w.symbols = s ∧ w = w' := runs_gets

theorem runs_versions {vs : Versions} : Runs c versions w vs w' ↔ w.circuit.versions = vs ∧ w = w' := by
  unfold versions
  simp only [runs_bind, runs_circuit, runs_pure]
  constructor
  · rintro ⟨_, _, ⟨rfl, rfl⟩, rfl, rfl⟩
    exact ⟨rfl, rfl⟩
  · rintro ⟨rfl, rfl⟩
    exact ⟨_, _, ⟨rfl, rfl⟩, rfl, rfl⟩

theorem runs_modifyCircuit {f : Circuit → Circuit} {u : Unit} :
    Runs c (modifyCircuit f) w u w' ↔ { w with circuit := f w.circuit } = w' := runs_modify

theorem runs_emit {s : CircuitStmt} {u : Unit} :
    Runs c (emit s) w u w' ↔ { w with circuit := { w.circuit with body := w.circuit.body ++ [s] } } = w' :=
  runs_modifyCircuit

/-- An activity with a circuit of its own. -/
theorem runWith_ok {k : SplitContext} {symbols : Symbols} {x : SplitM α} {d e : Circuit} {n m : Nat}
    (h : runWith k symbols d x n = .ok ((a, e), m)) :
    ∃ w, Runs k x ⟨d, [], symbols, n⟩ a w ∧ w.circuit = e ∧ w.next = m := by
  unfold runWith at h
  unfold Runs outcome
  split at h
  · rename_i w hw
    cases h
    exact ⟨w, hw, rfl, rfl⟩
  · cases h

end Runs

/-! ## Idle activities -/

section Idle

variable {α β : Type} {x : SplitM α} {f : α → SplitM β}

/-- The activity leaves the circuit alone. -/
def Idle (x : SplitM α) : Prop := ∀ c w a w', Runs c x w a w' → w'.circuit = w.circuit

theorem Idle.pure {a : α} : Idle (pure a) := by
  intro c w b w' h
  obtain ⟨_, rfl⟩ := runs_pure.mp h
  rfl

theorem Idle.bind (hx : Idle x) (hf : ∀ a, Idle (f a)) : Idle (x >>= f) := by
  intro c w b w' h
  obtain ⟨a, v, h₁, h₂⟩ := runs_bind.mp h
  exact (hf a c v b w' h₂).trans (hx c w a v h₁)

theorem Idle.throw {e : Error} : Idle (throw e : SplitM α) := fun _ _ _ _ h => (runs_throw h).elim

theorem Idle.ofExcept {r : Except Error α} : Idle (ofExcept r : SplitM α) := by
  intro c w b w' h
  obtain ⟨_, rfl⟩ := runs_ofExcept.mp h
  rfl

theorem idle_get : Idle (get : SplitM Workspace) := by
  intro c w b w' h
  obtain ⟨_, rfl⟩ := runs_get.mp h
  rfl

theorem idle_read : Idle (read : SplitM SplitContext) := by
  intro c w b w' h
  obtain ⟨_, rfl⟩ := runs_read.mp h
  rfl

theorem idle_symbols : Idle symbols := idle_get.bind fun _ => .pure

theorem idle_circuit : Idle circuit := idle_get.bind fun _ => .pure

theorem idle_options : Idle options := idle_read.bind fun _ => .pure

theorem idle_backend {h : Hom} : Idle (backend h) := idle_options.bind fun _ => .pure

theorem idle_draft? : Idle draft? := idle_get.bind fun _ => .pure

theorem idle_modify {f : Workspace → Workspace} (h : ∀ w, (f w).circuit = w.circuit) :
    Idle (modify f : SplitM PUnit) := by
  intro c w a w' hr
  obtain rfl := runs_modify.mp hr
  exact h w

theorem idle_modifyDraft {g : Draft → Draft} : Idle (modifyDraft g) := idle_modify fun _ => rfl

theorem idle_precede {s : Stmt} : Idle (precede s) := by
  refine idle_draft?.bind fun d => ?_
  cases d with
  | none => exact .throw
  | some d => exact idle_modifyDraft

theorem idle_restate {s : Stmt} : Idle (restate s) := idle_modifyDraft

theorem idle_put {e : Expr} : Idle (put e) := by
  unfold put
  split
  · exact idle_modifyDraft.bind fun _ => .pure
  · exact .pure

theorem idle_context : Idle context := by
  refine idle_draft?.bind fun d => ?_
  cases d with
  | none => exact .throw
  | some d => exact .pure

theorem idle_knowledge : Idle knowledge := idle_draft?.bind fun _ => .pure

theorem idle_linking {l : LinkM α} : Idle (linking l) := by
  intro c w b w' h
  obtain ⟨s, v, hs, h⟩ := runs_bind.mp h
  obtain ⟨rfl, rfl⟩ := runs_get.mp hs
  split at h
  · obtain ⟨_, u, hu, h⟩ := runs_bind.mp h
    obtain rfl := runs_set.mp hu
    obtain ⟨_, rfl⟩ := runs_pure.mp h
    rfl
  · exact (runs_throw h).elim

theorem idle_relink {e : Expr} : Idle (relink e) := idle_context.bind fun _ => idle_linking

theorem idle_fresh : Idle fresh := idle_linking

theorem idle_canonicalOwner {owner : Label} : Idle (Splitter.canonicalOwner owner) := by
  refine idle_knowledge.bind fun n => ?_
  cases n with
  | none => exact .throw
  | some n => exact idle_read.bind fun _ => .pure

end Idle

section Results

variable {α : Type} {c : SplitContext} {w w' : Workspace} {Q : Asset → Prop}

theorem runs_put {e p : Expr} (h : Runs c (put e) w p w') : p = e := by
  unfold put at h
  split at h
  · obtain ⟨_, _, _, h⟩ := runs_bind.mp h
    exact (runs_pure.mp h).1.symm
  · exact (runs_pure.mp h).1.symm

theorem runs_linking {P : α → Prop} {l : LinkM α} {a : α} (hl : Yields P l) (h : Runs c (linking l) w a w') :
    P a := by
  obtain ⟨s, v, hs, h⟩ := runs_bind.mp h
  split at h
  · rename_i b t heq
    obtain ⟨_, _, _, h⟩ := runs_bind.mp h
    obtain ⟨rfl, _⟩ := runs_pure.mp h
    exact hl _ _ heq
  · exact (runs_throw h).elim

theorem runs_relink {e p : Expr} (he : e.Draws Q) (h : Runs c (relink e) w p w') : p.Draws Q := by
  obtain ⟨k, _, _, h⟩ := runs_bind.mp h
  exact runs_linking (e.link_draws k he) h

end Results

/-! ## Results of activities -/

section Gives

variable {α β : Type} {x : SplitM α} {f : α → SplitM β} {P : α → Prop} {Q : β → Prop}

/-- Every result of the activity has the property. -/
def Gives (P : α → Prop) (x : SplitM α) : Prop := ∀ k w a w', Runs k x w a w' → P a

theorem Gives.pure {a : α} (h : P a) : Gives P (pure a) := by
  intro k w b w' hr
  obtain ⟨rfl, _⟩ := runs_pure.mp hr
  exact h

theorem Gives.throw {e : Error} : Gives P (throw e) := fun _ _ _ _ hr => (runs_throw hr).elim

theorem Gives.bind (hx : Gives P x) (hf : ∀ a, P a → Gives Q (f a)) : Gives Q (x >>= f) := by
  intro k w b w' hr
  obtain ⟨a, v, h₁, h₂⟩ := runs_bind.mp hr
  exact hf a (hx k w a v h₁) k v b w' h₂

/-- What comes before may give anything. -/
theorem Gives.after (hf : ∀ a, Gives Q (f a)) : Gives Q (x >>= f) :=
  Gives.bind (P := fun _ => True) (fun _ _ _ _ _ => trivial) fun a _ => hf a

theorem Gives.imp {P' : α → Prop} (hx : Gives P x) (h : ∀ a, P a → P' a) : Gives P' x :=
  fun k w a w' hr => h a (hx k w a w' hr)

theorem Gives.ofExcept {x : Except Error α} (h : ∀ a, x = .ok a → P a) : Gives P (ofExcept x) :=
  fun _ _ a _ hr => h a (runs_ofExcept.mp hr).1

/-- Each result is related to what it was made of. -/
theorem Gives.mapM_forall₂ {R : α → β → Prop} {as : List α} (h : ∀ a ∈ as, Gives (R a) (f a)) :
    Gives (List.Forall₂ R as) (as.mapM f) := by
  induction as with
  | nil =>
    rw [List.mapM_nil]
    exact .pure .nil
  | cons a as ih =>
    obtain ⟨first, rest⟩ := List.forall_mem_cons.mp h
    rw [List.mapM_cons]
    exact first.bind fun b hb => (ih rest).bind fun bs hbs => .pure (.cons hb hbs)

theorem Gives.mapM {f : α → SplitM β} (hf : ∀ a, Gives Q (f a)) (as : List α) :
    Gives (fun bs => ∀ b ∈ bs, Q b) (as.mapM f) := by
  induction as with
  | nil =>
    rw [List.mapM_nil]
    exact .pure (List.forall_mem_nil _)
  | cons a as ih =>
    rw [List.mapM_cons]
    exact (hf a).bind fun b hb => ih.bind fun bs hbs => .pure (List.forall_mem_cons.mpr ⟨hb, hbs⟩)

theorem Gives.put {P : Expr → Prop} {e : Expr} (h : P e) : Gives P (put e) :=
  fun _ _ _ _ hr => runs_put hr ▸ h

theorem Gives.indented {name : String} (hx : Gives P x) : Gives P (indented name x) :=
  .after fun _ => hx.bind fun _ ha => .after fun _ => .pure ha

theorem Gives.inScope {isCall : Bool} {visible : Variable → Bool} (hx : Gives P x) :
    Gives P (inScope isCall visible x) := by
  have captured : Gives (fun p => P p.1) (captured x) :=
    .after fun _ => hx.bind fun _ ha => .after fun _ => .after fun _ => .pure ha
  exact .after fun _ => captured.bind fun p hp => .after fun _ => .after fun _ => .after fun _ => .pure hp

end Gives

end SplitM

/-! ## Quiet changes of a circuit -/

/-- The statement neither declares a value nor changes the guards in force. -/
def CircuitStmt.IsQuiet : CircuitStmt → Prop
  | .comment _ | .call _ | .encrypt .. | .encryptShared .. | .equal .. => True
  | _ => False

/-- The circuit variables that a statement is about, declarations aside. -/
def CircuitStmt.constrained : CircuitStmt → List CircuitVar
  | .encrypt plain randomness key cipher _ => [plain, randomness, key, cipher]
  | .encryptShared plain key cipher _ => [plain, key, cipher]
  | .equal target value => [target, value]
  | .openGuard cond _ => [cond]
  | _ => []

/-- The variable holds the key of an owner that is known in advance. -/
def IsStaticKey (p : Label × Backend) (v : CircuitVar) : Prop := p.1.keyName p.2 = .ok v.name ∧ v.type = .publicKey p.2

/-- The variable enters or leaves the circuit, or holds a key that is known in advance. -/
def Circuit.Registers (c : Circuit) (v : CircuitVar) : Prop :=
  v ∈ c.secrets.vars ∨ v ∈ c.inputs.vars ∨ v ∈ c.outputs.vars ∨ ∃ p, IsStaticKey p v

/-- Only names were handed out. -/
structure NameSupply.Grows (s t : NameSupply) : Prop where
  base : t.base = s.base
  role : t.role = s.role
  count : s.count ≤ t.count
  vars : s.vars ⊆ t.vars

/-- The second circuit is the first one after a quiet activity. What the activity states is about variables in `V` and
about those that enter or leave the circuit. -/
structure Circuit.Quiet (V : Set CircuitVar) (c d : Circuit) : Prop where
  body : ∃ more, d.body = c.body ++ more ∧ ∀ s ∈ more, s.IsQuiet ∧ ∀ v ∈ s.constrained, v ∈ V ∨ d.Registers v
  versions : d.versions = c.versions
  history : d.history = c.history
  temporaries : d.temporaries = c.temporaries
  secrets : c.secrets.Grows d.secrets
  inputs : c.inputs.Grows d.inputs
  outputs : c.outputs.Grows d.outputs

theorem NameSupply.Grows.refl (s : NameSupply) : s.Grows s := ⟨rfl, rfl, Nat.le_refl _, List.Subset.refl _⟩

theorem NameSupply.Grows.trans {s t u : NameSupply} (h : s.Grows t) (k : t.Grows u) : s.Grows u :=
  ⟨k.base.trans h.base, k.role.trans h.role, Nat.le_trans h.count k.count, List.Subset.trans h.vars k.vars⟩

theorem NameSupply.grows_add (s : NameSupply) (name : String) (t : Ty) (source : Option Expr) :
    s.Grows (s.add name t source).2 :=
  ⟨rfl, rfl, Nat.le_succ _, List.subset_append_left _ _⟩

theorem NameSupply.add_mem (s : NameSupply) (name : String) (t : Ty) (source : Option Expr) :
    (s.add name t source).1 ∈ (s.add name t source).2.vars :=
  List.mem_append_right _ (List.mem_singleton_self _)

namespace Circuit

variable {V U : Set CircuitVar} {c d e : Circuit} {v : CircuitVar}

/-- Nothing was stated, and no names were handed out. -/
theorem Quiet.of_same (hb : d.body = c.body) (hv : d.versions = c.versions) (hh : d.history = c.history)
    (ht : d.temporaries = c.temporaries) (hs : d.secrets = c.secrets) (hi : d.inputs = c.inputs)
    (ho : d.outputs = c.outputs) : c.Quiet V d :=
  ⟨⟨[], by rw [hb, List.append_nil], nofun⟩, hv, hh, ht, hs ▸ .refl _, hi ▸ .refl _, ho ▸ .refl _⟩

theorem Quiet.refl (c : Circuit) : c.Quiet V c := .of_same rfl rfl rfl rfl rfl rfl rfl

theorem Quiet.registers (h : c.Quiet V d) (hv : c.Registers v) : d.Registers v := by
  rcases hv with hv | hv | hv | hv
  · exact .inl (h.secrets.vars hv)
  · exact .inr (.inl (h.inputs.vars hv))
  · exact .inr (.inr (.inl (h.outputs.vars hv)))
  · exact .inr (.inr (.inr hv))

theorem Quiet.trans (h : c.Quiet V d) (k : d.Quiet V e) : c.Quiet V e := by
  obtain ⟨m, hm, qm⟩ := h.body
  obtain ⟨n, hn, qn⟩ := k.body
  refine ⟨⟨m ++ n, by rw [hn, hm, List.append_assoc], ?_⟩, k.versions.trans h.versions,
    k.history.trans h.history, k.temporaries.trans h.temporaries, h.secrets.trans k.secrets,
    h.inputs.trans k.inputs, h.outputs.trans k.outputs⟩
  intro s hs
  rcases List.mem_append.mp hs with hs | hs
  · exact ⟨(qm s hs).1, fun v hv => ((qm s hs).2 v hv).imp id k.registers⟩
  · exact qn s hs

theorem Quiet.mono (h : c.Quiet V d) (hV : V ⊆ U) : c.Quiet U d := by
  obtain ⟨more, hb, hq⟩ := h.body
  exact { h with body := ⟨more, hb, fun s hs => ⟨(hq s hs).1, fun v hv => ((hq s hs).2 v hv).imp (@hV v) id⟩⟩ }

/-- A variable that the circuit has registered need not be given. -/
theorem Quiet.given (h : c.Quiet (insert v V) d) (hv : d.Registers v) : c.Quiet V d := by
  obtain ⟨more, hb, hq⟩ := h.body
  refine { h with body := ⟨more, hb, fun s hs => ⟨(hq s hs).1, fun u hu => ?_⟩⟩ }
  rcases (hq s hs).2 u hu with (rfl | hu) | hu
  · exact .inr hv
  · exact .inl hu
  · exact .inr hu

end Circuit

namespace SplitM

section Quietly

variable {α β : Type} {V U : Set CircuitVar} {x : SplitM α} {f : α → SplitM β}

/-- The activity is quiet. What it states is about variables in `V` and about those that enter or leave the circuit. -/
def QuietlyOn (V : Set CircuitVar) (x : SplitM α) : Prop := ∀ c w a w', Runs c x w a w' → w.circuit.Quiet V w'.circuit

/-- The activity is quiet, whatever is given. -/
abbrev Quietly (x : SplitM α) : Prop := QuietlyOn ∅ x

theorem Idle.quietly (h : Idle x) : QuietlyOn V x := by
  intro c w a w' hr
  rw [h c w a w' hr]
  exact .refl _

theorem QuietlyOn.mono (hx : QuietlyOn V x) (hV : V ⊆ U) : QuietlyOn U x :=
  fun c w a w' hr => (hx c w a w' hr).mono hV

theorem QuietlyOn.any (hx : Quietly x) : QuietlyOn V x := hx.mono (Set.empty_subset V)

theorem QuietlyOn.bind (hx : QuietlyOn V x) (hf : ∀ a, QuietlyOn V (f a)) : QuietlyOn V (x >>= f) := by
  intro c w b w' h
  obtain ⟨a, v, h₁, h₂⟩ := runs_bind.mp h
  exact (hx c w a v h₁).trans (hf a c v b w' h₂)

theorem QuietlyOn.mapM {f : α → SplitM β} (h : ∀ a, QuietlyOn V (f a)) : ∀ as : List α, QuietlyOn V (as.mapM f)
  | [] => by
    rw [List.mapM_nil]
    exact Idle.pure.quietly
  | a :: as => by
    rw [List.mapM_cons]
    exact (h a).bind fun _ => (QuietlyOn.mapM h as).bind fun _ => Idle.pure.quietly

theorem quietly_emit {s : CircuitStmt} (hs : s.IsQuiet) (hV : ∀ v ∈ s.constrained, v ∈ V) : QuietlyOn V (emit s) := by
  intro c w a w' h
  obtain rfl := runs_modifyCircuit.mp h
  refine ⟨⟨[s], rfl, ?_⟩, rfl, rfl, rfl, .refl _, .refl _, .refl _⟩
  rintro _ (_ | ⟨_, ⟨⟩⟩)
  exact ⟨hs, fun v hv => .inl (hV v hv)⟩

theorem quietly_comment {text : String} : QuietlyOn V (comment text) := quietly_emit trivial nofun

/-- What no proof looks at may change. -/
theorem quietly_modifyCircuit {g : Circuit → Circuit} (h : ∀ k : Circuit, k.Quiet V (g k)) :
    QuietlyOn V (modifyCircuit g) := by
  intro c w a w' hr
  obtain rfl := runs_modifyCircuit.mp hr
  exact h _

/-! ## New names -/

/-- The activity is quiet, and the variable that it gives is one that enters or leaves the circuit. -/
def Obtains (g : α → CircuitVar) (x : SplitM α) : Prop :=
  ∀ c w a w', Runs c x w a w' → w.circuit.Quiet ∅ w'.circuit ∧ w'.circuit.Registers (g a)

section Obtains

variable {g : α → CircuitVar} {h : β → CircuitVar}

theorem Obtains.quietly (hx : Obtains g x) : QuietlyOn V x := .any fun c w a w' hr => (hx c w a w' hr).1

/-- Something may be stated about the new variable. -/
theorem Obtains.bind (hx : Obtains g x) (hf : ∀ a, QuietlyOn (insert (g a) V) (f a)) : QuietlyOn V (x >>= f) := by
  intro c w b w' hr
  obtain ⟨a, v, h₁, h₂⟩ := runs_bind.mp hr
  have q := hf a c v b w' h₂
  exact ((hx.quietly c w a v h₁).trans (q.given (q.registers (hx c w a v h₁).2)))

/-- What comes before may be anything quiet. -/
theorem Obtains.after (hx : Quietly x) (hf : ∀ a, Obtains h (f a)) : Obtains h (x >>= f) := by
  intro c w b w' hr
  obtain ⟨a, v, h₁, h₂⟩ := runs_bind.mp hr
  obtain ⟨q, hv⟩ := hf a c v b w' h₂
  exact ⟨(hx c w a v h₁).trans q, hv⟩

/-- The new variable is passed on. -/
theorem Obtains.keep (hx : Obtains g x) (hf : ∀ a, Quietly (f a)) (same : ∀ a, Gives (fun b => h b = g a) (f a)) :
    Obtains h (x >>= f) := by
  intro c w b w' hr
  obtain ⟨a, v, h₁, h₂⟩ := runs_bind.mp hr
  obtain ⟨q, hv⟩ := hx c w a v h₁
  have q' := hf a c v b w' h₂
  exact ⟨q.trans q', same a c v b w' h₂ ▸ q'.registers hv⟩

end Obtains

/-- All names are handed out in the same way. -/
theorem runs_handOut {c : SplitContext} {w w' : Workspace} (make : Circuit → CircuitVar × NameSupply)
    (store : NameSupply → Circuit → Circuit) {v : CircuitVar} :
    Runs c (do
      let (v, s) := make (← circuit)
      modifyCircuit (store s)
      return v) w v w' ↔
    (make w.circuit).1 = v ∧ { w with circuit := store (make w.circuit).2 w.circuit } = w' := by
  simp only [runs_bind, runs_circuit, runs_modifyCircuit, runs_pure]
  constructor
  · rintro ⟨_, _, ⟨rfl, rfl⟩, _, _, rfl, rfl, rfl⟩
    exact ⟨rfl, rfl⟩
  · rintro ⟨rfl, rfl⟩
    exact ⟨_, _, ⟨rfl, rfl⟩, (), _, rfl, rfl, rfl⟩

theorem obtains_handOut (make : Circuit → CircuitVar × NameSupply) (store : NameSupply → Circuit → Circuit)
    (h : ∀ k : Circuit, k.Quiet ∅ (store (make k).2 k) ∧ (store (make k).2 k).Registers (make k).1) : Obtains id (do
      let (v, s) := make (← circuit)
      modifyCircuit (store s)
      return v) := by
  intro c w v w' hr
  obtain ⟨rfl, rfl⟩ := (runs_handOut make store).mp hr
  exact h _

section Supplies

variable {name : String} {t : Ty} {source : Option Expr}

theorem Circuit.obtains_secret {c : Circuit} : c.Quiet ∅ { c with secrets := (c.secrets.add name t source).2 } ∧
    Circuit.Registers { c with secrets := (c.secrets.add name t source).2 } (c.secrets.add name t source).1 :=
  ⟨⟨⟨[], (List.append_nil _).symm, nofun⟩, rfl, rfl, rfl, NameSupply.grows_add .., .refl _, .refl _⟩,
    .inl (NameSupply.add_mem ..)⟩

theorem Circuit.obtains_input {c : Circuit} : c.Quiet ∅ { c with inputs := (c.inputs.add name t source).2 } ∧
    Circuit.Registers { c with inputs := (c.inputs.add name t source).2 } (c.inputs.add name t source).1 :=
  ⟨⟨⟨[], (List.append_nil _).symm, nofun⟩, rfl, rfl, rfl, .refl _, NameSupply.grows_add .., .refl _⟩,
    .inr (.inl (NameSupply.add_mem ..))⟩

theorem Circuit.obtains_output {c : Circuit} : c.Quiet ∅ { c with outputs := (c.outputs.add name t source).2 } ∧
    Circuit.Registers { c with outputs := (c.outputs.add name t source).2 } (c.outputs.add name t source).1 :=
  ⟨⟨⟨[], (List.append_nil _).symm, nofun⟩, rfl, rfl, rfl, .refl _, .refl _, NameSupply.grows_add ..⟩,
    .inr (.inr (.inl (NameSupply.add_mem ..)))⟩

end Supplies

theorem obtains_freshSecret {t : Ty} {suffix : String} : Obtains id (freshSecret t suffix) :=
  obtains_handOut (fun k => k.secrets.fresh t none suffix) (fun s k => { k with secrets := s })
    fun _ => Circuit.obtains_secret

theorem obtains_addSecret {name : String} {t : Ty} : Obtains id (addSecret name t) :=
  obtains_handOut (fun k => k.secrets.add name t none) (fun s k => { k with secrets := s })
    fun _ => Circuit.obtains_secret

theorem obtains_freshInput {t : Ty} {source : Option Expr} {suffix : String} : Obtains id (freshInput t source suffix) :=
  obtains_handOut (fun k => k.inputs.fresh t source suffix) (fun s k => { k with inputs := s })
    fun _ => Circuit.obtains_input

theorem obtains_addInput {name : String} {t : Ty} : Obtains id (addInput name t) :=
  obtains_handOut (fun k => k.inputs.add name t none) (fun s k => { k with inputs := s })
    fun _ => Circuit.obtains_input

theorem obtains_freshOutput {t : Ty} {source : Expr} {suffix : String} : Obtains id (freshOutput t source suffix) :=
  obtains_handOut (fun k => k.outputs.fresh t (some source) suffix) (fun s k => { k with outputs := s })
    fun _ => Circuit.obtains_output

/-! ## Keys -/

theorem obtains_requestKey {b : Backend} {owner : Label} {name : String} :
    Obtains Prod.fst (requestKey b owner name) :=
  obtains_addInput.keep
    (fun _ => Idle.ofExcept.quietly.bind fun _ => Idle.ofExcept.quietly.bind fun _ => Idle.pure.quietly)
    fun _ => .after fun _ => .after fun _ => .pure rfl

/-- The key of an owner that is known in advance. -/
theorem obtains_staticKey {owner : Label} {b : Backend} : Obtains id (do
    return .make (← ofExcept (owner.keyName b)) (.publicKey b) .publicArgument none none) := by
  intro c w v w' hr
  obtain ⟨name, _, h, hr⟩ := runs_bind.mp hr
  obtain ⟨hname, rfl⟩ := runs_ofExcept.mp h
  obtain ⟨rfl, rfl⟩ := runs_pure.mp hr
  exact ⟨.refl _, .inr (.inr (.inr ⟨(owner, b), hname, rfl⟩))⟩

theorem obtains_publicKey {owner : Label} {b : Backend} : Obtains id (publicKey owner b) := by
  refine .after idle_read.quietly fun k => ?_
  split
  · refine .after (quietly_modifyCircuit fun k => ?_) fun _ => obtains_staticKey
    exact .of_same rfl rfl rfl rfl rfl rfl rfl
  · refine .after idle_draft?.quietly fun d => ?_
    split
    · exact fun _ _ _ _ hr => (runs_throw hr).elim
    · exact .after idle_circuit.quietly fun _ => obtains_requestKey.keep
        (fun _ => idle_precede.quietly.bind fun _ => Idle.pure.quietly) fun _ => .after fun _ => .pure rfl

theorem obtains_senderKey {cipher : CircuitVar} {b : Backend} : Obtains id (senderKey cipher b) :=
  obtains_freshInput.keep
    (fun _ => Idle.ofExcept.quietly.bind fun _ => Idle.ofExcept.quietly.bind fun _ => Idle.ofExcept.quietly.bind fun _ =>
      idle_precede.quietly.bind fun _ => Idle.pure.quietly)
    fun _ => .after fun _ => .after fun _ => .after fun _ => .after fun _ => .pure rfl

theorem quietly_ensureEncryption {plain : CircuitVar} {owner : Label} {b : Backend} {cipher : CircuitVar}
    {relation : Relation} (hp : plain ∈ V) (hc : cipher ∈ V) :
    QuietlyOn V (ensureEncryption plain owner b cipher relation) := by
  have shared (other : CircuitVar) : QuietlyOn (insert other V)
      (emit (.encryptShared plain other cipher (decide (relation = .decryption)))) :=
    quietly_emit trivial (by simp [CircuitStmt.constrained, hp, hc])
  unfold ensureEncryption
  dsimp only
  split
  · refine (quietly_modifyCircuit fun k => ?_).bind fun _ => obtains_publicKey.bind fun mine => ?_
    · exact .of_same rfl rfl rfl rfl rfl rfl rfl
    split
    · refine obtains_senderKey.bind fun other => (shared other).mono ?_
      exact Set.insert_subset_insert (Set.subset_insert mine V)
    · split
      · simp only [pure_bind]
        exact quietly_comment.bind fun _ => shared mine
      · refine obtains_publicKey.bind fun other => ?_
        simp only [pure_bind]
        exact quietly_comment.bind fun _ => (shared other).mono (Set.insert_subset_insert (Set.subset_insert mine V))
  · refine obtains_addSecret.bind fun randomness => obtains_publicKey.bind fun key => ?_
    have stated : QuietlyOn (insert key (insert randomness V))
        (emit (.encrypt plain randomness key cipher (decide (relation = .decryption)))) :=
      quietly_emit trivial (by simp [CircuitStmt.constrained, hp, hc])
    split
    · exact quietly_comment.bind fun _ => stated
    · exact stated

theorem quietly_recordCall {node : Nat} {g : FunctionDef} : QuietlyOn V (Splitter.recordCall node g) := by
  have added : QuietlyOn V (do
      modifyCircuit fun c => { c with calls := c.calls ++ [⟨node, g.id, 0⟩] }
      emit (.call g.id)) := by
    refine (quietly_modifyCircuit fun k => ?_).bind fun _ => quietly_emit trivial nofun
    exact .of_same rfl rfl rfl rfl rfl rfl rfl
  unfold Splitter.recordCall
  dsimp only
  split
  · exact Idle.throw.quietly.bind fun _ => added
  · exact added

end Quietly

end SplitM

end Shroud
