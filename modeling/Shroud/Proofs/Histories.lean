import Shroud.Proofs.Exposure
import Shroud.Proofs.Statements

/-!
# Histories of circuits

The history of every circuit that a program is split into is the trace of its making, from a circuit without
statements on.

**Later changes.** What is found out about circuits after the bodies were split, such as their callees, their keys and
the layout of their values, does not touch their histories. The circuit of an external part only hands out names. So a
property of the making of circuits lasts through the compilation if it lasts while bodies are split.
-/

namespace Shroud

open SplitM

/-! ## What lasts through the compilation -/

/-- A property of the making of circuits that lasts while bodies in `B` are split. -/
structure Circuit.Lasting (B : Block → Prop) (T : Circuit → Prop) : Prop where
  empty : ∀ id, T (.empty id)
  /-- Nothing but these parts of a circuit belongs to its making. -/
  alike {c d : Circuit} : T c → d.body = c.body → d.versions = c.versions → d.history = c.history →
    d.supply = c.supply → T d
  quietly {α : Type} {k : SplitContext} {x : SplitM α} {w w' : Workspace} {a : α} : Quietly x → Runs k x w a w' →
    T w.circuit → T w'.circuit
  renumber {b : Block} : B b → ∀ n, B (b.renumber n).1
  split {k : SplitContext} {s : BodySplit} {depth : Nat} {place : LinkContext} {b b' : Block} {w w' : Workspace} :
    s.splitter = .bounded depth → (∀ f ∈ k.callees, ∀ b, f.body = some b → B b) → B b →
      Runs k (b.split s place) w b' w' → T w.circuit → T w'.circuit

/-! ### The circuit of the external part -/

theorem quietly_backUpArguments (ps : List Param) : ∀ offset : Int, Quietly (backUpArguments offset ps) := by
  induction ps with
  | nil => exact fun _ => Idle.pure.quietly
  | cons p ps ih =>
    intro offset
    unfold backUpArguments
    have check (name : String) : Quietly (checkArgument p name) := by
      unfold checkArgument
      split
      · exact obtains_addSecret.bind fun _ => obtains_freshInput.bind fun _ =>
          (quietly_ensureEncryption (by simp) (by simp)).bind fun _ => Idle.pure.quietly
      · exact Idle.throw.quietly
    split
    · split
      · exact (check _).bind fun _ => (QuietlyOn.mapM (fun _ => Idle.ofExcept.quietly.bind fun _ =>
          Idle.pure.quietly) _).bind fun _ => (ih _).bind fun _ => Idle.pure.quietly
      · exact ih _
    · exact ih _

theorem quietly_requestKeys (keys : List (Label × Backend)) : ∀ (offset : Int) (declared : List Backend),
    Quietly (requestKeys offset declared keys) := by
  induction keys with
  | nil => exact fun _ _ => Idle.pure.quietly
  | cons p keys ih =>
    intro offset declared
    obtain ⟨owner, b⟩ := p
    unfold requestKeys
    have first : Quietly (if declared.contains b then pure []
        else do return [Stmt.declare default (.stored (← fresh) (.plain (.publicKey b)) (keyVar b)) none]) := by
      split
      · exact Idle.pure.quietly
      · exact idle_fresh.quietly.bind fun _ => Idle.pure.quietly
    refine first.bind fun _ => Idle.ofExcept.quietly.bind fun _ => obtains_requestKey.quietly.bind fun _ => ?_
    exact (QuietlyOn.mapM (fun _ => Idle.ofExcept.quietly.bind fun _ => Idle.pure.quietly) _).bind fun _ =>
      (ih _ _).bind fun _ => Idle.pure.quietly

theorem quietly_requestSecretKeys : Quietly requestSecretKeys :=
  idle_circuit.quietly.bind fun _ => .mapM (fun _ => obtains_addSecret.quietly.bind fun _ => Idle.pure.quietly) _

theorem quietly_working {α : Type} {c : LinkContext} {s : Option Stmt} {x : SplitM α} (hx : Quietly x) :
    Quietly (working c s x) := by
  refine (idle_modify fun _ => by rfl).quietly.bind fun _ => hx.bind fun a => idle_draft?.quietly.bind fun d => ?_
  cases d with
  | none => exact Idle.throw.quietly
  | some d => exact (idle_modify fun _ => by rfl).quietly.bind fun _ => Idle.pure.quietly

theorem quietly_wrapperBody {f : FunctionDef} {params : List Param} {results : List LocalVar} :
    Quietly (wrapperBody f params results) := by
  unfold wrapperBody
  refine idle_circuit.quietly.bind fun _ => (quietly_working ?_).bind fun _ => ?_
  · refine (quietly_backUpArguments params 0).bind fun _ => idle_circuit.quietly.bind fun _ => ?_
    refine (quietly_requestKeys _ _ _).bind fun _ => idle_circuit.quietly.bind fun _ => ?_
    dsimp only
    split
    · exact Idle.throw.quietly.bind fun _ => Idle.pure.quietly
    · exact Idle.pure.quietly
  · refine quietly_requestSecretKeys.bind fun _ => idle_circuit.quietly.bind fun _ => ?_
    refine idle_circuit.quietly.bind fun _ => idle_circuit.quietly.bind fun own => ?_
    dsimp only
    split
    · refine (quietly_modifyCircuit fun c => ?_).bind fun _ =>
        (quietly_emit (s := .call f.id) trivial nofun).bind fun _ => ?_
      · exact .of_same rfl rfl rfl rfl rfl rfl rfl
      · split
        · exact Idle.throw.quietly
        · exact idle_fresh.quietly.bind fun _ => Idle.pure.quietly
    · split
      · exact Idle.throw.quietly
      · exact idle_fresh.quietly.bind fun _ => Idle.pure.quietly

/-! ### The parts of a contract -/

namespace Circuit.Lasting

variable {B : Block → Prop} {T : Circuit → Prop} (hT : Lasting B T)

theorem update {cs : List Circuit} {c : Circuit} (h : ∀ k ∈ cs, T k) (hc : T c) : ∀ k ∈ Circuit.update cs c, T k := by
  intro k hk
  obtain ⟨d, hd, rfl⟩ := List.mem_map.mp hk
  split
  · exact hc
  · exact h d hd

theorem find {cs : List Circuit} {c : Circuit} {id : Nat} (h : ∀ k ∈ cs, T k) (hc : Circuit.find? cs id = some c) :
    T c := h c (List.mem_of_find?_eq_some hc)

include hT

theorem splitBody {k : SplitContext} {symbols : Symbols} {depth : Nat} {place : LinkContext} {s r : FunctionSplit}
    {c d : Circuit} {n m : Nat} (hk : ∀ f ∈ k.callees, ∀ b, f.body = some b → B b) (hs : B s.function.body) (hc : T c)
    (h : s.splitBody k symbols depth place c n = .ok ((r, d), m)) : T d := by
  obtain ⟨body, n₁, hbody, h⟩ := state_bind_ok h
  obtain ⟨⟨split, c₁⟩, n₂, hsplit, h⟩ := state_bind_ok h
  cases state_pure_ok h
  have renumbered : B body := by
    cases hbody
    exact hT.renumber hs n
  obtain ⟨w, hr, rfl, _⟩ := runWith_ok hsplit
  exact hT.split rfl hk renumbered hr hc

theorem splitBodies {k : SplitContext} {symbols : Symbols} {depth : Nat} {place : FunctionDef → LinkContext}
    {ss rs : List FunctionSplit} {cs ks : List Circuit} {n m : Nat}
    (hk : ∀ f ∈ k.callees, ∀ b, f.body = some b → B b) (hs : ∀ s ∈ ss, B s.function.body) (hc : ∀ c ∈ cs, T c)
    (h : splitBodies k symbols depth place ss cs n = .ok ((rs, ks), m)) : ∀ c ∈ ks, T c := by
  induction ss generalizing cs n rs ks m with
  | nil =>
    cases state_pure_ok h
    exact hc
  | cons s ss ih =>
    obtain ⟨⟨r, c⟩, n₁, hr, h⟩ := state_bind_ok h
    obtain ⟨⟨rest, circuits⟩, n₂, hrest, h⟩ := state_bind_ok h
    cases state_pure_ok h
    have first : T ((Circuit.find? cs s.function.id).getD (.empty s.function.id)) := by
      cases hf : Circuit.find? cs s.function.id with
      | none => exact hT.empty _
      | some c => exact find hc hf
    have here := hT.splitBody hk (hs s List.mem_cons_self) first hr
    exact ih (fun s h => hs s (List.mem_cons_of_mem _ h)) (update hc here) hrest

theorem complete {name : Nat → String} {fs : List Nat} {cs ks : List Circuit} (hc : ∀ c ∈ cs, T c)
    (h : Circuit.complete name fs cs = .ok ks) : ∀ c ∈ ks, T c := by
  unfold Circuit.complete at h
  induction fs generalizing cs with
  | nil =>
    cases h
    exact hc
  | cons f fs ih =>
    rw [List.foldlM_cons] at h
    obtain ⟨next, hn, h⟩ := except_bind_ok h
    refine ih ?_ h
    dsimp only at hn
    split at hn
    · cases hn
    · rename_i c hf
      obtain ⟨⟨r, sizes⟩, _, hn⟩ := except_bind_ok hn
      cases hn
      exact update hc (hT.alike (find hc hf) rfl rfl rfl rfl)

theorem layOutCalls {ss rs : List FunctionSplit} {cs ks : List Circuit} (hc : ∀ c ∈ cs, T c)
    (h : layOutCalls ss cs = .ok (rs, ks)) : ∀ c ∈ ks, T c := by
  obtain ⟨laidOut, hl, h⟩ := except_bind_ok h
  cases h
  have all : ∀ p ∈ laidOut, T p.1 := by
    intro p hp
    have made := except_mapM_ok (R := fun _ (p : Circuit × List (Nat × List Expr)) => T p.1)
      (fun s p hs => ?_) hl
    · obtain ⟨_, _, lasts⟩ := exists_mem_of_forall₂_right made hp
      exact lasts
    · dsimp only at hs
      split at hs
      · cases hs
      · rename_i c hf
        split at hs
        · cases hs
          exact hT.alike (find hc hf) rfl rfl rfl rfl
        · cases hs
  have fold (ls : List Circuit) (hls : ∀ l ∈ ls, T l) (cs : List Circuit) (hc : ∀ c ∈ cs, T c) :
      ∀ c ∈ ls.foldl Circuit.update cs, T c := by
    induction ls generalizing cs with
    | nil => exact hc
    | cons l ls ih =>
      exact ih (fun k hk => hls k (List.mem_cons_of_mem _ hk)) _ (update hc (hls l List.mem_cons_self))
  refine fold _ (fun k hk => ?_) cs hc
  obtain ⟨p, hp, rfl⟩ := List.mem_map.mp hk
  exact all p hp

theorem wrapper {k : SplitContext} {symbols : Symbols} {s : FunctionSplit} {params : List Param} {c own : Circuit}
    {w : FunctionDef} {n m : Nat} (h : s.wrapper k symbols params c n = .ok ((w, own), m)) : T own := by
  obtain ⟨params, n₁, _, h⟩ := state_bind_ok h
  obtain ⟨returns, n₂, _, h⟩ := state_bind_ok h
  obtain ⟨results, n₃, _, h⟩ := state_bind_ok h
  obtain ⟨id, n₄, _, h⟩ := state_bind_ok h
  obtain ⟨⟨body, d⟩, n₅, hbody, h⟩ := state_bind_ok h
  obtain ⟨w₁, n₆, _, h⟩ := state_bind_ok h
  obtain ⟨w₂, n₇, _, h⟩ := state_bind_ok h
  cases state_pure_ok h
  obtain ⟨w, hr, rfl, _⟩ := runWith_ok hbody
  exact hT.quietly quietly_wrapperBody hr (hT.alike (hT.empty id) rfl rfl rfl rfl)

theorem splitParts {k : SplitContext} {symbols : Symbols} {params : Nat → List Param} {ss : List FunctionSplit}
    {parts : List (FunctionDef × FunctionDef)} {cs ks : List Circuit} {n m : Nat} (hc : ∀ c ∈ cs, T c)
    (h : splitParts k symbols params ss cs n = .ok ((parts, ks), m)) : ∀ c ∈ ks, T c := by
  induction ss generalizing cs n parts ks m with
  | nil =>
    cases state_pure_ok h
    exact hc
  | cons s ss ih =>
    unfold Shroud.splitParts at h
    cases hf : Circuit.find? cs s.function.id with
    | none =>
      rw [hf] at h
      cases h
    | some c =>
      rw [hf] at h
      obtain ⟨⟨w, own⟩, n₁, hw, h⟩ := state_bind_ok h
      obtain ⟨⟨rest, _⟩, n₂, hrest, h⟩ := state_bind_ok h
      cases state_pure_ok h
      refine ih (fun d hd => ?_) hrest
      rcases List.mem_append.mp hd with hd | hd
      · split at hd
        · refine update hc ?_ d hd
          exact hT.alike (find hc hf) rfl rfl rfl rfl
        · exact hc d (List.mem_of_mem_filter hd)
      · rw [List.mem_singleton.mp hd]
        exact hT.wrapper hw

/-! ### Programs -/

theorem contract {o : Options} {unit : SourceUnit} {symbols : Symbols} {cs ks : List Circuit} {c d : Contract}
    {n m : Nat} (hB : ∀ f ∈ c.allFunctions, B f.body) (hc : ∀ c ∈ cs, T c)
    (h : c.split o unit symbols cs n = .ok ((d, ks), m)) : ∀ c ∈ ks, T c := by
  unfold Contract.split at h
  obtain ⟨whole, n₁, hwhole, h⟩ := state_bind_ok h
  obtain ⟨⟨state, symbols'⟩, n₂, _, h⟩ := state_bind_ok h
  obtain ⟨⟨bodies₁, circuits₁⟩, n₃, hbodies, h⟩ := state_bind_ok h
  obtain ⟨circuits₂, n₄, hcomplete, h⟩ := state_bind_ok h
  obtain ⟨⟨bodies₂, circuits₃⟩, n₅, hlay, h⟩ := state_bind_ok h
  obtain ⟨⟨bodies, structs⟩, n₆, _, h⟩ := state_bind_ok h
  obtain ⟨registries, n₇, _, h⟩ := state_bind_ok h
  obtain ⟨verifiers, n₈, _, h⟩ := state_bind_ok h
  obtain ⟨⟨parts, circuits₄⟩, n₉, hparts, h⟩ := state_bind_ok h
  cases state_pure_ok h
  have bodies : ∀ s ∈ whole, B s.function.body := by
    have first : List.Forall₂ (fun f (s : FunctionSplit) => s.function = f) c.allFunctions whole := by
      refine state_mapM_ok (fun f n s m hs => ?_) hwhole
      obtain ⟨results, n', _, hs⟩ := state_bind_ok hs
      cases state_pure_ok hs
      rfl
    intro s hs
    obtain ⟨f, hf, rfl⟩ := exists_mem_of_forall₂_right first hs
    exact hB _ hf
  have callees : ∀ f ∈ whole.map (fun s => (⟨s.function.id, s.function.params, some s.function.body, s.results,
      (c.context unit).ofBody s.function⟩ : Callee)), ∀ b, f.body = some b → B b := by
    intro f hf b hb
    obtain ⟨s, hs, rfl⟩ := List.mem_map.mp hf
    cases hb
    exact bodies s hs
  have signed : ∀ s ∈ whole.map (FunctionSplit.encrypted o), B s.function.body := by
    intro s hs
    obtain ⟨r, hr, rfl⟩ := List.mem_map.mp hs
    exact bodies r hr
  have start : ∀ d ∈ cs ++ (c.allFunctions.filter fun f =>
      f.facts.needsProof || f.facts.needsProofExternally).map fun f => Circuit.empty f.id, T d := by
    intro d hd
    rcases List.mem_append.mp hd with hd | hd
    · exact hc d hd
    · obtain ⟨f, _, rfl⟩ := List.mem_map.mp hd
      exact hT.empty f.id
  have lasts₁ : ∀ c ∈ circuits₁, T c := hT.splitBodies callees signed start hbodies
  have lasts₂ : ∀ c ∈ circuits₂, T c := hT.complete lasts₁ (state_lift_ok hcomplete)
  have mapped {ks : List Circuit} {f : Circuit → Circuit} (hk : ∀ k ∈ ks, T k) (hf : ∀ k : Circuit, T k → T (f k)) :
      ∀ k ∈ ks.map f, T k := by
    intro d hd
    obtain ⟨k, hm, rfl⟩ := List.mem_map.mp hd
    exact hf k (hk k hm)
  have lasts₃ : ∀ c ∈ circuits₃, T c := by
    refine hT.layOutCalls (mapped lasts₂ fun k hk => ?_) (state_lift_ok hlay)
    split
    · exact hT.alike hk rfl rfl rfl rfl
    · exact hk
  refine hT.splitParts ?_ hparts
  have fold (name : FunctionSplit → String) (ss : List FunctionSplit) (ks : List Circuit) (hk : ∀ k ∈ ks, T k) :
      ∀ k ∈ ss.foldl (fun ks s => ks.map fun k =>
        if k.function == s.function.id then { k with verifier := some (name s) } else k) ks, T k := by
    induction ss generalizing ks with
    | nil => exact hk
    | cons s ss ih =>
      refine ih _ (mapped hk fun k hk => ?_)
      split
      · exact hT.alike hk rfl rfl rfl rfl
      · exact hk
  exact fold _ _ _ lasts₃

theorem contracts {o : Options} {unit : SourceUnit} {symbols : Symbols} {cs ds : List Contract} {ks ls : List Circuit}
    {n m : Nat} (hB : ∀ c ∈ cs, ∀ f ∈ c.allFunctions, B f.body) (hk : ∀ k ∈ ks, T k)
    (h : splitContracts o unit symbols cs ks n = .ok ((ds, ls), m)) : ∀ k ∈ ls, T k := by
  induction cs generalizing ks n ds ls m with
  | nil =>
    cases state_pure_ok h
    exact hk
  | cons c cs ih =>
    obtain ⟨⟨d, ks₁⟩, n₁, hd, h⟩ := state_bind_ok h
    obtain ⟨⟨rest, ks₂⟩, n₂, hrest, h⟩ := state_bind_ok h
    cases state_pure_ok h
    exact ih (fun c h => hB c (List.mem_cons_of_mem _ h)) (hT.contract (hB c List.mem_cons_self) hk hd) hrest

/-- The property holds of all circuits of a compiled program. -/
theorem compile {u : SourceUnit} {next : Nat} {o : Options} {t : Transcript} {r : Compilation}
    (h : (u.compile next o t).2 = .ok r) (hB : ∀ c ∈ r.source.contracts, ∀ f ∈ c.allFunctions, B f.body) :
    ∀ c ∈ r.circuits, T c := by
  obtain ⟨_, n, m, hsplit⟩ := SourceUnit.compile_ok h
  have bodies : r.source.Pointwise (fun f g => g.body = f.body) (r.source.markHoms o) := by
    unfold SourceUnit.markHoms
    exact SourceUnit.mapFacts_pointwise (fun _ _ => by rfl) _
  obtain ⟨⟨⟨contracts, ks⟩, n₁⟩, hs, hsplit⟩ := except_bind_ok hsplit
  obtain ⟨⟨w, n₂⟩, _, hsplit⟩ := except_bind_ok hsplit
  cases hsplit
  refine hT.contracts (fun d hd g hg => ?_) (fun _ h => (List.not_mem_nil h).elim) hs
  obtain ⟨c, hc, same⟩ := exists_mem_of_forall₂_right bodies hd
  obtain ⟨f, hf, hb⟩ := exists_mem_of_forall₂_right (List.rel_append same.constructors same.functions) hg
  exact hb ▸ hB c hc f hf

end Circuit.Lasting

/-! ## Histories -/

/-- Everything that merely helps to compute values. -/
def Asset.aids : Set Asset := { a | ∃ e, a = .aid e }

/-- The circuit came about by the steps of its history, with `D` at hand from the beginning. -/
def Circuit.Told (D : Set Asset) (c : Circuit) : Prop :=
  ∃ S F, Circuit.Makes [] D (.empty 0) S F c

section Told

variable {D : Set Asset}

theorem Circuit.told_empty (id : Nat) : (Circuit.empty id).Told D := by
  refine ⟨[], D, .refl, rfl, List.prefix_rfl, ?_⟩
  rintro (_ | _ | _ | _) <;> exact ⟨rfl, rfl⟩

theorem Circuit.Told.history {c : Circuit} (h : c.Told D) :
    ∃ F, Traces [] D (Circuit.empty 0).phase c.history F c.phase := by
  obtain ⟨S, F, m⟩ := h
  have : c.history = S := m.history
  exact ⟨F, this ▸ m.traces⟩

/-- Nothing but these parts of a circuit belongs to its making. -/
theorem Circuit.Told.alike {c d : Circuit} (h : c.Told D) (hb : d.body = c.body) (hv : d.versions = c.versions)
    (hh : d.history = c.history) (hs : d.supply = c.supply) : d.Told D := by
  obtain ⟨S, F, m⟩ := h
  have hp : d.phase = c.phase := by
    unfold Circuit.phase Circuit.guards
    rw [hb, hv, hs]
  refine ⟨S, F, hp ▸ m.traces, hh.trans m.history, hb ▸ m.body, ?_⟩
  intro r
  rw [hs]
  exact m.standard r

/-- An activity goes on with the making of a circuit. -/
theorem Acts.told {α : Type} {k : SplitContext} {x : SplitM α} {w w' : Workspace} {a : α}
    {Q : α → Set Asset → Prop} (hx : ∀ E, D ⊆ E → Acts false k E x Q) (hr : Runs k x w a w')
    (hw : w.circuit.Told D) : w'.circuit.Told D := by
  obtain ⟨S, E, m⟩ := hw
  have within : w.circuit.versions.Within E := m.traces.within nofun
  obtain ⟨T, F, n, _⟩ := hx E m.traces.subset [] w a w' hr (.inr m.traces.guards_eq) m.standard within
  exact ⟨S ++ T, F, m.andThen n⟩

theorem QuietlyOn.told {α : Type} {k : SplitContext} {x : SplitM α} {w w' : Workspace} {a : α} (hx : Quietly x)
    (hr : Runs k x w a w') (hw : w.circuit.Told D) : w'.circuit.Told D :=
  Acts.told (Q := fun _ _ => True) (fun _ _ => hx.acts fun _ _ _ _ => trivial) hr hw

/-- The steps of a circuit go on while bodies are split that are over what is at hand. -/
theorem told_lasting : Circuit.Lasting (Block.Draws (AtHand D)) (Circuit.Told D) where
  empty := Circuit.told_empty
  alike h := h.alike
  quietly hx hr h := QuietlyOn.told hx hr h
  renumber hb n := Block.renumber_draws _ hb n
  split hs hk hb hr h := by
    refine Acts.told (fun E hD => Block.acts_split ?_ _ _ E hD hb) hr h
    exact hs ▸ Splitter.bounded_sound hk _

/-- All circuits have their histories. -/
abbrev AllTold (D : Set Asset) (cs : List Circuit) : Prop := ∀ c ∈ cs, Circuit.Told D c

end Told

/-- The bodies of all functions draw on these assets. -/
def Contract.Draws (Q : Asset → Prop) (c : Contract) : Prop := ∀ f ∈ c.allFunctions, f.body.Draws Q

/-- The bodies of all functions are over these circuit variables. -/
def Contract.Over (Q : CircuitVar → Prop) (c : Contract) : Prop := c.Draws (Asset.Only Q)

instance (Q : Asset → Prop) [DecidablePred Q] (c : Contract) : Decidable (c.Draws Q) :=
  inferInstanceAs (Decidable (∀ f ∈ c.allFunctions, f.body.Draws Q))

/-- The program holds no circuit variables. What is split does not if the program did not (`SourceUnit.Plain.compiled`). -/
def SourceUnit.Plain (u : SourceUnit) : Prop := ∀ c ∈ u.contracts, c.Over fun _ => False

instance (u : SourceUnit) : Decidable u.Plain :=
  inferInstanceAs (Decidable (∀ c ∈ u.contracts, c.Draws (Asset.Only fun _ => False)))

/-- The program holds neither circuit variables nor anything else that belongs to a circuit. What is split does not if the
program did not (`SourceUnit.Bare.compiled`). -/
def SourceUnit.Bare (u : SourceUnit) : Prop := ∀ c ∈ u.contracts, c.Draws fun _ => False

instance (u : SourceUnit) : Decidable u.Bare :=
  inferInstanceAs (Decidable (∀ c ∈ u.contracts, c.Draws fun _ => False))

/-- The circuits of a compiled program come about from what its bodies draw on. -/
theorem compile_told {D : Set Asset} {u : SourceUnit} {next : Nat} {o : Options} {t : Transcript} {r : Compilation}
    (h : (u.compile next o t).2 = .ok r) (draws : ∀ c ∈ r.source.contracts, c.Draws (AtHand D)) :
    AllTold D r.circuits :=
  told_lasting.compile h draws

/-- The circuits of a compiled program without circuit variables come about from nothing but aids. -/
theorem compile_plain_told {u : SourceUnit} {next : Nat} {o : Options} {t : Transcript} {r : Compilation}
    (h : (u.compile next o t).2 = .ok r) (plain : r.source.Plain) : AllTold Asset.aids r.circuits := by
  refine compile_told h fun c hc f hf => Block.Draws.mono (fun a ha => ?_) _ (plain c hc f hf)
  cases a with
  | value v => exact ha.elim
  | aid e => exact .aid ⟨e, rfl⟩

/-- The circuits of a compiled program without anything that belongs to a circuit come about from nothing. -/
theorem compile_bare_told {u : SourceUnit} {next : Nat} {o : Options} {t : Transcript} {r : Compilation}
    (h : (u.compile next o t).2 = .ok r) (bare : r.source.Bare) : AllTold ∅ r.circuits :=
  compile_told h fun c hc f hf => Block.Draws.mono (fun _ => False.elim) _ (bare c hc f hf)

end Shroud
