import Shroud.Proofs.Expressions

/-!
# Traces of public code

Splitting the statements of a function has a trace: branches of public code under a guard of the circuit, branches
and operands that public code may pass over, loops, and statements that are carried out by the circuit.

**Circuit variables.** The statements of a function mention only circuit variables that were at hand from the
beginning, so what becomes available inside a branch is not needed after it.
-/

namespace Shroud

open SplitM BodySplit

section Groups

variable {k : SplitContext} {D E : Set Asset}

/-! ## Branches -/

/-- What is left of a branch: its steps, between phases without its guard. -/
structure IsBranch (P : List Guard) (E : Set Asset) (g : Guard) (c : Circuit) (S : List Step) (d : Circuit) :
    Prop where
  traces : ∃ F t, Traces (P ++ [g]) E (c.phase.under (P ++ [g])) S F t ∧ d.phase = t.under P ∧ t.known.Within E
  anew : Step.Anew S
  guards : d.guards = P
  history : d.history = c.history
  body : c.body <+: d.body
  standard : d.Standard
  within : d.versions.Within E

theorem runs_branch {guard : CircuitVar} {holds : Bool} {known : Versions} {x : SplitM Block} {w w' : Workspace}
    {b : Block} {S : List Step} {P : List Guard} {Q : Block → Set Asset → Prop}
    (hr : Runs k (branch guard holds known x) w (b, S) w') (hx : Acts false k E x Q) (hc : AtHand E guard)
    (hP : w.circuit.guards = P) (hs : w.circuit.Standard) (hw : w.circuit.versions.Within E) (hk : known.Within E) :
    IsBranch P E ⟨guard.name, holds⟩ w.circuit S w'.circuit := by
  obtain ⟨_, _, h, hr⟩ := runs_bind.mp hr
  obtain ⟨rfl, rfl⟩ := runs_circuit.mp h
  obtain ⟨b', v, hg, hr⟩ := runs_bind.mp hr
  obtain ⟨_, _, h, hr⟩ := runs_bind.mp hr
  obtain ⟨rfl, rfl⟩ := runs_circuit.mp h
  obtain ⟨_, _, h, hr⟩ := runs_bind.mp hr
  obtain rfl := runs_modifyCircuit.mp h
  obtain ⟨heq, rfl⟩ := runs_pure.mp hr
  obtain ⟨_, _, h, hg⟩ := runs_bind.mp hg
  obtain rfl := runs_modifyCircuit.mp h
  obtain ⟨_, v', hi, hg⟩ := runs_bind.mp hg
  obtain ⟨_, _, h, hg⟩ := runs_bind.mp hg
  obtain rfl := runs_modifyCircuit.mp h
  obtain ⟨rfl, rfl⟩ := runs_pure.mp hg
  obtain ⟨_, _, h, hi⟩ := runs_bind.mp hi
  obtain rfl := runs_note.mp h
  obtain ⟨_, v₁, h₁, hi⟩ := runs_bind.mp hi
  obtain ⟨_, v₂, h₂, hi⟩ := runs_bind.mp hi
  obtain ⟨rfl, rfl⟩ := runs_pure.mp hi
  obtain ⟨_, _, h, h₃⟩ := runs_bind.mp h₂
  obtain rfl := runs_setVersions.mp h
  obtain rfl := runs_note.mp h₃
  let g : Guard := ⟨guard.name, holds⟩
  let s := Phase.under { w.circuit.phase with lines := w.circuit.phase.lines ++ [.openGuard guard holds] } (P ++ [g])
  have opened : Circuit.phase { w.circuit with body := w.circuit.body ++ [.openGuard guard holds] } = s := by
    rw [Circuit.phase_emit]
    simp only [CircuitStmt.guards, CircuitStmt.lines, hP]
    rfl
  obtain ⟨T, F, m, _⟩ := hx (P ++ [g]) _ _ v₁ h₁ (.inr (congrArg Phase.guards opened)) hs hw
  have start : Traces (P ++ [g]) E s [s.now .resume] E s := .resume hw
  have body : Traces (P ++ [g]) E s T F v₁.circuit.phase := opened ▸ m.traces
  have last : Traces (P ++ [g]) F v₁.circuit.phase [(v₁.circuit.phase.knowing known).now .resume] F
      (v₁.circuit.phase.knowing known) := .resume (hk.mono body.subset)
  have all := (start.andThen body).andThen last
  have closed : Circuit.phase { v₁.circuit with body := v₁.circuit.body ++ [.closeGuard], versions := known } =
      (v₁.circuit.phase.knowing known).under P := by
    have hg : v₁.circuit.guards = P ++ [g] := body.guards_eq
    have emitted := Circuit.phase_emit { v₁.circuit with versions := known } .closeGuard
    have guards : Circuit.guards { v₁.circuit with versions := known } = P ++ [g] := hg
    rw [emitted]
    simp only [CircuitStmt.guards, CircuitStmt.lines, List.append_nil, guards, List.dropLast_concat]
    rfl
  have history : v₁.circuit.history = w.circuit.history ++ (s.now .resume :: T) := by
    have first : Circuit.phase { w.circuit with body := w.circuit.body ++ [.openGuard guard holds] } = s := opened
    rw [m.history, ← first]
    exact List.append_assoc ..
  have steps : S = [s.now .resume] ++ T ++ [(v₁.circuit.phase.knowing known).now .resume] := by
    have := congrArg Prod.snd heq
    refine this.symm.trans ?_
    show (v₁.circuit.history ++ [_]).drop _ = _
    rw [history, List.append_assoc, List.drop_left]
    rfl
  refine ⟨⟨F, _, steps ▸ SplitM.opens hc.mem all, closed, hk⟩, steps ▸ rfl, congrArg Phase.guards closed, ?_, ?_, m.standard, hk⟩
  · show (v₁.circuit.history ++ [_]).take _ = _
    rw [history, List.append_assoc, List.take_left]
  · exact ((List.prefix_append ..).trans m.body).trans (List.prefix_append ..)

/-- The end of a choice: its steps are recorded, and what its branches wrote is forgotten. -/
theorem runs_chosen {s : Step} {xs : List Variable} {w w' : Workspace} {α : Type} {a r : α}
    (h : Runs k (do
      record s
      forgetAll xs
      note .resume
      return a) w r w') : ∃ vs, (∀ E, w.circuit.versions.Within E → vs.Within E) ∧ a = r ∧
      { w with circuit := { w.circuit with
        versions := vs
        history := w.circuit.history ++ [s, (w.circuit.phase.knowing vs).now .resume] } } = w' := by
  obtain ⟨_, _, h₁, h⟩ := runs_bind.mp h
  obtain rfl := runs_record.mp h₁
  obtain ⟨_, _, h₂, h⟩ := runs_bind.mp h
  obtain ⟨_, _, h₃, h₂⟩ := runs_bind.mp h₂
  obtain ⟨rfl, rfl⟩ := runs_versions.mp h₃
  obtain rfl := runs_setVersions.mp h₂
  obtain ⟨_, _, h₄, h⟩ := runs_bind.mp h
  obtain rfl := runs_note.mp h₄
  obtain ⟨rfl, rfl⟩ := runs_pure.mp h
  refine ⟨_, fun E hE => hE.forgetAll xs, rfl, ?_⟩
  simp only [List.append_assoc, List.cons_append, List.nil_append]
  rfl

/-- A branch that public code takes or passes over, under a guard of the circuit. -/
theorem acts_chooseThen {guard : CircuitVar} {known : Versions} {x : SplitM Block} {α : Type} {f : Block → α}
    {xs : List Variable} {Q : Block → Set Asset → Prop} (hg : AtHand E guard) (hk : known.Within E)
    (hx : Acts false k E x Q) : Acts false k E (do
      let (b, yes) ← branch guard true known x
      record (.branches (some guard) yes [])
      forgetAll xs
      note .resume
      return f b) fun _ _ => True := by
  intro P w a w' hr hP hs hw
  obtain ⟨⟨b, yes⟩, w₁, h₁, hr⟩ := runs_bind.mp hr
  have hP : w.circuit.guards = P := hP.resolve_left nofun
  obtain ⟨⟨F, t, ht, hd, hv⟩, anew, _, history, body, standard, within⟩ := runs_branch h₁ hx hg hP hs hw hk
  obtain ⟨vs, hvs, rfl, rfl⟩ := runs_chosen hr
  refine ⟨[.branches (some guard) yes [], ((t.under P).knowing vs).now .resume], E, ⟨?_, ?_, body, standard⟩, trivial⟩
  · show Traces P E w.circuit.phase _ E (w₁.circuit.phase.knowing vs)
    rw [hd]
    exact .choose (u := t.under (P ++ [⟨guard.name, false⟩])) hP anew trivial ht hv .refl (hvs E within)
  · show w₁.circuit.history ++ _ = _
    rw [history, hd]

/-- Public code takes one of two branches, under guards of the circuit. -/
theorem acts_chooseElse {guard : CircuitVar} {known : Versions} {x y : SplitM Block} {α : Type}
    {f : Block → Block → α} {xs : List Variable} {Q R : Block → Set Asset → Prop} (hg : AtHand E guard)
    (hk : known.Within E) (hx : Acts false k E x Q) (hy : Acts false k E y R) : Acts false k E (do
      let (b, yes) ← branch guard true known x
      let (d, no) ← branch guard false known y
      record (.branches (some guard) yes no)
      forgetAll xs
      note .resume
      return f b d) fun _ _ => True := by
  intro P w a w' hr hP hs hw
  obtain ⟨⟨b, yes⟩, w₁, h₁, hr⟩ := runs_bind.mp hr
  obtain ⟨⟨d, no⟩, w₂, h₂, hr⟩ := runs_bind.mp hr
  have hP : w.circuit.guards = P := hP.resolve_left nofun
  have left := runs_branch h₁ hx hg hP hs hw hk
  have right := runs_branch h₂ hy hg left.guards left.standard left.within hk
  obtain ⟨F, t, ht, hd, hv⟩ := left.traces
  obtain ⟨G, u, hu, he, _⟩ := right.traces
  obtain ⟨vs, hvs, rfl, rfl⟩ := runs_chosen hr
  rw [hd] at hu
  refine ⟨[.branches (some guard) yes no, ((u.under P).knowing vs).now .resume], E,
    ⟨?_, ?_, left.body.trans right.body, right.standard⟩, trivial⟩
  · show Traces P E w.circuit.phase _ E (w₂.circuit.phase.knowing vs)
    rw [he]
    exact .choose hP left.anew right.anew ht hv hu (hvs E right.within)
  · show w₂.circuit.history ++ _ = _
    rw [right.history, left.history, he]

/-- Steps that start anew are taken out of the history. -/
theorem captured_anew {α : Type} {x : SplitM α} {w w' : Workspace} {a : α} {S : List Step} {P : List Guard}
    {Q : α → Set Asset → Prop} (hx : Acts false k E x Q)
    (hr : Runs k (captured do
      note .resume
      x) w (a, S) w') (hP : w.circuit.guards = P) (hs : w.circuit.Standard) (hw : w.circuit.versions.Within E) :
    ∃ F, Traces P E w.circuit.phase S F w'.circuit.phase ∧ (Step.Anew S ∧ Q a F) ∧
      w'.circuit.history = w.circuit.history ∧ w.circuit.body <+: w'.circuit.body ∧ w'.circuit.Standard := by
  have all : ∀ v, Runs k (note .resume >>= fun _ => x) w a v → ∃ T F, Circuit.Makes P E w.circuit T F v.circuit ∧
      Step.Anew T ∧ Q a F := by
    intro v h
    obtain ⟨_, _, h₁, h⟩ := runs_bind.mp h
    obtain rfl := runs_note.mp h₁
    obtain ⟨T, F, m, hq⟩ := hx P _ a v h (.inr hP) hs hw
    exact ⟨w.circuit.phase.now .resume :: T, F, ⟨(Traces.resume hw).andThen m.traces,
      m.history.trans (List.append_assoc ..), m.body, m.standard⟩, rfl, hq⟩
  exact runs_captured (R := fun T F => Step.Anew T ∧ Q a F) hr all

/-- Public code takes one of two branches that the circuit has no guard for. -/
theorem acts_either {x y : SplitM Block} {α : Type} {f : Block → Block → α} {Q R : Block → Set Asset → Prop}
    (hx : Acts false k E x Q) (hy : ∀ F, E ⊆ F → Acts false k F y R) : Acts false k E (do
      let (b, yes) ← captured x
      let (d, no) ← captured do
        note .resume
        y
      record (.branches none yes no)
      note .resume
      return f b d) fun _ _ => True := by
  intro P w a w' hr hP hs hw
  obtain ⟨⟨b, yes⟩, w₁, h₁, hr⟩ := runs_bind.mp hr
  obtain ⟨⟨d, no⟩, w₂, h₂, hr⟩ := runs_bind.mp hr
  have hP : w.circuit.guards = P := hP.resolve_left nofun
  obtain ⟨F, ht, _, hh, hb, hs'⟩ := hx.captured h₁ (.inr hP) hs hw
  obtain ⟨G, hu, ⟨anew, _⟩, hh', hb', hs''⟩ := captured_anew (hy F ht.subset) h₂ (ht.guards_eq.trans hP) hs'
    (ht.within hw)
  obtain ⟨_, _, h, hr⟩ := runs_bind.mp hr
  obtain rfl := runs_record.mp h
  obtain ⟨_, _, h, hr⟩ := runs_bind.mp hr
  obtain rfl := runs_note.mp h
  obtain ⟨rfl, rfl⟩ := runs_pure.mp hr
  refine ⟨[.branches none yes no, w₂.circuit.phase.now .resume], G, ⟨.paths anew ht hu, ?_, hb.trans hb', hs''⟩, trivial⟩
  show w₂.circuit.history ++ [_] ++ [_] = _
  rw [hh', hh, List.append_assoc]
  rfl

/-! ## Loops -/

/-- Every run of the activity has a trace that consists of items that start anew. -/
def Laps {α : Type} (k : SplitContext) (E : Set Asset) (x : SplitM α) : Prop :=
  ∀ P w a w', Runs k x w a w' → w.circuit.guards = P → w.circuit.Standard → w.circuit.versions.Within E →
    ∃ S F, Circuit.Makes P E w.circuit S F w'.circuit ∧ ∀ s ∈ S, s.IsLap

section Laps

variable {α β : Type} {x : SplitM α} {f : α → SplitM β} {Q : α → Set Asset → Prop}

theorem Laps.bind (hx : Laps k E x) (hf : ∀ a F, E ⊆ F → Laps k F (f a)) : Laps k E (x >>= f) := by
  intro P w b w' h hP hs hw
  obtain ⟨a, v, h₁, h₂⟩ := runs_bind.mp h
  obtain ⟨S, F, m, hS⟩ := hx P w a v h₁ hP hs hw
  obtain ⟨T, G, n, hT⟩ := hf a F m.traces.subset P v b w' h₂ (m.traces.guards_eq.trans hP) m.standard
    (m.traces.within hw)
  refine ⟨S ++ T, G, m.andThen n, fun s h => ?_⟩
  rcases List.mem_append.mp h with h | h
  · exact hS s h
  · exact hT s h

theorem idle_laps (hx : Idle x) : Laps k E x :=
  fun _ w a w' hr _ hs _ => ⟨[], E, (hx.quietly (V := ∅) k w a w' hr).makes nofun hs, nofun⟩

theorem laps_lap (hx : Acts false k E x Q) : Laps k E (lap x) := by
  intro P w b w' hr hP hs hw
  obtain ⟨⟨_, S⟩, v, h₁, hr⟩ := runs_bind.mp hr
  obtain ⟨_, _, h₂, hr⟩ := runs_bind.mp hr
  obtain rfl := runs_record.mp h₂
  obtain ⟨rfl, rfl⟩ := runs_pure.mp hr
  obtain ⟨F, ht, ⟨anew, _⟩, hh, hb, hs'⟩ := captured_anew hx h₁ hP hs hw
  refine ⟨[.item S], F, ⟨.item ht, congrArg (· ++ [.item S]) hh, hb, hs'⟩, fun s h => ?_⟩
  rw [List.mem_singleton.mp h]
  exact ⟨S, rfl, anew⟩

theorem Laps.repeated (hx : Laps k E x) : Acts false k E (repeated x) fun _ _ => True := by
  intro P w b w' hr hP hs hw
  obtain ⟨a, w₁, h₁, hr⟩ := runs_bind.mp hr
  obtain ⟨⟨_, S⟩, w₂, h₂, h₁⟩ := runs_bind.mp h₁
  obtain ⟨_, _, h, h₁⟩ := runs_bind.mp h₁
  obtain rfl := runs_record.mp h
  obtain ⟨rfl, rfl⟩ := runs_pure.mp h₁
  obtain ⟨_, _, h, hr⟩ := runs_bind.mp hr
  obtain rfl := runs_note.mp h
  obtain ⟨rfl, rfl⟩ := runs_pure.mp hr
  obtain ⟨F, ht, laps, hh, hb, hs'⟩ := runs_captured (R := fun T _ => ∀ s ∈ T, s.IsLap) h₂
    fun v h => hx P w _ v h (hP.resolve_left nofun) hs hw
  refine ⟨[.loop S, w₂.circuit.phase.now .resume], F, ⟨.loop laps ht, ?_, hb, hs'⟩, trivial⟩
  show w₂.circuit.history ++ [_] ++ [_] = _
  rw [hh, List.append_assoc]
  rfl

end Laps

end Groups

/-! ## Statements -/

section Statements

variable {k : SplitContext} {D E : Set Asset} {b : BodySplit}

theorem BodySplit.assignedValue_atHand {o : Options} {l r : Expr} {x : Variable} {v : CircuitVar}
    (hr : r.Draws (AtHand E)) (h : assignedValue? o l r = some (x, v)) : AtHand E v := by
  unfold assignedValue? at h
  split at h
  · split at h
    · split at h
      · rename_i hv
        cases h
        exact hr.2.held hv
      · cases h
    · cases h
  · cases h

theorem BodySplit.acts_assign (hb : b.splitter.Sound k D) (hD : D ⊆ E) {i : StmtInfo} {l r : Expr} {op : String}
    {isInput : Bool} (hl : l.Draws (AtHand E)) (hr : r.Draws (AtHand E)) :
    Acts false k E (b.assign i l r op isInput) fun _ _ => True := by
  unfold BodySplit.assign
  refine (hb.publicly E hD l hl).outer.bind fun l F hF _ => idle_restate.acts_then fun _ => ?_
  refine (hb.publicly F (hD.trans hF) r (hr.up hF)).outer.bind fun r G hG hr => ?_
  refine idle_options.acts_then fun o => ?_
  split
  · rename_i x v h
    show Acts false k G (setVersion x v >>= fun _ => note (.hand x v) >>= fun _ => overwrite _ >>= fun _ => _) _
    rw [← bind_assoc]
    exact (Acts.know rfl (assignedValue_atHand hr h)).bind fun _ _ _ _ => Acts.overwrite.bind fun _ _ _ _ =>
      .pure trivial
  · exact Acts.overwrite.bind fun _ _ _ _ => .pure trivial

/-- An optional expression. -/
theorem acts_optionally {f : Expr → SplitM Expr} (hD : D ⊆ E)
    (hf : ∀ E, D ⊆ E → ∀ e : Expr, e.Draws (AtHand E) → Acts true k E (f e) fun e F => e.Draws (AtHand F))
    {e : Option Expr} (he : ∀ x, e = some x → x.Draws (AtHand E)) :
    Acts false k E (e.mapM f) fun _ _ => True := by
  cases e with
  | none => exact .pure trivial
  | some e => exact (hf E hD e (he e rfl)).outer.bind fun _ _ _ _ => .pure trivial

theorem BodySplit.acts_giveBack (hb : b.splitter.Sound k D) (hD : D ⊆ E) {i : StmtInfo} {value : Option Expr}
    (hv : ∀ x, value = some x → x.Draws (AtHand E)) :
    Acts false k E (b.giveBack i value) fun _ _ => True := by
  have result : Quietly (modifyCircuit fun c => { c with hasResult := true }) :=
    quietly_modifyCircuit fun c => .of_same rfl rfl rfl rfl rfl rfl rfl
  unfold giveBack
  split
  · exact (acts_optionally hD hb.publicly hv).bind fun _ _ _ _ => .pure trivial
  · cases value with
    | none => exact .pure trivial
    | some e =>
      refine idle_circuit.acts_then fun c => ?_
      dsimp only
      split
      · exact acts_failed
      · refine result.acts_then fun _ => ?_
        exact (hb.publicly E hD e (hv e rfl)).outer.bind fun _ _ _ _ => .pure trivial

theorem BodySplit.idle_checkLoop {c : LinkContext} {loop : Stmt} {parts : List (List Node)} :
    Idle (checkLoop c loop parts) := by
  refine idle_symbols.bind fun symbols => ?_
  split
  · exact .throw
  · exact .pure

/-- A condition that guards branches. -/
theorem acts_condition {t : Splitter} (ht : t.Sound k D) (hD : D ⊆ E) {α : Type} {e : Expr} (he : e.Draws (AtHand E))
    {f : Versions → CircuitVar → Expr → SplitM α}
    (hf : ∀ known (guard : CircuitVar) e F, E ⊆ F → AtHand F guard → known.Within F →
      Acts false k F (f known guard e) fun _ _ => True) :
    Acts false k E (do
      let known ← versions
      let guard ← t.input e
      let e ← ofExcept (guardValue guard e)
      f known guard e) fun _ _ => True := by
  refine Splitter.acts_versions.bind fun known F hF hk => ?_
  refine (Splitter.acts_input ht (hD.trans hF) (he.up hF)).outer.bind fun guard G hG hg => ?_
  exact Idle.ofExcept.acts_then fun e => hf known guard e G (hF.trans hG) hg (hk.mono hG)

section Branches

variable {c : LinkContext} {i : StmtInfo} {e : Expr} {t f : Block}

theorem acts_splitThen (hb : b.splitter.Sound k D) (hD : D ⊆ E) (h : (Stmt.ifThen i e t none).Draws (AtHand D))
    (yes : ∀ F, D ⊆ F → Acts false k F (t.split b c) fun _ _ => True) :
    Acts false k E ((Stmt.ifThen i e t none).split b c) fun _ _ => True := by
  have he : e.Draws (AtHand E) := Expr.Draws.up h.1 hD
  unfold Stmt.split
  dsimp only
  split
  · exact (Splitter.acts_carryOutWhole hb hD h).outer.bind fun _ _ _ _ => .pure trivial
  · refine (Acts.working (Q := fun _ _ => True) (idle_symbols.acts_then fun symbols => ?_)).bind
      fun _ _ _ _ => .pure trivial
    split
    · refine (hb.publicly E hD e he).outer.bind fun e F hF _ => ?_
      exact (yes F (hD.trans hF)).optional.bind fun _ _ _ _ => .pure trivial
    · exact acts_condition hb hD he fun known guard e F hF hg hk =>
        acts_chooseThen (f := fun t => Stmt.ifThen i e t none) hg hk (yes F (hD.trans hF))

theorem acts_splitElse (hb : b.splitter.Sound k D) (hD : D ⊆ E) (h : (Stmt.ifThen i e t (some f)).Draws (AtHand D))
    (yes : ∀ F, D ⊆ F → Acts false k F (t.split b c) fun _ _ => True)
    (no : ∀ F, D ⊆ F → Acts false k F (f.split b c) fun _ _ => True) :
    Acts false k E ((Stmt.ifThen i e t (some f)).split b c) fun _ _ => True := by
  have he : e.Draws (AtHand E) := Expr.Draws.up h.1 hD
  unfold Stmt.split
  dsimp only
  split
  · exact (Splitter.acts_carryOutWhole hb hD h).outer.bind fun _ _ _ _ => .pure trivial
  · refine (Acts.working (Q := fun _ _ => True) (idle_symbols.acts_then fun symbols => ?_)).bind
      fun _ _ _ _ => .pure trivial
    split
    · refine (hb.publicly E hD e he).outer.bind fun e F hF _ => ?_
      exact acts_either (f := fun t f => Stmt.ifThen i e t (some f)) (yes F (hD.trans hF))
        fun G hG => no G (hD.trans (hF.trans hG))
    · exact acts_condition hb hD he fun known guard e F hF hg hk =>
        acts_chooseElse (f := fun t f => Stmt.ifThen i e t (some f)) hg hk (yes F (hD.trans hF)) (no F (hD.trans hF))

end Branches

mutual

theorem Stmt.acts_split (hb : b.splitter.Sound k D) : ∀ (s : Stmt) (c : LinkContext) (E : Set Asset), D ⊆ E →
    s.Draws (AtHand D) → Acts false k E (s.split b c) fun _ _ => True
  | .assign i l r o x, c, E, hD, h => by
    unfold Stmt.split
    exact (BodySplit.acts_assign hb hD (Expr.Draws.up h.1 hD) (Expr.Draws.up h.2 hD)).working.bind
      fun _ _ _ _ => .pure trivial
  | .ret i e, c, E, hD, h => by
    unfold Stmt.split
    exact (BodySplit.acts_giveBack hb hD fun x hx => (h x hx).up hD).working
  | .eval i e, c, E, hD, h | .require i e, c, E, hD, h => by
    unfold Stmt.split
    exact (hb.publicly E hD e (Expr.Draws.up h hD)).outer.working.bind fun _ _ _ _ => .pure trivial
  | .declare i v e, c, E, hD, h => by
    unfold Stmt.split
    refine idle_options.acts_then fun o => idle_linking.acts_then fun _ => ?_
    exact (acts_optionally hD hb.publicly fun x hx => (h x hx).up hD).working.bind fun _ _ _ _ => .pure trivial
  | .ifThen i e t none, c, E, hD, h =>
    acts_splitThen hb hD h fun F hF => Block.acts_split hb t c F hF h.2
  | .ifThen i e t (some f), c, E, hD, h =>
    acts_splitElse hb hD h (fun F hF => Block.acts_split hb t c F hF h.2.1) fun F hF =>
      Block.acts_split hb f c F hF h.2.2
  | .whileLoop i e body, c, E, hD, h => by
    unfold Stmt.split
    refine idle_checkLoop.acts_then fun _ => ?_
    refine (Laps.repeated ?_).working.bind fun _ _ _ _ => .pure trivial
    refine (laps_lap (hb.publicly E hD e (Expr.Draws.up h.1 hD)).outer).bind fun e F hF => ?_
    exact (laps_lap (Block.acts_split hb body c F (hD.trans hF) h.2)).bind fun _ _ _ => (idle_laps .pure)
  | .doWhile i body e, c, E, hD, h => by
    unfold Stmt.split
    refine idle_checkLoop.acts_then fun _ => ?_
    refine (Laps.repeated ?_).working.bind fun _ _ _ _ => .pure trivial
    refine (laps_lap (Block.acts_split hb body c E hD h.1)).bind fun body F hF => ?_
    refine (idle_laps idle_restate).bind fun _ G hG => ?_
    have hD := hD.trans (hF.trans hG)
    exact (laps_lap (hb.publicly G hD e (Expr.Draws.up h.2 hD)).outer).bind fun _ _ _ => (idle_laps .pure)
  | .forLoop i init e update body, c, E, hD, h => by
    unfold Stmt.split
    refine idle_checkLoop.acts_then fun _ => ?_
    refine (Stmt.acts_splitOptional hb init _ E hD h.1).bind fun first F hF _ => ?_
    have hD := hD.trans hF
    refine (Laps.repeated ?_).working.bind fun _ _ _ _ => .pure trivial
    refine (laps_lap (hb.publicly F hD e (Expr.Draws.up h.2.1 hD)).outer).bind fun e G hG => ?_
    refine (laps_lap (Stmt.acts_splitOptional hb update _ G (hD.trans hG) h.2.2.1)).bind fun last H hH => ?_
    have hD := hD.trans (hG.trans hH)
    exact (laps_lap (Block.acts_split hb body _ H hD h.2.2.2)).bind fun _ _ _ => (idle_laps .pure)
  | .block body, c, E, hD, h => by
    unfold Stmt.split
    exact (Block.acts_split hb body c E hD h).bind fun _ _ _ _ => .pure trivial
  | .seq i ss x, c, E, hD, h => by
    unfold Stmt.split
    exact (Stmt.acts_splitAll hb ss c E hD h).bind fun _ _ _ _ => .pure trivial
  | .comment _, _, _, _, _ | .blank, _, _, _, _ => .throw
  | .breakLoop _, _, _, _, _ | .continueLoop _, _, _, _, _ => .pure trivial
  | .compute .., _, _, _, _ | .enterKey .., _, _, _, _ => .pure trivial

theorem Stmt.acts_splitOptional (hb : b.splitter.Sound k D) : ∀ (s : Option Stmt) (c : LinkContext)
    (E : Set Asset), D ⊆ E → Stmt.OptionalDraws (AtHand D) s →
    Acts false k E (Stmt.splitOptional b c s) fun _ _ => True
  | none, _, _, _, _ => .pure trivial
  | some s, c, E, hD, h => Stmt.acts_split hb s c E hD h

theorem Block.acts_split (hb : b.splitter.Sound k D) : ∀ (body : Block) (c : LinkContext) (E : Set Asset),
    D ⊆ E → body.Draws (AtHand D) → Acts false k E (body.split b c) fun _ _ => True
  | ⟨i, ss, single⟩, c, E, hD, h => by
    unfold Block.split
    exact (Stmt.acts_splitAll hb ss _ E hD h).bind fun _ _ _ _ => .pure trivial

theorem Stmt.acts_splitAll (hb : b.splitter.Sound k D) : ∀ (ss : List Stmt) (c : LinkContext) (E : Set Asset),
    D ⊆ E → Stmt.AllDraws (AtHand D) ss → Acts false k E (Stmt.splitAll b c ss) fun _ _ => True
  | [], _, _, _, _ => .pure trivial
  | s :: ss, c, E, hD, h => by
    unfold Stmt.splitAll
    refine (Stmt.acts_split hb s c E hD h.1).bind fun _ F hF _ => ?_
    exact (Stmt.acts_splitAll hb ss _ F (hD.trans hF) h.2).bind fun _ _ _ _ => .pure trivial

end

end Statements

end Shroud
