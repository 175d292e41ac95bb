import Shroud.Proofs.Traces

/-!
# Activities and their traces

`Acts inner k E x Q` says that every run of `x` has a trace: the steps it adds to the history tell how the
circuit got from its phase before the run to the one after it. Starting with `E` at hand, the result and what is
at hand afterwards are related by `Q`.

**Inner** activities are parts of statements; they are at home under any guards. The others work on statements of
public code, where only public guards are in force.

**Rules.** There is one rule for each way to combine activities, so that the trace of the splitter is put together
along its definition.
-/

namespace Shroud

/-! ## Phases of circuits -/

theorem CircuitStmt.guardsAfter_append (gs : List Guard) (ss ts : List CircuitStmt) :
    guardsAfter gs (ss ++ ts) = guardsAfter (guardsAfter gs ss) ts := by
  induction ss generalizing gs with
  | nil => rfl
  | cons s ss ih => exact ih (s.guards gs)

theorem CircuitStmt.allLines_append (ss ts : List CircuitStmt) : allLines (ss ++ ts) = allLines ss ++ allLines ts := by
  induction ss with
  | nil => rfl
  | cons s ss ih => simp only [List.cons_append, allLines, ih, List.append_assoc]

theorem CircuitStmt.IsQuiet.guards {s : CircuitStmt} (h : s.IsQuiet) (gs : List Guard) : s.guards gs = gs := by
  cases s with
  | comment | call | encrypt | encryptShared | equal => rfl
  | block | declare | openGuard | closeGuard => exact h.elim

/-- What a quiet statement is about. -/
theorem CircuitStmt.IsQuiet.lines {s l : CircuitStmt} (h : s.IsQuiet) (hl : l ∈ s.lines) :
    l.declared? = none ∧ l.constrained = s.constrained := by
  cases s with
  | comment | call => cases hl
  | encrypt | encryptShared | equal =>
    obtain rfl := List.mem_singleton.mp hl
    exact ⟨rfl, rfl⟩
  | block | declare | openGuard | closeGuard => exact h.elim

theorem CircuitStmt.mem_allLines {ss : List CircuitStmt} {l : CircuitStmt} :
    l ∈ allLines ss ↔ ∃ s ∈ ss, l ∈ s.lines := by
  induction ss with
  | nil => simp [allLines]
  | cons s ss ih => simp [allLines, ih]

theorem CircuitStmt.guardsAfter_quiet (gs : List Guard) {ss : List CircuitStmt} (h : ∀ s ∈ ss, s.IsQuiet) :
    guardsAfter gs ss = gs := by
  induction ss with
  | nil => rfl
  | cons s ss ih =>
    rw [guardsAfter, (h s List.mem_cons_self).guards]
    exact ih fun t ht => h t (List.mem_cons_of_mem _ ht)

namespace Circuit

variable {V : Set CircuitVar} {E : Set Asset} {c d : Circuit}

theorem registers_phase {v : CircuitVar} (h : c.Registers v) : c.phase.Registers v := by
  rcases h with h | h | h | h
  · exact .inl ⟨.secret, nofun, h⟩
  · exact .inl ⟨.input, nofun, h⟩
  · exact .inl ⟨.output, nofun, h⟩
  · exact .inr h

theorem Quiet.supply (h : c.Quiet V d) (r : Series) : (c.supply r).Grows (d.supply r) := by
  cases r with
  | secret => exact h.secrets
  | temporary =>
    show c.temporaries.Grows d.temporaries
    rw [h.temporaries]
    exact .refl _
  | input => exact h.inputs
  | output => exact h.outputs

theorem Quiet.phase (h : c.Quiet V d) (hV : ∀ v ∈ V, .value v ∈ E) : c.phase.Quiet E d.phase := by
  obtain ⟨more, hb, hq⟩ := h.body
  refine ⟨?_, h.versions, ⟨CircuitStmt.allLines more, ?_, fun l hl => ?_⟩, fun r => (h.supply r).count,
    fun r => (h.supply r).vars, congrArg NameSupply.vars h.temporaries⟩
  · show CircuitStmt.guardsAfter [] d.body = CircuitStmt.guardsAfter [] c.body
    rw [hb, CircuitStmt.guardsAfter_append, CircuitStmt.guardsAfter_quiet _ fun s hs => (hq s hs).1]
  · show CircuitStmt.allLines d.body = CircuitStmt.allLines c.body ++ CircuitStmt.allLines more
    rw [hb, CircuitStmt.allLines_append]
  · obtain ⟨s, hs, hl⟩ := CircuitStmt.mem_allLines.mp hl
    obtain ⟨none, same⟩ := (hq s hs).1.lines hl
    refine ⟨none, fun v hv => ?_⟩
    exact ((hq s hs).2 v (same ▸ hv)).imp (hV v) registers_phase

theorem Quiet.standard (h : c.Quiet V d) (hc : c.Standard) : d.Standard :=
  fun r => ⟨(h.supply r).base.trans (hc r).1, (h.supply r).role.trans (hc r).2⟩

theorem phase_emit (c : Circuit) (s : CircuitStmt) : Circuit.phase { c with body := c.body ++ [s] } =
    { c.phase with guards := s.guards c.guards, lines := c.phase.lines ++ s.lines } := by
  unfold Circuit.phase Circuit.guards
  simp only [CircuitStmt.guardsAfter_append, CircuitStmt.allLines_append, CircuitStmt.guardsAfter,
    CircuitStmt.allLines, List.append_nil]
  rfl

/-- The activity that led from the first circuit to the second has a trace. -/
structure Makes (P : List Guard) (E : Set Asset) (c : Circuit) (S : List Step) (F : Set Asset)
    (d : Circuit) : Prop where
  traces : Traces P E c.phase S F d.phase
  history : d.history = c.history ++ S
  body : c.body <+: d.body
  standard : d.Standard

theorem Makes.andThen {P : List Guard} {E F G : Set Asset} {e : Circuit} {S T : List Step}
    (h : Makes P E c S F d) (k : Makes P F d T G e) : Makes P E c (S ++ T) G e :=
  ⟨h.traces.andThen k.traces, by rw [k.history, h.history, List.append_assoc], h.body.trans k.body, k.standard⟩

theorem Quiet.makes {P : List Guard} (h : c.Quiet V d) (hV : ∀ v ∈ V, .value v ∈ E) (hc : c.Standard) :
    Makes P E c [] E d := by
  obtain ⟨more, hb, _⟩ := h.body
  exact ⟨.quiet (h.phase hV), by rw [h.history, List.append_nil], ⟨more, hb.symm⟩, h.standard hc⟩

theorem Makes.refl {P : List Guard} (hc : c.Standard) : Makes P E c [] E c := (Quiet.refl (V := ∅) c).makes nofun hc

end Circuit

/-! ## Rules -/

namespace SplitM

variable {α β : Type} {inner : Bool} {k : SplitContext} {E : Set Asset} {x : SplitM α} {f : α → SplitM β}
  {Q : α → Set Asset → Prop} {R : β → Set Asset → Prop}

/-- Every run of the activity has a trace. -/
def Acts (inner : Bool) (k : SplitContext) (E : Set Asset) (x : SplitM α)
    (Q : α → Set Asset → Prop) : Prop :=
  ∀ P w a w', Runs k x w a w' → (inner = true ∨ w.circuit.guards = P) → w.circuit.Standard →
    w.circuit.versions.Within E → ∃ S F, Circuit.Makes P E w.circuit S F w'.circuit ∧ Q a F

theorem Acts.bind (hx : Acts inner k E x Q) (hf : ∀ a F, E ⊆ F → Q a F → Acts inner k F (f a) R) :
    Acts inner k E (x >>= f) R := by
  intro P w b w' h hP hs hw
  obtain ⟨a, v, h₁, h₂⟩ := runs_bind.mp h
  obtain ⟨S, F, m, hq⟩ := hx P w a v h₁ hP hs hw
  have hP' : inner = true ∨ v.circuit.guards = P := hP.imp id fun h => m.traces.guards_eq.trans h
  obtain ⟨T, G, n, hr⟩ := hf a F m.traces.subset hq P v b w' h₂ hP' m.standard (m.traces.within hw)
  exact ⟨S ++ T, G, m.andThen n, hr⟩

theorem Acts.imp {Q' : α → Set Asset → Prop} (hx : Acts inner k E x Q) (h : ∀ a F, E ⊆ F → Q a F → Q' a F) :
    Acts inner k E x Q' := by
  intro P w a w' hr hP hs hw
  obtain ⟨S, F, m, hq⟩ := hx P w a w' hr hP hs hw
  exact ⟨S, F, m, h a F m.traces.subset hq⟩

theorem Acts.gives {P : α → Prop} (hx : Acts inner k E x Q) (h : Gives P x) :
    Acts inner k E x fun a F => Q a F ∧ P a := by
  intro G w a w' hr hG hs hw
  obtain ⟨S, F, m, hq⟩ := hx G w a w' hr hG hs hw
  exact ⟨S, F, m, hq, h k w a w' hr⟩

/-- Inner activities are parts of statements. -/
theorem Acts.outer (hx : Acts true k E x Q) : Acts inner k E x Q :=
  fun P w a w' hr _ hs hw => hx P w a w' hr (.inl rfl) hs hw

theorem QuietlyOn.acts (hx : Quietly x) (h : ∀ w a w', Runs k x w a w' → Q a E) : Acts inner k E x Q :=
  fun _ w a w' hr _ hs _ => ⟨[], E, (hx k w a w' hr).makes nofun hs, h w a w' hr⟩

theorem Idle.acts (hx : Idle x) (h : ∀ w a w', Runs k x w a w' → Q a E) : Acts inner k E x Q := hx.quietly.acts h

/-- What enters or leaves the circuit can help to compute values. -/
theorem Obtains.acts {g : α → CircuitVar} (hx : Obtains g x) :
    Acts inner k E x fun a F => AtHand F (.aid (g a).read) := by
  intro P w a w' hr _ hs _
  obtain ⟨q, hv⟩ := hx k w a w' hr
  obtain ⟨more, hb, _⟩ := q.body
  refine ⟨[], insert (.aid (g a).read) E, ⟨.aid (q.phase nofun) (Circuit.registers_phase hv), ?_, ⟨more, hb.symm⟩,
    q.standard hs⟩, .aid (Set.mem_insert ..)⟩
  rw [q.history, List.append_nil]

/-- An activity whose result is of no importance. -/
theorem QuietlyOn.acts_then (hx : Quietly x) (hf : ∀ a, Acts inner k E (f a) R) : Acts inner k E (x >>= f) R := by
  intro P w b w' h hP hs hw
  obtain ⟨a, v, h₁, h₂⟩ := runs_bind.mp h
  have q := hx k w a v h₁
  have m : Circuit.Makes P E w.circuit [] E v.circuit := q.makes nofun hs
  have hP' : inner = true ∨ v.circuit.guards = P := hP.imp id fun h => m.traces.guards_eq.trans h
  obtain ⟨T, G, n, hr⟩ := hf a P v b w' h₂ hP' m.standard (m.traces.within hw)
  exact ⟨T, G, m.andThen n, hr⟩

theorem Idle.acts_then (hx : Idle x) (hf : ∀ a, Acts inner k E (f a) R) : Acts inner k E (x >>= f) R :=
  hx.quietly.acts_then hf

theorem Acts.pure {a : α} (h : Q a E) : Acts inner k E (pure a) Q := by
  refine Idle.pure.acts fun w b w' hr => ?_
  obtain ⟨rfl, _⟩ := runs_pure.mp hr
  exact h

theorem Acts.throw {e : Error} : Acts inner k E (throw e) Q := fun _ _ _ _ hr => (runs_throw hr).elim

theorem acts_failed {e : Error} : Acts inner k E (throw e >>= f) R :=
  Acts.throw.bind (Q := fun _ _ => False) fun _ _ _ h => h.elim

theorem Acts.ofExcept {r : Except Error α} (h : ∀ a, r = .ok a → Q a E) : Acts inner k E (ofExcept r) Q :=
  Idle.ofExcept.acts fun _ _ _ hr => h _ (runs_ofExcept.mp hr).1

theorem Acts.put {e : Expr} {Q : Expr → Set Asset → Prop} (h : Q e E) : Acts inner k E (put e) Q :=
  idle_put.acts fun _ _ _ hr => runs_put hr ▸ h

/-! ### Lists -/

/-- The property is kept when more is at hand. -/
def Lasting (Q : α → Set Asset → Prop) : Prop := ∀ a E F, E ⊆ F → Q a E → Q a F

theorem Acts.mapM {as : List α} {f : α → SplitM β} (hR : Lasting R)
    (h : ∀ a ∈ as, ∀ F, E ⊆ F → Acts inner k F (f a) R) :
    Acts inner k E (as.mapM f) fun bs F => ∀ b ∈ bs, R b F := by
  induction as generalizing E with
  | nil =>
    rw [List.mapM_nil]
    exact .pure nofun
  | cons a as ih =>
    rw [List.mapM_cons]
    refine (h a List.mem_cons_self E subset_rfl).bind fun b F hF hb => ?_
    refine (ih fun a ha G hG => h a (List.mem_cons_of_mem _ ha) G (hF.trans hG)).bind fun bs G hG hbs => ?_
    refine .pure fun b' hb' => ?_
    rcases List.mem_cons.mp hb' with rfl | hb'
    · exact hR b' F G hG hb
    · exact hbs b' hb'

theorem Acts.forM {as : List α} {f : α → SplitM PUnit}
    (h : ∀ a ∈ as, ∀ F, E ⊆ F → Acts inner k F (f a) fun _ _ => True) :
    Acts inner k E (as.forM f) fun _ _ => True := by
  induction as generalizing E with
  | nil => exact .pure trivial
  | cons a as ih =>
    refine (h a List.mem_cons_self E subset_rfl).bind fun _ F hF _ => ?_
    exact ih fun a ha G hG => h a (List.mem_cons_of_mem _ ha) G (hF.trans hG)

theorem Acts.foldlM {as : List α} {f : β → α → SplitM β}
    (h : ∀ b a F, E ⊆ F → R b F → Acts inner k F (f b a) R) {b : β} (hb : R b E) :
    Acts inner k E (as.foldlM f b) R := by
  induction as generalizing E b with
  | nil =>
    rw [List.foldlM_nil]
    exact .pure hb
  | cons a as ih =>
    rw [List.foldlM_cons]
    refine (h b a E subset_rfl hb).bind fun c F hF hc => ?_
    exact ih (fun b a G hG hb => h b a G (hF.trans hG) hb) hc

/-! ### Events -/

section Events

variable {w w' : Workspace} {u : Unit} {e : Event} {y : Variable} {v : CircuitVar} {vs : Versions}

theorem runs_record {s : Step} : Runs k (record s) w u w' ↔
    { w with circuit := { w.circuit with history := w.circuit.history ++ [s] } } = w' := runs_modifyCircuit

theorem runs_note : Runs k (note e) w u w' ↔
    { w with circuit := { w.circuit with history := w.circuit.history ++ [w.circuit.phase.now e] } } = w' := by
  unfold note
  simp only [runs_bind, runs_circuit, runs_record]
  constructor
  · rintro ⟨_, _, ⟨rfl, rfl⟩, rfl⟩
    rfl
  · rintro rfl
    exact ⟨_, _, ⟨rfl, rfl⟩, rfl⟩

theorem runs_setVersions : Runs k (setVersions vs) w u w' ↔
    { w with circuit := { w.circuit with versions := vs } } = w' := runs_modifyCircuit

theorem runs_setVersion : Runs k (setVersion y v) w u w' ↔
    { w with circuit := { w.circuit with versions := w.circuit.versions.set y v } } = w' := by
  unfold setVersion
  simp only [runs_bind, runs_versions, runs_setVersions]
  constructor
  · rintro ⟨_, _, ⟨rfl, rfl⟩, rfl⟩
    rfl
  · rintro rfl
    exact ⟨_, _, ⟨rfl, rfl⟩, rfl⟩

/-- An event that changes nothing but the history. -/
theorem Acts.note (h : ∀ P s, s.known.Within E → Traces P E s [s.now e] E s) :
    Acts inner k E (note e) fun _ _ => True := by
  intro P w a w' hr _ hs hw
  obtain rfl := runs_note.mp hr
  exact ⟨_, E, ⟨h P w.circuit.phase hw, rfl, List.prefix_rfl, hs⟩, trivial⟩

theorem Acts.resume (h : vs.Within E) : Acts inner k E (resume vs) fun _ _ => True := by
  intro P w a w' hr _ hs hw
  obtain ⟨_, v, h₁, h₂⟩ := runs_bind.mp hr
  obtain rfl := runs_setVersions.mp h₁
  obtain rfl := runs_note.mp h₂
  exact ⟨_, E, ⟨.resume h, rfl, List.prefix_rfl, hs⟩, trivial⟩

/-- A variable gets a version. -/
theorem Acts.know (he : e.origin? = some (y, v)) (hv : AtHand E v) : Acts inner k E (do
    setVersion y v
    SplitM.note e) fun _ _ => True := by
  intro P w a w' hr _ hs hw
  obtain ⟨_, _, h₁, h₂⟩ := runs_bind.mp hr
  obtain rfl := runs_setVersion.mp h₁
  obtain rfl := runs_note.mp h₂
  refine ⟨_, E, ⟨.know he hv (fun z => Versions.current?_set) (hw.set hv), rfl, List.prefix_rfl, hs⟩, trivial⟩

theorem Acts.forgetAll {xs : List Variable} : Acts inner k E (forgetAll xs) fun _ _ => True := by
  intro P w a w' hr _ hs hw
  obtain ⟨_, _, h₁, h₂⟩ := runs_bind.mp hr
  obtain ⟨rfl, rfl⟩ := runs_versions.mp h₁
  obtain rfl := runs_setVersions.mp h₂
  exact ⟨[], E, ⟨.lose (fun _ _ => Versions.forgetAll_le xs _) (hw.forgetAll xs),
    (List.append_nil _).symm, List.prefix_rfl, hs⟩, trivial⟩

/-- Public code writes variables that have no versions. -/
theorem runs_writes {P : List Guard} {w w' : Workspace} {u : PUnit} {xs : List Variable}
    (hr : Runs k (xs.forM fun x => SplitM.note (.write x)) w u w')
    (unknown : ∀ x ∈ xs, w.circuit.versions.current? x = none) (hs : w.circuit.Standard) :
    ∃ S, Circuit.Makes P E w.circuit S E w'.circuit := by
  induction xs generalizing w with
  | nil =>
    obtain ⟨_, rfl⟩ := runs_pure.mp hr
    exact ⟨[], .refl, (List.append_nil _).symm, List.prefix_rfl, hs⟩
  | cons x xs ih =>
    obtain ⟨_, v, h₁, h₂⟩ := runs_bind.mp hr
    obtain ⟨here, others⟩ := List.forall_mem_cons.mp unknown
    have noted : Circuit.Makes P E w.circuit [w.circuit.phase.now (.write x)] E v.circuit ∧
        v.circuit.versions = w.circuit.versions := by
      rw [← runs_note.mp h₁]
      exact ⟨⟨.write here, rfl, List.prefix_rfl, hs⟩, rfl⟩
    obtain ⟨S, makes⟩ := ih h₂ (noted.2 ▸ others) noted.1.standard
    exact ⟨_, noted.1.andThen makes⟩

/-- What public code writes is forgotten first. -/
theorem Acts.overwrite {xs : List Variable} : Acts inner k E (overwrite xs) fun _ _ => True := by
  intro P w a w' hr hP hs hw
  obtain ⟨_, v, h₁, h₂⟩ := runs_bind.mp hr
  obtain ⟨S, F, forgets, _⟩ := Acts.forgetAll P w _ v h₁ hP hs hw
  obtain ⟨_, _, h₃, h₄⟩ := runs_bind.mp h₁
  obtain ⟨rfl, rfl⟩ := runs_versions.mp h₃
  obtain rfl := runs_setVersions.mp h₄
  obtain ⟨T, writes⟩ := runs_writes h₂ (fun x => Versions.current?_forgetAll) forgets.standard
  exact ⟨S ++ T, F, forgets.andThen writes, trivial⟩

end Events

/-! ### Groups -/

section Groups

variable {w w' : Workspace} {P : List Guard} {a : α} {S : List Step}

/-- The steps of a run are taken out of the history. -/
theorem runs_captured {R : List Step → Set Asset → Prop} (hr : Runs k (captured x) w (a, S) w')
    (hx : ∀ v, Runs k x w a v → ∃ T F, Circuit.Makes P E w.circuit T F v.circuit ∧ R T F) :
    ∃ F, Traces P E w.circuit.phase S F w'.circuit.phase ∧ R S F ∧ w'.circuit.history = w.circuit.history ∧
      w.circuit.body <+: w'.circuit.body ∧ w'.circuit.Standard := by
  obtain ⟨_, _, h, hr⟩ := runs_bind.mp hr
  obtain ⟨rfl, rfl⟩ := runs_circuit.mp h
  obtain ⟨b, v, hx', hr⟩ := runs_bind.mp hr
  obtain ⟨_, _, h, hr⟩ := runs_bind.mp hr
  obtain ⟨rfl, rfl⟩ := runs_circuit.mp h
  obtain ⟨_, _, h, hr⟩ := runs_bind.mp hr
  obtain rfl := runs_modifyCircuit.mp h
  obtain ⟨heq, rfl⟩ := runs_pure.mp hr
  cases heq
  obtain ⟨T, F, m, hq⟩ := hx v hx'
  rw [m.history, List.drop_left]
  exact ⟨F, m.traces, hq, List.take_left, m.body, m.standard⟩

theorem Acts.captured (hx : Acts inner k E x Q) (hr : Runs k (captured x) w (a, S) w')
    (hP : inner = true ∨ w.circuit.guards = P) (hs : w.circuit.Standard) (hw : w.circuit.versions.Within E) :
    ∃ F, Traces P E w.circuit.phase S F w'.circuit.phase ∧ Q a F ∧ w'.circuit.history = w.circuit.history ∧
      w.circuit.body <+: w'.circuit.body ∧ w'.circuit.Standard :=
  runs_captured (R := fun _ F => Q a F) hr fun v h => hx P w a v h hP hs hw

/-- The steps of an activity become one. -/
theorem Acts.grouped {step : List Step → Step}
    (h : ∀ {P F s S t}, Traces P E s S F t → Traces P E s [step S] F t) (hx : Acts inner k E x Q) :
    Acts inner k E (grouped step x) Q := by
  intro P w a w' hr hP hs hw
  obtain ⟨⟨b, S⟩, v, h₁, hr⟩ := runs_bind.mp hr
  obtain ⟨_, _, h₂, hr⟩ := runs_bind.mp hr
  obtain rfl := runs_record.mp h₂
  obtain ⟨rfl, rfl⟩ := runs_pure.mp hr
  obtain ⟨F, ht, hq, hh, hb, hs'⟩ := hx.captured h₁ hP hs hw
  exact ⟨[step S], F, ⟨h ht, congrArg (· ++ [step S]) hh, hb, hs'⟩, hq⟩

/-- The steps of an activity become one, after which what is known is said again. -/
theorem Acts.grouped_resume {step : List Step → Step} {f : α → SplitM β}
    (h : ∀ {P F s S t}, Traces P E s S F t → Traces P E s [step S, t.now .resume] F t)
    (hx : Acts inner k E x Q) (hf : ∀ a F, E ⊆ F → Q a F → Acts inner k F (f a) R) :
    Acts inner k E (do
      let a ← SplitM.grouped step x
      SplitM.note .resume
      f a) R := by
  intro P w b w' hr hP hs hw
  obtain ⟨a, v, h₁, hr⟩ := runs_bind.mp hr
  obtain ⟨⟨_, S⟩, v', h₂, h₁⟩ := runs_bind.mp h₁
  obtain ⟨_, _, h₃, h₁⟩ := runs_bind.mp h₁
  obtain rfl := runs_record.mp h₃
  obtain ⟨rfl, rfl⟩ := runs_pure.mp h₁
  obtain ⟨_, u, h₄, hr⟩ := runs_bind.mp hr
  obtain rfl := runs_note.mp h₄
  obtain ⟨F, ht, hq, hh, hb, hs'⟩ := hx.captured h₂ hP hs hw
  have m : Circuit.Makes P E w.circuit [step S, v'.circuit.phase.now .resume] F
      { v'.circuit with history := v'.circuit.history ++ [step S] ++ [v'.circuit.phase.now .resume] } :=
    ⟨h ht, by rw [hh, List.append_assoc]; rfl, hb, hs'⟩
  have hP' : inner = true ∨ v'.circuit.guards = P := hP.imp id fun h => ht.guards_eq.trans h
  obtain ⟨T, G, n, hr⟩ := hf _ F ht.subset hq P _ b w' hr hP' m.standard (ht.within hw)
  exact ⟨_, G, m.andThen n, hr⟩

theorem Acts.optional (hx : Acts inner k E x Q) : Acts inner k E (optional x) Q :=
  .grouped_resume (fun h => .paths trivial h .refl) hx fun _ _ _ hq => .pure hq

/-- A scope of versions. -/
theorem Acts.inScope {isCall : Bool} {visible : Variable → Bool} (hx : Acts inner k E x Q) :
    Acts inner k E (inScope isCall visible x) Q := by
  intro P w b w' hr hP hs hw
  obtain ⟨_, _, h, hr⟩ := runs_bind.mp hr
  obtain ⟨rfl, rfl⟩ := runs_versions.mp h
  obtain ⟨⟨a, S⟩, v, h₁, hr⟩ := runs_bind.mp hr
  obtain ⟨_, _, h, hr⟩ := runs_bind.mp hr
  obtain ⟨rfl, rfl⟩ := runs_versions.mp h
  obtain ⟨_, _, h, hr⟩ := runs_bind.mp hr
  obtain rfl := runs_record.mp h
  obtain ⟨_, _, h, hr⟩ := runs_bind.mp hr
  obtain ⟨_, _, h₂, h₃⟩ := runs_bind.mp h
  obtain rfl := runs_setVersions.mp h₂
  obtain rfl := runs_note.mp h₃
  obtain ⟨rfl, rfl⟩ := runs_pure.mp hr
  obtain ⟨F, ht, hq, hh, hb, hs'⟩ := hx.captured h₁ hP hs hw
  let vs := v.circuit.versions.leave w.circuit.versions visible
  have hv : vs.Within F := (ht.within hw).leave (hw.mono ht.subset)
  refine ⟨[.scope isCall ((v.circuit.versions.entries.map (·.1)).filter visible) S,
    (v.circuit.phase.knowing vs).now .resume], F, ⟨.scope ht hv, ?_, hb, hs'⟩, hq⟩
  show v.circuit.history ++ [_] ++ [_] = w.circuit.history ++ [_, _]
  rw [hh, List.append_assoc]
  rfl

/-- A block of the circuit. -/
theorem Acts.indented {name : String} (hx : Acts inner k E x Q) : Acts inner k E (indented name x) Q := by
  intro P w b w' hr hP hs hw
  obtain ⟨_, _, h, hr⟩ := runs_bind.mp hr
  obtain ⟨rfl, rfl⟩ := runs_circuit.mp h
  obtain ⟨a, v, h₁, hr⟩ := runs_bind.mp hr
  obtain ⟨_, _, h, hr⟩ := runs_bind.mp hr
  obtain rfl := runs_modifyCircuit.mp h
  obtain ⟨rfl, rfl⟩ := runs_pure.mp hr
  obtain ⟨S, F, m, hq⟩ := hx P w a v h₁ hP hs hw
  obtain ⟨more, hb⟩ := m.body
  have hd : v.circuit.body.take w.circuit.body.length ++ [.block name (v.circuit.body.drop w.circuit.body.length)] =
      w.circuit.body ++ [.block name more] := by
    rw [← hb, List.take_left, List.drop_left]
  have hp : Circuit.phase { v.circuit with body := w.circuit.body ++ [.block name more] } = v.circuit.phase := by
    unfold Circuit.phase Circuit.guards
    simp only [← hb, CircuitStmt.guardsAfter_append, CircuitStmt.allLines_append,
      CircuitStmt.guardsAfter, CircuitStmt.guards, CircuitStmt.allLines, CircuitStmt.lines,
      List.append_nil]
    rfl
  refine ⟨S, F, ⟨?_, m.history, ?_, m.standard⟩, hq⟩
  · show Traces P E w.circuit.phase S F (Circuit.phase { v.circuit with body := _ })
    rw [hd, hp]
    exact m.traces
  · show _ <+: _ ++ _
    rw [hd]
    exact List.prefix_append ..

/-- A guard is opened. -/
theorem opens {s t : Phase} {cond : CircuitVar} {holds : Bool} {gs : List Guard} (hc : .value cond ∈ E)
    (h : Traces P E (Phase.under { s with lines := s.lines ++ [.openGuard cond holds] } gs) S F t) :
    Traces P E (s.under gs) S F t := by
  have line : (s.under gs).Quiet E (Phase.under { s with lines := s.lines ++ [.openGuard cond holds] } gs) :=
    .line rfl (List.forall_mem_singleton.mpr hc)
  exact (Traces.quiet line).andThen h

/-- A guard of the circuit that is not a public one. -/
theorem Acts.guarded {cond : CircuitVar} {holds : Bool} (hc : .value cond ∈ E) (hx : Acts true k E x Q) :
    Acts inner k E (guarded cond holds x) Q := by
  intro P w b w' hr hP hs hw
  obtain ⟨_, _, h, hr⟩ := runs_bind.mp hr
  obtain rfl := runs_modifyCircuit.mp h
  obtain ⟨a, v, h₁, hr⟩ := runs_bind.mp hr
  obtain ⟨_, _, h, hr⟩ := runs_bind.mp hr
  obtain rfl := runs_modifyCircuit.mp h
  obtain ⟨rfl, rfl⟩ := runs_pure.mp hr
  obtain ⟨S, F, m, hq⟩ := hx P _ a v h₁ (.inl rfl) hs hw
  have h := m.traces
  rw [Circuit.phase_emit] at h
  have closed : Circuit.phase { v.circuit with body := v.circuit.body ++ [.closeGuard] } =
      v.circuit.phase.under w.circuit.phase.guards := by
    have hg : v.circuit.guards = w.circuit.phase.guards ++ [⟨cond.name, holds⟩] := h.guards_eq
    rw [Circuit.phase_emit]
    simp only [CircuitStmt.guards, CircuitStmt.lines, List.append_nil, hg, List.dropLast_concat]
    rfl
  refine ⟨S, F, ⟨?_, m.history, ?_, m.standard⟩, hq⟩
  · show Traces P E w.circuit.phase S F (Circuit.phase { v.circuit with body := _ })
    rw [closed]
    exact .under (opens hc h)
  · exact ((List.prefix_append ..).trans m.body).trans (List.prefix_append ..)

theorem Acts.working {c : LinkContext} {s : Option Stmt} (hx : Acts inner k E x Q) :
    Acts inner k E (working c s x) fun p F => Q p.1 F := by
  refine (idle_modify fun _ => by rfl).acts_then fun _ => hx.bind fun a F _ ha => idle_draft?.acts_then fun d => ?_
  cases d with
  | none => exact .throw
  | some d => exact (idle_modify fun _ => by rfl).acts_then fun _ => .pure ha

theorem Acts.within {c : LinkContext} {s : Stmt} (hx : Acts inner k E x Q) : Acts inner k E (within c s x) Q :=
  hx.working.bind fun _ _ _ ha => idle_modifyDraft.acts_then fun _ => .pure ha

end Groups

end SplitM

end Shroud
