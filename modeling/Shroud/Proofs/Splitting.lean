import Shroud.Proofs.Acts

/-!
# The trace of the splitter

Every activity of the splitter has a trace. The activities refer to each other, so the rules are proved for one
level of `Splitter.bounded` from those for the level below it: `Splitter.Sound` collects what is known about the
three activities, and `Splitter.bounded_sound` ties the knot.

**Circuit variables.** An expression over what is at hand is turned into one over what is at hand afterwards. The
bodies of functions that become part of a circuit mention only what was at hand from the beginning.
-/

namespace Shroud

open SplitM

/-- The bodies of functions are over these circuit variables. -/
def SplitContext.Draws (k : SplitContext) (Q : Asset → Prop) : Prop :=
  ∀ f ∈ k.callees, ∀ b, f.body = some b → b.Draws Q

/-- The activities have traces, with anything at hand that contains `D`. -/
structure Splitter.Sound (k : SplitContext) (D : Set Asset) (t : Splitter) : Prop where
  publicly : ∀ E, D ⊆ E → ∀ e : Expr, e.Draws (AtHand E) →
    Acts true k E (t.publicly e) fun e F => e.Draws (AtHand F)
  privately : ∀ E, D ⊆ E → ∀ e : Expr, e.Draws (AtHand E) →
    Acts true k E (t.privately e) fun e F => e.Draws (AtHand F)
  carryOut : ∀ E, D ⊆ E → ∀ results c (b : Block), b.Draws (AtHand E) →
    Acts true k E (t.carryOut results c b) fun _ _ => True
  inner : t.Inner

section Draws

variable {E F : Set Asset}

theorem Expr.Draws.up {e : Expr} (h : e.Draws (AtHand E)) (hE : E ⊆ F) : e.Draws (AtHand F) :=
  Expr.Draws.mono (fun _ => AtHand.mono hE) e h

theorem Block.Draws.up {b : Block} (h : b.Draws (AtHand E)) (hE : E ⊆ F) : b.Draws (AtHand F) :=
  Block.Draws.mono (fun _ => AtHand.mono hE) b h

theorem Expr.lasting_draws : Lasting fun (e : Expr) F => e.Draws (AtHand F) := fun _ _ _ hE h => h.up hE

/-- The value of an output or a temporary is the one it was made from. -/
theorem CircuitVar.held_draws {Q : Asset → Prop} {v u : CircuitVar} {e : Expr} (hs : v.source = some e)
    (he : e.Draws Q) (hu : v.held? = some u) : Q u := by
  unfold CircuitVar.held? at hu
  rw [hs] at hu
  split at hu
  · rename_i plain _ _ heq
    cases heq
    exact Expr.Draws.circuitValue he.1 hu
  · rename_i heq
    cases heq
    exact he.circuitValue hu
  · cases hu

/-- The place of a variable in public code. -/
theorem CircuitVar.location_draws {Q : Asset → Prop} {v : CircuitVar} {p : Expr}
    (hv : Q v) (h : v.location = .ok p) : p.Draws Q := by
  unfold CircuitVar.location at h
  split at h
  · rename_i e heq
    cases h
    unfold CircuitVar.constant? at heq
    split at heq
    · split at heq <;> cases heq <;> trivial
    · cases heq
  · split at h
    · cases h
      exact ⟨trivial, hv⟩
    · cases h

end Draws

/-! ## Names -/

section Names

variable {inner : Bool} {k : SplitContext} {E : Set Asset} {w w' : Workspace}

/-- A value is declared. -/
theorem acts_declare {t : Ty} {e : Expr} {suffix : String} (he : e.Draws (AtHand E)) (hi : e.IsInner) :
    Acts inner k E (do
      let v ← freshTemporary t e suffix
      emit (.declare v e)
      return v) fun v F => AtHand F v := by
  intro P w v w' hr _ hs hw
  obtain ⟨_, _, h, hr⟩ := runs_bind.mp hr
  obtain ⟨rfl, rfl⟩ := (runs_handOut (fun c => c.temporaries.fresh t (some e) suffix)
    (fun s c => { c with temporaries := s })).mp h
  obtain ⟨_, _, h, hr⟩ := runs_bind.mp hr
  obtain rfl := runs_modifyCircuit.mp h
  obtain ⟨rfl, rfl⟩ := runs_pure.mp hr
  let v := (w.circuit.temporaries.fresh t (some e) suffix).1
  have bears : v.Bears .temporary w.circuit.temporaries.count :=
    NameSupply.fresh_bears (hs .temporary).1 t (some e) suffix
  refine ⟨[], insert (.value v) E, ⟨?_, (List.append_nil _).symm, List.prefix_append .., ?_⟩, ?_⟩
  · refine .declare ⟨NameSupply.add_mem .., _, bears, Nat.le_refl _, Nat.lt_succ_self _⟩ (hs .temporary).2 he ?_ rfl
      ?_ ?_ ?_ hi
    · show CircuitStmt.guardsAfter [] (w.circuit.body ++ [.declare v e]) = _
      rw [CircuitStmt.guardsAfter_append]
      rfl
    · show CircuitStmt.allLines (w.circuit.body ++ [.declare v e]) = _
      rw [CircuitStmt.allLines_append]
      rfl
    · rintro (_ | _ | _ | _)
      · exact Nat.le_refl _
      · exact Nat.le_succ _
      · exact Nat.le_refl _
      · exact Nat.le_refl _
    · funext r
      cases r <;> rfl
  · rintro (_ | _ | _ | _)
    · exact hs .secret
    · exact hs .temporary
    · exact hs .input
    · exact hs .output
  · refine .value (Set.mem_insert ..) fun u hu => ?_
    exact (CircuitVar.held_draws rfl he hu).mono (Set.subset_insert ..)

/-- The activity is quiet until it records the event; what follows is `rest`. -/
def Reaches {α : Type} (V : Set CircuitVar) (e : Event) (rest x : SplitM α) : Prop := ∀ k w a w', Runs k x w a w' →
  ∃ u v, w.circuit.Quiet V u.circuit ∧ Runs k (note e) u () v ∧ Runs k rest v a w'

section Reaches

variable {α β : Type} {V : Set CircuitVar} {e : Event} {rest : SplitM α}

theorem Reaches.here : Reaches V e rest (note e >>= fun _ => rest) := by
  intro k w a w' h
  obtain ⟨_, v, h₁, h₂⟩ := runs_bind.mp h
  exact ⟨w, v, .refl _, h₁, h₂⟩

theorem Reaches.after {x : SplitM β} {f : β → SplitM α} (hx : QuietlyOn V x) (hf : ∀ a, Reaches V e rest (f a)) :
    Reaches V e rest (x >>= f) := by
  intro k w a w' h
  obtain ⟨b, v, h₁, h₂⟩ := runs_bind.mp h
  obtain ⟨u, v', q, h₃, h₄⟩ := hf b k v a w' h₂
  exact ⟨u, v', (hx k w b v h₁).trans q, h₃, h₄⟩

/-- Something may be stated about a new variable. -/
theorem Reaches.obtain {g : β → CircuitVar} {x : SplitM β} {f : β → SplitM α} (hx : Obtains g x)
    (hf : ∀ a, Reaches (insert (g a) V) e rest (f a)) : Reaches V e rest (x >>= f) := by
  intro k w a w' h
  obtain ⟨b, v, h₁, h₂⟩ := runs_bind.mp h
  obtain ⟨u, v', q, h₃, h₄⟩ := hf b k v a w' h₂
  exact ⟨u, v', (hx.quietly k w b v h₁).trans (q.given (q.registers (hx k w b v h₁).2)), h₃, h₄⟩

theorem Reaches.failed {error : Error} {f : β → SplitM α} : Reaches V e rest (throw error >>= f) := by
  intro k w a w' h
  obtain ⟨_, _, h, _⟩ := runs_bind.mp h
  exact (runs_throw h).elim

end Reaches

theorem Phase.Hands.later {E : Set Asset} {s t u : Phase} {r : Series} {v : CircuitVar} (h : s.Hands r v t)
    (ht : t.Quiet E u) : s.Hands r v u := ⟨ht.names r h.mem, h.numbers.later ht.count⟩

/-- The variable has a new name. -/
structure IsNew (r : Series) (source : Option Expr) (c : Circuit) (v : CircuitVar) (d : Circuit) : Prop where
  quiet : c.Quiet ∅ d
  registers : d.Registers v
  hands : c.phase.Hands r v d.phase
  made : v.source = source

/-- An event about a variable with a new name. -/
theorem acts_newName {α : Type} {Q : α → Set Asset → Prop} {V : Set CircuitVar} {fresh : SplitM CircuitVar} {r : Series}
    {source : Option Expr} (event : CircuitVar → Event) {f rest : CircuitVar → SplitM α}
    (hfresh : ∀ w v w', Runs k fresh w v w' → w.circuit.Standard → IsNew r source w.circuit v w'.circuit)
    (hV : ∀ v ∈ V, .value v ∈ E) (hf : ∀ v, Reaches (insert v V) (event v) (rest v) (f v))
    (hevent : ∀ P s t v, s.Quiet E t → s.Hands r v t → Traces P E s [t.now (event v)] (insert (.value v) E) t)
    (hsource : ∀ e, source = some e → e.Draws (AtHand E))
    (hrest : ∀ (v : CircuitVar) F, E ⊆ F → AtHand F v → v.source = source → Acts inner k F (rest v) Q) :
    Acts inner k E (fresh >>= f) Q := by
  intro P w a w' hr hP hs hw
  obtain ⟨v, w₁, h₁, hr⟩ := runs_bind.mp hr
  obtain ⟨q, known, hv, hn⟩ := hfresh w v w₁ h₁ hs
  obtain ⟨w₂, w₃, q', h₃, hr⟩ := hf v k w₁ a w' hr
  obtain rfl := runs_note.mp h₃
  have later := q'.given (q'.registers known)
  have all : w.circuit.Quiet V w₂.circuit := (q.mono (Set.empty_subset V)).trans later
  obtain ⟨more, hb, _⟩ := all.body
  have m : Circuit.Makes P E w.circuit [w₂.circuit.phase.now (event v)] (insert (.value v) E)
      { w₂.circuit with history := w₂.circuit.history ++ [w₂.circuit.phase.now (event v)] } :=
    ⟨hevent P _ _ v (all.phase hV) (hv.later (later.phase hV)), congrArg (· ++ _) all.history, ⟨more, hb.symm⟩,
      all.standard hs⟩
  have hand : AtHand (insert (.value v) E) v := by
    refine .value (Set.mem_insert ..) fun u hu => ?_
    cases source with
    | none =>
      unfold CircuitVar.held? at hu
      rw [hn] at hu
      cases hu
    | some e => exact (CircuitVar.held_draws hn (hsource e rfl) hu).mono (Set.subset_insert ..)
  have hP' : inner = true ∨ w₂.circuit.guards = P := hP.imp id fun h => (all.phase hV).guards.trans h
  obtain ⟨T, G, n, hq⟩ := hrest v _ (Set.subset_insert ..) hand hn P _ a w' hr hP' m.standard
    (m.traces.within hw)
  exact ⟨_, G, m.andThen n, hq⟩

theorem runs_freshInput {t : Ty} {source : Option Expr} {suffix : String} {v : CircuitVar}
    (h : Runs k (freshInput t source suffix) w v w') (hs : w.circuit.Standard) :
    IsNew .input source w.circuit v w'.circuit := by
  obtain ⟨q, known⟩ := obtains_freshInput k w v w' h
  obtain ⟨rfl, rfl⟩ := (runs_handOut (fun c => c.inputs.fresh t source suffix)
    (fun s c => { c with inputs := s })).mp h
  exact ⟨q, known, ⟨NameSupply.add_mem .., _, NameSupply.fresh_bears (hs .input).1 t source suffix, Nat.le_refl _,
    Nat.lt_succ_self _⟩, rfl⟩

theorem runs_freshSecret {t : Ty} {suffix : String} {v : CircuitVar}
    (h : Runs k (freshSecret t suffix) w v w') (hs : w.circuit.Standard) :
    IsNew .secret none w.circuit v w'.circuit := by
  obtain ⟨q, known⟩ := obtains_freshSecret k w v w' h
  obtain ⟨rfl, rfl⟩ := (runs_handOut (fun c => c.secrets.fresh t none suffix)
    (fun s c => { c with secrets := s })).mp h
  exact ⟨q, known, ⟨NameSupply.add_mem .., _, NameSupply.fresh_bears (hs .secret).1 t none suffix, Nat.le_refl _,
    Nat.lt_succ_self _⟩, rfl⟩

theorem runs_freshOutput {t : Ty} {source : Expr} {suffix : String} {v : CircuitVar}
    (h : Runs k (freshOutput t source suffix) w v w') (hs : w.circuit.Standard) :
    IsNew .output (some source) w.circuit v w'.circuit := by
  obtain ⟨q, known⟩ := obtains_freshOutput k w v w' h
  obtain ⟨rfl, rfl⟩ := (runs_handOut (fun c => c.outputs.fresh t (some source) suffix)
    (fun s c => { c with outputs := s })).mp h
  exact ⟨q, known, ⟨NameSupply.add_mem .., _, NameSupply.fresh_bears (hs .output).1 t (some source) suffix,
    Nat.le_refl _, Nat.lt_succ_self _⟩, rfl⟩

end Names

/-! ## Versions of branches -/

section Branches

variable {E : Set Asset}

/-- Where branches meet, versions are kept or chosen from those of the sides. -/
def Decision.Within (E : Set Asset) : Decision → Prop
  | .keep v => AtHand E v
  | .choose a b => (∀ v, a = some v → AtHand E v) ∧ ∀ v, b = some v → AtHand E v

theorem Versions.oneSided_within {v : CircuitVar} {d : Decision} (hv : AtHand E v) (hd : d.Within E) :
    (Versions.oneSided v d).Within E := by
  unfold Versions.oneSided
  split
  · exact hv
  · exact hd

theorem Versions.merge_within {taken other : Versions} {visible : Variable → Bool} (ht : taken.Within E)
    (ho : other.Within E) : ∀ p ∈ taken.merge other visible, p.2.Within E := by
  intro p hp
  rcases List.mem_append.mp hp with hp | hp
  · obtain ⟨⟨x, v⟩, hq, h⟩ := List.mem_filterMap.mp hp
    have hv : AtHand E v := ht _ hq
    dsimp only at h
    split at h
    · cases h
    · split at h
      · rename_i w hw
        cases h
        dsimp only
        split
        · exact hv
        · exact ⟨by rintro _ ⟨⟩; exact hv, by rintro _ ⟨⟩; exact ho.current hw⟩
      · cases h
        exact oneSided_within hv ⟨by rintro _ ⟨⟩; exact hv, nofun⟩
  · obtain ⟨⟨x, v⟩, hq, h⟩ := List.mem_filterMap.mp hp
    have hv : AtHand E v := ho _ hq
    dsimp only at h
    split at h
    · cases h
    · cases h
      exact oneSided_within hv ⟨nofun, by rintro _ ⟨⟩; exact hv⟩

theorem Variable.choice_draws {symbols : Symbols} {x : Variable} {cond : Expr} {a b : Option CircuitVar}
    (hc : cond.Draws (AtHand E)) (hd : (Decision.choose a b).Within E) :
    (x.choice symbols cond a b).Draws (AtHand E) := by
  unfold Variable.choice
  refine Expr.draws_mapInfo.mpr ⟨nofun, ⟨hc, ?_, ?_, trivial⟩, nofun⟩
  · cases a with
    | none => trivial
    | some v => exact CircuitVar.draws_read (hd.1 v rfl)
  · cases b with
    | none => trivial
    | some v => exact CircuitVar.draws_read (hd.2 v rfl)

/-- The member behind a list that it is appended to. -/
theorem modify_append_length {α : Type} (xs ys : List α) (y : α) (g : α → α) :
    (xs ++ y :: ys).modify xs.length g = xs ++ g y :: ys := by
  induction xs with
  | nil => rfl
  | cons x xs ih => exact congrArg (x :: ·) ih

end Branches

namespace Splitter

variable {inner : Bool} {k : SplitContext} {D E : Set Asset} {t : Splitter}

/-! ## Values that enter and leave -/

theorem acts_hold (ht : t.Sound k D) (hD : D ⊆ E) {e : Expr} (he : e.Draws (AtHand E)) {suffix : String} :
    Acts true k E (t.hold e suffix) fun v F => AtHand F v := by
  unfold hold
  split
  · exact .throw
  · rename_i hv
    exact .pure (he.circuitValue hv)
  · refine ((ht.privately E hD _ he).gives (ht.inner _)).bind fun value F _ hvalue => ?_
    exact acts_declare hvalue.1 hvalue.2

theorem acts_known? {x : Option Variable} :
    Acts inner k E (known? x) fun r F => ∀ v, r = some v → AtHand F v := by
  intro P w a w' hr _ hs hw
  cases x with
  | none =>
    obtain ⟨rfl, rfl⟩ := runs_pure.mp hr
    exact ⟨[], E, .refl hs, nofun⟩
  | some x =>
    obtain ⟨_, _, h, hr⟩ := runs_bind.mp hr
    obtain ⟨rfl, rfl⟩ := runs_versions.mp h
    split at hr
    · obtain ⟨rfl, rfl⟩ := runs_pure.mp hr
      exact ⟨[], E, .refl hs, nofun⟩
    · rename_i v hv
      obtain ⟨_, _, h, hr⟩ := runs_bind.mp hr
      obtain rfl := runs_note.mp h
      obtain ⟨rfl, rfl⟩ := runs_pure.mp hr
      refine ⟨_, E, ⟨.serve hv, rfl, List.prefix_rfl, hs⟩, ?_⟩
      rintro _ ⟨⟩
      exact hw.current hv

theorem acts_bringIn {e shown : Expr} {text : String} :
    Acts inner k E (bringIn e shown text) fun v F => AtHand F v := by
  unfold bringIn
  dsimp only
  split
  · refine acts_newName (V := ∅) (.enter e) (fun _ _ _ => runs_freshInput) nofun (fun v => ?_)
      (fun _ _ _ _ q hv => .enter q hv nofun) (fun _ h => by cases h) fun v F _ hv _ => .pure hv
    exact .after quietly_comment fun _ => .after Idle.ofExcept.quietly fun _ =>
      .after idle_precede.quietly fun _ => .here
  · refine idle_backend.acts_then fun b => acts_newName (V := ∅) (.enter e) (fun _ _ _ => runs_freshSecret) nofun
      (fun v => ?_) (fun _ _ _ _ q hv => .enter q hv nofun) (fun _ h => by cases h) fun v F _ hv _ => .pure hv
    split
    · exact .failed
    · exact .obtain obtains_freshInput fun _ => .after Idle.ofExcept.quietly fun _ =>
        .after idle_precede.quietly fun _ => .after quietly_comment fun _ =>
          .after (quietly_ensureEncryption (by simp) (by simp)) fun _ => .here

theorem acts_input (ht : t.Sound k D) (hD : D ⊆ E) {e : Expr} (he : e.Draws (AtHand E)) :
    Acts true k E (t.input e) fun v F => AtHand F v := by
  unfold input
  refine (ht.publicly E hD e he).bind fun shown F hF hshown => ?_
  have hD := hD.trans hF
  split
  · refine (acts_hold ht hD hshown).bind fun v G hG hv => ?_
    exact (Acts.note fun _ _ _ => .constant hv).bind fun _ _ hH _ => .pure (hv.mono hH)
  · refine acts_known?.bind fun r G hG hr => ?_
    cases r with
    | some v => exact .pure (hr v rfl)
    | none =>
      refine acts_bringIn.bind fun v H hH hv => ?_
      split
      · refine idle_options.acts_then fun o => ?_
        split
        · show Acts true k H (setVersion _ v >>= fun _ => note _ >>= fun _ => pure v) _
          rw [← bind_assoc]
          exact (Acts.know rfl hv).bind fun _ _ hH _ => .pure (hv.mono hH)
        · exact .pure hv
      · exact .pure hv

theorem acts_location {v : CircuitVar} (hv : AtHand E v) :
    Acts inner k E (ofExcept v.location) fun p F => p.Draws (AtHand F) :=
  .ofExcept fun _ hp => CircuitVar.location_draws hv hp

theorem acts_takeOut {e : Expr} {plain : CircuitVar} {owner : Label} {hom : Hom} (hp : AtHand E plain) :
    Acts inner k E (takeOut e plain owner hom) fun p F => p.Draws (AtHand F) := by
  have hread : plain.read.Draws (AtHand E) := CircuitVar.draws_read hp
  have given : ∀ v ∈ ({plain} : Set CircuitVar), .value v ∈ E := by
    rintro _ rfl
    exact hp.mem
  unfold takeOut
  dsimp only
  split
  · generalize (if plain.type.isCipher then plain.type else e.checkedType.type) = type
    refine acts_newName (.leave plain) (fun _ _ _ => runs_freshOutput) given
      (fun v => .after (quietly_emit trivial (by simp [CircuitStmt.constrained])) fun _ => .here) (fun _ _ _ _ q hv => .leave q hv hp)
      (by rintro _ ⟨⟩; exact hread) fun v F _ hv _ => ?_
    refine (acts_location hv).bind fun p G hG hp => ?_
    split
    · exact (Acts.pure (Q := fun p F => p.Draws (AtHand F)) hp).bind fun _ _ _ hp =>
        idle_precede.acts_then fun _ => .pure hp
    · exact (Acts.ofExcept (Q := fun p F => p.Draws (AtHand F)) fun q hq => Expr.converted_draws hp hq).bind
        fun _ _ _ hp => idle_precede.acts_then fun _ => .pure hp
  · refine idle_canonicalOwner.acts_then fun owner => idle_backend.acts_then fun b => ?_
    split
    · exact acts_failed
    · refine acts_newName (.leave plain) (fun _ _ _ => runs_freshOutput) given
        (fun v => .after (quietly_ensureEncryption (by simp) (by simp)) fun _ => .here) (fun _ _ _ _ q hv => .leave q hv hp)
        (by rintro _ ⟨⟩; exact ⟨hread, Expr.ofLabel_draws _⟩) fun v F _ hv _ => ?_
      refine (acts_location hv).bind fun p G hG hp => ?_
      exact idle_precede.acts_then fun _ => .pure hp

theorem acts_output (ht : t.Sound k D) (hD : D ⊆ E) {e : Expr} (he : e.Draws (AtHand E)) {owner : Label} {hom : Hom} :
    Acts true k E (t.output e owner hom) fun p F => p.Draws (AtHand F) := by
  unfold output
  dsimp only
  split
  · exact (acts_hold ht hD he).bind fun v F _ hv => acts_takeOut hv
  · exact (acts_input ht hD he).bind fun v F _ hv => acts_takeOut hv

theorem acts_evaluate (ht : t.Sound k D) (hD : D ⊆ E) {e : Expr} (he : e.Draws (AtHand E)) {owner : Label}
    {hom : Hom} : Acts true k E (t.evaluate e owner hom) fun p F => p.Draws (AtHand F) :=
  (acts_output ht hD he).indented

/-! ## Statements inside a circuit -/

theorem acts_assign (ht : t.Sound k D) (hD : D ⊆ E) {x : Variable} {e : Expr} (he : e.Draws (AtHand E)) :
    Acts true k E (t.assign x e) fun _ _ => True :=
  (acts_hold ht hD he).bind fun _ _ _ hv => .know rfl hv

theorem acts_bindArgument (ht : t.Sound k D) (hD : D ⊆ E) {p : Param} {arg : Expr} (he : arg.Draws (AtHand E)) :
    Acts true k E (t.bindArgument p arg) fun _ _ => True := by
  unfold bindArgument
  split
  · exact .throw
  · exact quietly_comment.acts_then fun _ => (acts_assign ht hD he).indented

theorem acts_result {v : LocalVar} : Acts inner k E (result v) fun e F => e.Draws (AtHand F) := by
  refine acts_known?.bind fun r F _ hr => ?_
  cases r with
  | none => exact .throw
  | some v => exact .pure (CircuitVar.draws_read (hr v rfl))

theorem acts_inline (ht : t.Sound k D) (hD : D ⊆ E) {f : Callee} (hf : ∀ b, f.body = some b → b.Draws (AtHand D))
    {text : Option String} {args : List Expr} (hargs : ∀ e ∈ args, e.Draws (AtHand E)) :
    Acts true k E (t.inline f text args) fun e F => e.Draws (AtHand F) := by
  unfold inline
  extract_lets activity
  suffices h : Acts true k E activity fun e F => e.Draws (AtHand F) by
    cases text with
    | none => exact h.inScope
    | some s => exact h.indented.inScope
  have args : Acts true k E ((f.params.zip args).forM fun p => grouped .item (t.bindArgument p.1 p.2))
      fun _ _ => True := by
    refine .forM fun p hp F hF => .grouped .item (acts_bindArgument ht (hD.trans hF) ?_)
    exact (hargs _ (List.of_mem_zip hp).2).up hF
  refine (args.grouped .together).bind fun _ F hF _ => ?_
  split
  · exact .throw
  · rename_i body hbody
    have hcopy : Yields (Block.Draws (AtHand D)) (body.duplicate f.context .full) :=
      Block.duplicate_draws _ _ body (hf body hbody)
    refine (idle_linking.acts (Q := fun copy _ => copy.Draws (AtHand D)) fun _ _ _ =>
      runs_linking hcopy).bind fun copy G hG h => ?_
    have hD := hD.trans (hF.trans hG)
    refine (ht.carryOut G hD _ _ copy (Block.Draws.up h hD)).bind fun _ H hH _ => ?_
    refine (Acts.mapM Expr.lasting_draws fun v _ _ _ => acts_result).bind fun es I hI hes => ?_
    split
    · exact .pure (hes _ List.mem_cons_self)
    · exact .pure (Expr.allDraws_iff.mpr hes)

theorem acts_assignTo (ht : t.Sound k D) (l : Expr) : ∀ E, D ⊆ E → ∀ r : Expr, r.Draws (AtHand E) →
    Acts true k E (t.assignTo l r) fun _ _ => True := by
  induction l using Expr.inductOn with
  | tuple i ls ih =>
    have all : ∀ ls : List Expr, (∀ l ∈ ls, ∀ E, D ⊆ E → ∀ r : Expr, r.Draws (AtHand E) →
        Acts true k E (t.assignTo l r) fun _ _ => True) → ∀ E, D ⊆ E → ∀ rs : List Expr,
        Expr.AllDraws (AtHand E) rs → Acts true k E (t.assignAll ls rs) fun _ _ => True := by
      intro ls
      induction ls with
      | nil =>
        intro _ E hD rs hrs
        unfold assignAll
        exact .pure trivial
      | cons l ls ihls =>
        intro ih E hD rs hrs
        cases rs with
        | nil =>
          unfold assignAll
          exact .pure trivial
        | cons r rs =>
          unfold assignAll
          refine ((ih l List.mem_cons_self E hD r hrs.1).grouped .item).bind fun _ F hF _ => ?_
          exact ihls (fun l hl => ih l (List.mem_cons_of_mem _ hl)) F (hD.trans hF) rs
            (Expr.AllDraws.mono (fun _ => AtHand.mono hF) rs hrs.2)
    intro E hD r hr
    unfold assignTo
    refine .bind (Q := fun e F => e.Draws (AtHand F)) ?_ fun r F hF hr => ?_
    · split
      · exact ht.privately E hD _ hr
      · exact .pure hr
    · split
      · split
        · exact (all ls ih F (hD.trans hF) _ hr).grouped .together
        · exact .throw
      · exact .throw
  | leaf e hl =>
    intro E hD r hr
    cases e with
    | ident i n target =>
      unfold assignTo
      split
      · exact acts_assign ht hD hr
      · exact .throw
    | operator | boolLit | numLit | me | all =>
      unfold assignTo
      exact .throw
    | call | new | cast | arrayLit | tuple | member | index | reclassify => cases hl
  | call | new | cast | arrayLit | member | index | reclassify =>
    intro E hD r hr
    unfold assignTo
    exact .throw

theorem acts_give (ht : t.Sound k D) (hD : D ⊆ E) {results : List LocalVar} {value : Option Expr}
    (hv : ∀ e, value = some e → e.Draws (AtHand E)) : Acts true k E (t.give results value) fun _ _ => True := by
  have all (es : List Expr) (hes : ∀ e ∈ es, e.Draws (AtHand E)) :
      Acts true k E ((results.zip es).forM fun p => t.assign (.ofLocal p.1) p.2) fun _ _ => True :=
    .forM fun p hp F hF => acts_assign ht (hD.trans hF) ((hes _ (List.of_mem_zip hp).2).up hF)
  unfold give
  split
  · exact .throw
  · exact all _ (Expr.allDraws_iff.mp (hv _ rfl))
  · exact all _ (by simpa using hv _ rfl)

theorem acts_introduce (ht : t.Sound k D) (hD : D ⊆ E) {v : LocalVar} {init : Option Expr}
    (hv : ∀ e, init = some e → e.Draws (AtHand E)) : Acts true k E (t.introduce v init) fun _ _ => True := by
  unfold introduce
  split
  · exact acts_assign ht hD (hv _ rfl)
  · split
    · exact acts_failed
    · refine (Acts.ofExcept (Q := fun e F => e.Draws (AtHand F)) fun e he => Expr.zero_draws he).bind
        fun e F hF he => ?_
      exact acts_assign ht (hD.trans hF) he

theorem acts_versions : Acts inner k E versions fun vs F => vs.Within F := by
  intro P w a w' hr _ hs hw
  obtain ⟨rfl, rfl⟩ := runs_versions.mp hr
  exact ⟨[], E, .refl hs, hw⟩

theorem acts_join (ht : t.Sound k D) (hD : D ⊆ E) {c : LinkContext} {cond : CircuitVar} {taken : Versions}
    (hc : AtHand E cond) (hv : taken.Within E) : Acts true k E (t.join c cond taken) fun _ _ => True := by
  unfold join
  refine Acts.indented (acts_versions.bind fun other F hF ho => ?_)
  have empty : Acts true k F (setVersions .empty) fun _ _ => True := by
    intro P w a w' hr _ hs hw
    obtain rfl := runs_setVersions.mp hr
    exact ⟨[], F, ⟨.lose nofun nofun, (List.append_nil _).symm, List.prefix_rfl, hs⟩, trivial⟩
  refine empty.bind fun _ G hG _ => .forM fun p hp H hH => ?_
  have hE := hF.trans (hG.trans hH)
  have hd : p.2.Within F := Versions.merge_within (hv.mono hF) ho p hp
  obtain ⟨x, d⟩ := p
  cases d with
  | keep v =>
    exact acts_versions.bind fun vs I hI hvs => .resume (hvs.set (AtHand.mono (hG.trans (hH.trans hI)) hd))
  | choose a b =>
    refine idle_symbols.acts_then fun symbols => ?_
    have hd : (Decision.choose a b).Within H :=
      ⟨fun v hv => (hd.1 v hv).mono (hG.trans hH), fun v hv => (hd.2 v hv).mono (hG.trans hH)⟩
    refine (acts_hold ht (hD.trans hE) (Variable.choice_draws (CircuitVar.draws_read (hc.mono hE)) hd)).bind
      fun v I hI hv => ?_
    exact .know rfl hv

/-- A comment that is extended once a value is known. -/
theorem acts_commented {α : Type} {Q : α → Set Asset → Prop} {x : SplitM CircuitVar} {text : String}
    {more : CircuitVar → String} {f : CircuitVar → SplitM α} (hx : Acts true k E x fun v F => AtHand F v)
    (hf : ∀ (v : CircuitVar) F, E ⊆ F → AtHand F v → Acts true k F (f v) Q) : Acts true k E (do
      let c ← circuit
      comment text
      let v ← x
      amendComment c.body.length (more v)
      f v) Q := by
  intro P w a w' hr hP hs hw
  obtain ⟨_, _, h, hr⟩ := runs_bind.mp hr
  obtain ⟨rfl, rfl⟩ := runs_circuit.mp h
  obtain ⟨_, w₁, h₁, hr⟩ := runs_bind.mp hr
  obtain ⟨v, w₂, h₂, hr⟩ := runs_bind.mp hr
  obtain ⟨_, w₃, h₃, hr⟩ := runs_bind.mp hr
  obtain rfl := runs_emit.mp h₁
  obtain ⟨S, F, m, hv⟩ := hx P _ v w₂ h₂ (.inl rfl) hs hw
  obtain ⟨rest, hb⟩ := m.body
  obtain rfl := runs_modifyCircuit.mp h₃
  have hbody : w₂.circuit.body.modify w.circuit.body.length (CircuitStmt.amend (more v)) =
      w.circuit.body ++ .comment (text ++ more v) :: rest := by
    rw [← hb]
    exact (congrArg (List.modify · _ _) (List.append_assoc ..)).trans (modify_append_length ..)
  have hphase : Circuit.phase { w₂.circuit with body := w.circuit.body ++ .comment (text ++ more v) :: rest } =
      w₂.circuit.phase := by
    unfold Circuit.phase Circuit.guards
    simp only [← hb, CircuitStmt.guardsAfter_append, CircuitStmt.allLines_append,
      CircuitStmt.guardsAfter, CircuitStmt.guards, CircuitStmt.allLines, CircuitStmt.lines,
      List.append_nil, List.nil_append]
    rfl
  have quiet : Circuit.Quiet ∅ w.circuit { w.circuit with body := w.circuit.body ++ [.comment text] } :=
    quietly_comment k w () _ h₁
  have made : Circuit.Makes P E w.circuit S F
      { w₂.circuit with body := w.circuit.body ++ .comment (text ++ more v) :: rest } := by
    have := (quiet.makes (fun _ h => absurd h (Set.notMem_empty _)) hs).andThen m
    exact ⟨hphase ▸ this.traces, this.history, List.prefix_append .., this.standard⟩
  rw [hbody] at hr
  obtain ⟨T, G, n, hq⟩ := hf v F m.traces.subset hv P _ a w' hr (.inl rfl) made.standard
    (made.traces.within hw)
  exact ⟨_, G, made.andThen n, hq⟩

theorem acts_firstBranch (ht : t.Sound k D) (hD : D ⊆ E) {cond : Expr} (hc : cond.Draws (AtHand E))
    {branch : CircuitVar → SplitM Unit}
    (hb : ∀ (v : CircuitVar) F, E ⊆ F → AtHand F v → Acts true k F (branch v) fun _ _ => True) :
    Acts true k E (t.firstBranch cond branch) fun p F => AtHand F p.1 ∧ p.2.Within F := by
  unfold firstBranch
  refine acts_versions.bind fun outer F hF ho => ?_
  refine acts_commented (acts_hold ht (hD.trans hF) (hc.up hF)) fun v G hG hv => ?_
  refine (hb v G (hF.trans hG) hv).bind fun _ H hH _ => ?_
  refine acts_versions.bind fun inside I hI hi => ?_
  refine (Acts.resume (ho.mono (hG.trans (hH.trans hI)))).bind fun _ J hJ _ => ?_
  exact .pure ⟨hv.mono (hH.trans (hI.trans hJ)), hi.mono hJ⟩

end Splitter

section CarryOut

variable {k : SplitContext} {D : Set Asset} {t : Splitter} {results : List LocalVar}

theorem acts_maybeGuarded {E : Set Asset} {guard : Option (CircuitVar × Bool)} {x : SplitM Unit}
    {Q : Unit → Set Asset → Prop} (hg : ∀ g ∈ guard, AtHand E g.1) (hx : Acts true k E x Q) :
    Acts true k E (maybeGuarded guard x) Q := by
  unfold maybeGuarded
  split
  · exact hx
  · exact hx.guarded (hg _ rfl).mem

/-- A branch that the circuit carries out, and the place where it meets the other one. -/
theorem acts_forkThen {E : Set Asset} {c : LinkContext} {x : SplitM (CircuitVar × Versions)}
    (ht : t.Sound k D) (hD : D ⊆ E) (hx : Acts true k E x fun p F => AtHand F p.1 ∧ p.2.Within F) :
    Acts true k E (do
      let ((cond, taken), yes) ← captured x
      let (_, meet) ← captured (t.join c cond taken)
      record (.fork yes [] meet)) fun _ _ => True := by
  intro P w a w' hr _ hs hw
  obtain ⟨⟨⟨cond, taken⟩, yes⟩, w₁, h₁, hr⟩ := runs_bind.mp hr
  obtain ⟨⟨_, meet⟩, w₂, h₂, hr⟩ := runs_bind.mp hr
  obtain rfl := runs_record.mp hr
  obtain ⟨F, t₁, ⟨hc, hv⟩, hh₁, hb₁, hs₁⟩ := hx.captured (P := P) h₁ (.inl rfl) hs hw
  obtain ⟨G, t₂, _, hh₂, hb₂, hs₂⟩ := (Splitter.acts_join ht (hD.trans t₁.subset) hc hv).captured (P := P) h₂
    (.inl rfl) hs₁ (t₁.within hw)
  exact ⟨[.fork yes [] meet], G, ⟨.fork t₁ .refl t₂, congrArg (· ++ _) (hh₂.trans hh₁), hb₁.trans hb₂, hs₂⟩,
    trivial⟩

/-- Both branches, and the place where they meet. -/
theorem acts_forkElse {E : Set Asset} {c : LinkContext} {x : SplitM (CircuitVar × Versions)}
    (between no : CircuitVar → SplitM Unit) (ht : t.Sound k D) (hD : D ⊆ E)
    (hx : Acts true k E x fun p F => AtHand F p.1 ∧ p.2.Within F) (hb : ∀ v, Quietly (between v))
    (hno : ∀ (v : CircuitVar) F, E ⊆ F → AtHand F v → Acts true k F (no v) fun _ _ => True) : Acts true k E (do
      let ((cond, taken), yes) ← captured x
      between cond
      let (_, no) ← captured (no cond)
      let (_, meet) ← captured (t.join c cond taken)
      record (.fork yes no meet)) fun _ _ => True := by
  intro P w a w' hr _ hs hw
  obtain ⟨⟨⟨cond, taken⟩, yes⟩, w₁, h₁, hr⟩ := runs_bind.mp hr
  obtain ⟨_, w₂, h₂, hr⟩ := runs_bind.mp hr
  obtain ⟨⟨_, other⟩, w₃, h₃, hr⟩ := runs_bind.mp hr
  obtain ⟨⟨_, meet⟩, w₄, h₄, hr⟩ := runs_bind.mp hr
  obtain rfl := runs_record.mp hr
  obtain ⟨F, t₁, ⟨hc, hv⟩, hh₁, hb₁, hs₁⟩ := hx.captured (P := P) h₁ (.inl rfl) hs hw
  have q := hb cond k w₁ _ w₂ h₂
  obtain ⟨more, hmore, _⟩ := q.body
  have hb₂ : w₁.circuit.body <+: w₂.circuit.body := ⟨more, hmore.symm⟩
  have t₂ : Traces P F w₁.circuit.phase [] F w₂.circuit.phase := .quiet (q.phase nofun)
  have hw₁ := t₁.within hw
  obtain ⟨G, t₃, _, hh₃, hb₃, hs₃⟩ := (hno cond F t₁.subset hc).captured (P := P) h₃ (.inl rfl)
    (q.standard hs₁) (t₂.within hw₁)
  have hG := t₃.subset
  obtain ⟨H, t₄, _, hh₄, hb₄, hs₄⟩ := (Splitter.acts_join ht (hD.trans (t₁.subset.trans hG)) (hc.mono hG)
    (hv.mono hG)).captured (P := P) h₄ (.inl rfl) hs₃ (t₃.within (t₂.within hw₁))
  refine ⟨[.fork yes other meet], H, ⟨?_, ?_, ?_, hs₄⟩, trivial⟩
  · exact .fork t₁ (t₂.andThen t₃) t₄
  · exact congrArg (· ++ _) (hh₄.trans (hh₃.trans (q.history.trans hh₁)))
  · exact hb₁.trans (hb₂.trans (hb₃.trans hb₄))

mutual

theorem Stmt.acts_carryOut (ht : t.Sound k D) : ∀ (s : Stmt) (c : LinkContext) (E : Set Asset), D ⊆ E →
    s.Draws (AtHand E) → Acts true k E (s.carryOut t results c) fun _ _ => True
  | .ret i e, c, E, hD, h => by
    unfold Stmt.carryOut
    exact (quietly_comment.acts_then fun _ => Splitter.acts_give ht hD h).within
  | .assign i l r o b, c, E, hD, h => by
    unfold Stmt.carryOut
    exact (quietly_comment.acts_then fun _ => Splitter.acts_assignTo ht l E hD r h.2).within
  | .declare i v e, c, E, hD, h => by
    unfold Stmt.carryOut
    exact (quietly_comment.acts_then fun _ => Splitter.acts_introduce ht hD h).within
  | .ifThen i e a none, c, E, hD, h => by
    unfold Stmt.carryOut
    refine (acts_forkThen ht hD (Splitter.acts_firstBranch ht hD h.1 fun v F hF hv => ?_)).within
    exact Block.acts_carryOut ht a c _ _ F (hD.trans hF) (Block.Draws.up h.2 hF) (by rintro _ ⟨⟩; exact hv)
  | .ifThen i e a (some b), c, E, hD, h => by
    unfold Stmt.carryOut
    refine (acts_forkElse (fun v => comment ("else [" ++ v.name ++ "]"))
      (fun v => b.carryOut t results c (some (v, false)) false) ht hD
      (Splitter.acts_firstBranch ht hD h.1 fun v F hF hv => ?_) (fun _ => quietly_comment)
      fun v F hF hv => ?_).within
    · exact Block.acts_carryOut ht a c _ _ F (hD.trans hF) (Block.Draws.up h.2.1 hF) (by rintro _ ⟨⟩; exact hv)
    · exact Block.acts_carryOut ht b c _ _ F (hD.trans hF) (Block.Draws.up h.2.2 hF) (by rintro _ ⟨⟩; exact hv)
  | .block b, c, E, hD, h => by
    unfold Stmt.carryOut
    exact Block.acts_carryOut ht b c none true E hD h nofun
  | .comment _, c, E, hD, h | .blank, c, E, hD, h => .throw
  | .whileLoop .., c, E, hD, h | .doWhile .., c, E, hD, h | .forLoop .., c, E, hD, h => .throw
  | .breakLoop _, c, E, hD, h | .continueLoop _, c, E, hD, h | .eval .., c, E, hD, h => .throw
  | .require .., c, E, hD, h | .seq .., c, E, hD, h | .compute .., c, E, hD, h => .throw
  | .enterKey .., c, E, hD, h => .throw

theorem Block.acts_carryOut (ht : t.Sound k D) : ∀ (b : Block) (c : LinkContext)
    (guard : Option (CircuitVar × Bool)) (ownScope : Bool) (E : Set Asset), D ⊆ E → b.Draws (AtHand E) →
    (∀ g ∈ guard, AtHand E g.1) → Acts true k E (b.carryOut t results c guard ownScope) fun _ _ => True
  | ⟨i, ss, single⟩, c, guard, ownScope, E, hD, h, hg => by
    unfold Block.carryOut
    have all := fun c => Stmt.acts_carryOutAll ht ss c E hD h
    refine (quietly_comment.acts_then fun _ => ?_).within
    refine (acts_maybeGuarded (Q := fun _ _ => True) hg ?_).indented.bind fun _ F _ _ =>
      quietly_comment.acts fun _ _ _ _ => trivial
    split
    · exact (all _).inScope
    · exact all _

theorem Stmt.acts_carryOutAll (ht : t.Sound k D) : ∀ (ss : List Stmt) (c : LinkContext) (E : Set Asset),
    D ⊆ E → Stmt.AllDraws (AtHand E) ss → Acts true k E (Stmt.carryOutAll t results c ss) fun _ _ => True
  | [], c, E, hD, h => .pure trivial
  | s :: ss, c, E, hD, h => by
    unfold Stmt.carryOutAll
    refine (Stmt.acts_carryOut ht s c E hD h.1).bind fun _ F hF _ => ?_
    exact Stmt.acts_carryOutAll ht ss _ F (hD.trans hF) (Stmt.AllDraws.mono (fun _ => AtHand.mono hF) ss h.2)

end

/-- Results of statements are variables of the program. -/
theorem Loc.asResult_draws {Q : Asset → Prop} {symbols : Symbols} {n : Option Knowledge} {l : Loc} {e : Expr}
    (h : l.asResult symbols n = .ok e) : e.Draws Q := by
  unfold Loc.asResult at h
  dsimp only at h
  cases hm : l.isMine symbols n with
  | false =>
    rw [hm] at h
    cases h
  | true =>
    rw [hm] at h
    cases ht : (symbols.type? l.target).map AnnTy.sourceType with
    | none =>
      rw [ht] at h
      cases h
    | some type =>
      rw [ht] at h
      cases hp : type.type.isPrimitive with
      | false =>
        simp only [hp] at h
        cases h
      | true =>
        simp only [hp] at h
        cases h
        trivial

theorem idle_resultVars {types : List (AnnTy × Option String)} : Idle (resultVars types) := by
  have all (ps : List (Nat × AnnTy × Option String)) : Idle (ps.mapM fun p => do
      return (⟨← fresh, [], p.2.1, Generated.returned ++ "_" ++ toString p.1, p.2.2⟩ : LocalVar)) := by
    induction ps with
    | nil =>
      rw [List.mapM_nil]
      exact .pure
    | cons p ps ih =>
      rw [List.mapM_cons]
      exact (idle_fresh.bind fun _ => .pure).bind fun _ => ih.bind fun _ => .pure
  exact all _

/-- What is written in the circuit is handed to public code. -/
theorem acts_hand {E : Set Asset} {x : Variable} : Acts true k E (do
    match (← versions).current? x with
    | some v => note (.hand x v)
    | none => note (.write x)) fun _ _ => True := by
  intro P w a w' hr _ hs hw
  obtain ⟨_, _, h, hr⟩ := runs_bind.mp hr
  obtain ⟨rfl, rfl⟩ := runs_versions.mp h
  split at hr
  · rename_i v hv
    obtain rfl := runs_note.mp hr
    refine ⟨_, E, ⟨.know rfl (hw.current hv) (fun y => ?_) hw, rfl, List.prefix_rfl, hs⟩, trivial⟩
    split
    · rename_i hy
      rw [hy]
      exact hv
    · rfl
  · rename_i unknown
    obtain rfl := runs_note.mp hr
    exact ⟨_, E, ⟨.write unknown, rfl, List.prefix_rfl, hs⟩, trivial⟩

theorem Splitter.acts_carryOutWhole {E : Set Asset} (ht : t.Sound k D) (hD : D ⊆ E) {c : LinkContext}
    {s : Stmt} (h : s.Draws (AtHand D)) : Acts true k E (t.carryOutWhole c s) fun _ _ => True := by
  unfold Splitter.carryOutWhole
  dsimp only
  refine idle_symbols.acts_then fun symbols => ?_
  refine (Acts.mapM (R := fun (e : Expr) _ => ∀ G, e.Draws (AtHand G)) (fun _ _ _ _ h => h)
    fun l _ F _ => .ofExcept fun e he G => Loc.asResult_draws he).bind fun values F hF hvalues => ?_
  refine idle_resultVars.acts_then fun results => ?_
  refine (Acts.working (Q := fun _ _ => True) ?_).imp fun _ _ _ _ => trivial
  have hbody : Block.Draws (AtHand D) (.ofStmts [s, .ret default (some (.tuple .synthetic values))]) :=
    ⟨h, by rintro _ ⟨⟩; exact Expr.allDraws_iff.mpr fun e he => hvalues e he D, trivial⟩
  have hD := hD.trans hF
  refine (acts_inline ht hD (by rintro _ ⟨⟩; exact hbody) (by simp)).bind fun e G hG he => ?_
  refine .bind (Q := fun es F => ∀ e ∈ es, Expr.Draws (AtHand F) e) ?_ fun es H hH hes => ?_
  · split
    · exact .pure (Expr.allDraws_iff.mp he)
    · exact .pure (by simpa using he)
  refine (Acts.mapM (R := fun _ _ => True) (fun _ _ _ _ h => h) fun p hp I hI => ?_).bind fun outs I hI _ => ?_
  · exact (acts_output ht (hD.trans (hG.trans (hH.trans hI))) ((hes _ (List.of_mem_zip hp).2).up hI)).imp
      fun _ _ _ _ => trivial
  · refine (Acts.forM fun x _ J _ => acts_hand).bind fun _ J _ _ => ?_
    split
    · exact .pure trivial
    · exact .pure trivial

end CarryOut

end Shroud
