import Shroud.Proofs.Activities

/-!
# Growth through the splitter

Everything that the splitter does makes a circuit grow.
-/

namespace Shroud

open SplitM

/-- Only calls of functions that need a proof are recorded. -/
theorem runs_recordCall {f : Expr} {g : FunctionDef} {node : Nat} {k : SplitContext} {w w' : Workspace} {a : Unit}
    (hg : w.symbols.callee? f = some g) (h : Runs k (Splitter.recordCall node g) w a w') :
    w.Grows k.owners w' ∧ ∀ call ∈ w'.circuit.calls, call ∈ w.circuit.calls ∨ w.Knows call := by
  unfold Splitter.recordCall at h
  dsimp only at h
  split at h
  · obtain ⟨_, _, h, _⟩ := runs_bind.mp h
    exact (runs_throw h).elim
  · rename_i proof
    obtain ⟨_, w₁, h₁, h⟩ := runs_bind.mp h
    obtain rfl := runs_modifyCircuit.mp h₁
    obtain rfl := runs_emit.mp h
    refine ⟨⟨?_, .refl _, Nat.le_refl _⟩, fun call hc => ?_⟩
    · refine ⟨rfl, rfl, rfl, rfl, List.Subset.refl _, List.Subset.refl _, .refl,
        ⟨[], ?_, by simp, by simp [Circuit.Shares]⟩, fun _ => .inl, id, id⟩
      rw [CircuitStmt.allKeyUses_append, CircuitStmt.allKeyUses_singleton]
      rfl
    · rcases List.mem_append.mp hc with hc | hc
      · exact .inl hc
      · obtain ⟨i, hi⟩ := Symbols.callee?_eq_some hg
        refine .inr ⟨i, g, hi, by simpa using proof, ?_⟩
        rw [List.mem_singleton.mp hc]

theorem growing_call {α β : Type} {f : Expr} {target : FunctionDef → Except Error α} {node : Nat}
    {rest : Symbols → FunctionDef → α → SplitM β} (hr : ∀ s g a, Growing (rest s g a)) : Growing (do
      let s ← symbols
      match s.callee? f with
      | none => throw .undefinedState
      | some g =>
        let a ← ofExcept (target g)
        if g.facts.needsProof then Splitter.recordCall node g
        rest s g a) := by
  intro k w b w' h
  obtain ⟨s, _, h₁, h⟩ := runs_bind.mp h
  obtain ⟨rfl, rfl⟩ := runs_symbols.mp h₁
  split at h
  · exact (runs_throw h).elim
  · rename_i g hg
    obtain ⟨a, _, h₁, h⟩ := runs_bind.mp h
    obtain ⟨_, rfl⟩ := runs_ofExcept.mp h₁
    dsimp only at h
    split at h
    · obtain ⟨_, w₁, h₁, h⟩ := runs_bind.mp h
      obtain ⟨grows, calls⟩ := runs_recordCall hg h₁
      obtain ⟨grows', calls'⟩ := hr _ g a k w₁ b w' h
      refine ⟨grows.trans grows', fun call hc => ?_⟩
      rcases calls' call hc with hc | known
      · exact calls call hc
      · exact .inr (known.mono grows)
    · exact hr _ g a k w b w' h

theorem asking_known? {x : Option Variable} : Asking (Splitter.known? x) := by
  unfold Splitter.known?
  split
  · exact .pure
  · refine asking_versions.bind fun vs => ?_
    split
    · exact .pure
    · exact asking_note.bind fun _ => .pure

section Branches

variable {t : Splitter}

theorem growing_join (hold : ∀ e suffix, Growing (t.hold e suffix)) {c : LinkContext} {cond : CircuitVar}
    {taken : Versions} : Growing (t.join c cond taken) := by
  unfold Splitter.join
  refine Growing.indented (asking_versions.before fun _ => asking_setVersions.before fun _ => ?_)
  refine .forM (fun p => ?_) _
  obtain ⟨x, d⟩ := p
  cases d with
  | keep v => exact asking_versions.before fun _ => asking_resume.growing
  | choose a b =>
    exact asking_symbols.before fun _ => (hold _ _).bind fun _ => asking_setVersion.before fun _ => asking_note.growing

theorem asking_amendComment {n : Nat} {more : String} : Asking (Splitter.amendComment n more) :=
  asking_modifyCircuit fun _ _ => Circuit.asks_of_same rfl (CircuitStmt.allKeyUses_amend ..) (List.Subset.refl _) .refl

theorem growing_firstBranch (hold : ∀ e suffix, Growing (t.hold e suffix)) {e : Expr}
    {branch : CircuitVar → SplitM Unit} (hb : ∀ v, Growing (branch v)) : Growing (t.firstBranch e branch) :=
  asking_versions.before fun _ => asking_circuit.before fun _ => asking_comment.before fun _ =>
    (hold _ _).bind fun v => asking_amendComment.before fun _ => (hb v).bind fun _ =>
      asking_versions.before fun _ => asking_resume.before fun _ => .pure

theorem growing_branch {guard : CircuitVar} {holds : Bool} {known : Versions} {x : SplitM Block} (hx : Growing x) :
    Growing (BodySplit.branch guard holds known x) :=
  Growing.captured (Growing.guarded (asking_note.before fun _ => hx.bind fun _ => asking_resume.before fun _ => .pure))

end Branches

/-- What makes circuits grow in its parts makes them grow as a whole. -/
theorem growing_hereditary : Hereditary Growing where
  minor hx := hx.asking.growing
  bind hx hQ hf := hx.bind_gives hQ hf
  emit hs := (asking_emit hs).growing
  indented := .indented
  temporary := asking_freshTemporary.growing
  decrypt hf := asking_freshInput.before fun _ => (hf _).asking.before fun _ => silent_ensureEncryption.growing
  encrypt := asking_freshOutput.before fun _ => silent_ensureEncryption.growing.bind fun _ => .pure
  givesResult := Asking.growing (asking_modifyCircuit fun _ _ => Circuit.asks_of_same rfl rfl (List.Subset.refl _) .refl)
  call := growing_call
  know _ _ := asking_setVersion.before fun _ => asking_note.growing
  serve := asking_known?.growing
  event _ _ := asking_note.growing
  hand := asking_versions.before fun vs => by
    split
    · exact asking_note.growing
    · exact asking_note.growing
  forget := asking_forgetAll.growing
  grouped _ := .grouped
  inScope := .inScope
  forkThen hold _ hy := (growing_firstBranch hold hy).captured.bind fun _ => (growing_join hold).captured.bind fun _ =>
    asking_record.growing
  forkElse hold _ _ _ hy hn := (growing_firstBranch hold hy).captured.bind fun _ => asking_comment.before fun _ =>
    (hn _).captured.bind fun _ => (growing_join hold).captured.bind fun _ => asking_record.growing
  chooseThen _ _ _ _ hg hc hy hr := asking_versions.before fun _ => hg.bind fun _ => (hc _).bind fun _ =>
    (growing_branch hy).bind fun _ => asking_record.before fun _ => hr _ _
  chooseElse _ _ _ _ _ hg hc hy hn hr := asking_versions.before fun _ => hg.bind fun _ => (hc _).bind fun _ =>
    (growing_branch hy).bind fun _ => (growing_branch hn).bind fun _ => asking_record.before fun _ => hr _ _ _
  either _ _ _ hy hn hr := hy.captured.bind fun _ => hn.captured.bind fun _ => asking_record.before fun _ => hr _ _

end Shroud
