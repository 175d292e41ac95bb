import Shroud.Proofs.Activities

/-!
# Names through the splitter

Whatever the splitter does, the names in the circuit of a body stay different from each other. What it adds under names
that are not fresh is the randomness of a ciphertext that just got its name.
-/

namespace Shroud

/-! ## One supply -/

/-- Fresh names of a supply bear numbers, and they are different. -/
theorem NameSupply.Extends.fresh_names {s t : NameSupply} {r : Series} (h : s.Extends t) (hs : s.base = r.base)
    (empty : s.vars = []) :
    t.base = r.base ∧ (t.vars.map CircuitVar.name).Nodup ∧ ∀ v ∈ t.vars, ∃ k < t.count, v.Bears r k := by
  induction h with
  | refl => exact ⟨hs, by simp [empty], by simp [empty]⟩
  | @fresh t _ type source suffix ih =>
    obtain ⟨base, nodup, numbers⟩ := ih
    have bears := NameSupply.fresh_bears base type source suffix
    refine ⟨base, ?_, ?_⟩
    · show ((t.vars ++ [(t.fresh type source suffix).1]).map CircuitVar.name).Nodup
      rw [List.map_append, List.map_singleton]
      refine List.nodup_append.mpr ⟨nodup, List.nodup_singleton _, fun x hx y hy same => ?_⟩
      obtain ⟨u, hu, rfl⟩ := List.mem_map.mp hx
      obtain ⟨k, lower, hk⟩ := numbers u hu
      obtain ⟨rest, spelled⟩ := bears
      have again : u.Bears r t.count := ⟨rest, (same.trans (List.mem_singleton.mp hy)).trans spelled⟩
      exact Nat.ne_of_lt lower (hk.unique again).2
    · refine List.forall_mem_append.mpr ⟨fun u hu => ?_, List.forall_mem_singleton.mpr ⟨_, Nat.lt_succ_self _, bears⟩⟩
      obtain ⟨k, lower, hk⟩ := numbers u hu
      exact ⟨k, Nat.lt_succ_of_lt lower, hk⟩

open SplitM

namespace SplitM

variable {α β : Type} {x : SplitM α} {f : α → SplitM β}

/-! ## Activities that add no names -/

theorem naming_versions : Naming versions := (idle_circuit.bind fun _ => .pure).naming

theorem naming_setVersions {vs : Versions} : Naming (setVersions vs) := naming_modifyCircuit fun _ => by rfl

theorem naming_setVersion {y : Variable} {v : CircuitVar} : Naming (setVersion y v) :=
  naming_versions.bind fun _ => naming_setVersions

theorem naming_forgetAll {ys : List Variable} : Naming (forgetAll ys) := naming_versions.bind fun _ => naming_setVersions

theorem naming_record {s : Step} : Naming (record s) := naming_modifyCircuit fun _ => by rfl

theorem naming_note {e : Event} : Naming (note e) := idle_circuit.naming.bind fun _ => naming_record

theorem naming_resume {vs : Versions} : Naming (resume vs) := naming_setVersions.bind fun _ => naming_note

theorem naming_known? {y : Option Variable} : Naming (Splitter.known? y) := by
  unfold Splitter.known?
  split
  · exact Idle.pure.naming
  · refine naming_versions.bind fun vs => ?_
    split
    · exact Idle.pure.naming
    · exact naming_note.bind fun _ => Idle.pure.naming

theorem naming_recordCall {node : Nat} {g : FunctionDef} : Naming (Splitter.recordCall node g) := by
  have recorded : Naming (do
      modifyCircuit fun c => { c with calls := c.calls ++ [⟨node, g.id, 0⟩] }
      emit (.call g.id)) := (naming_modifyCircuit fun _ => by rfl).bind fun _ => naming_emit
  unfold Splitter.recordCall
  dsimp only
  split
  · exact Idle.throw.naming.bind fun _ => recorded
  · exact recorded

/-! ## Activities that keep names apart -/

/-- If the names in the circuit are different, they stay so. -/
def Distinguishing (x : SplitM α) : Prop := ∀ k w a w', Runs k x w a w' →
  Supplies.Apart w.circuit.supply → Supplies.Apart w'.circuit.supply

theorem Naming.distinguishing (h : Naming x) : Distinguishing x :=
  fun k w a w' hr apart => apart.extends (h k w a w' hr)

/-- One activity after another, of which it is known what it returns. -/
theorem Distinguishing.bind_gives {Q : α → Prop} (hx : Distinguishing x) (hQ : Gives Q x)
    (hf : ∀ a, Q a → Distinguishing (f a)) : Distinguishing (x >>= f) := by
  intro k w b w' h apart
  obtain ⟨a, v, h₁, h₂⟩ := runs_bind.mp h
  exact hf a (hQ k w a v h₁) k v b w' h₂ (hx k w a v h₁ apart)

theorem Distinguishing.bind (hx : Distinguishing x) (hf : ∀ a, Distinguishing (f a)) : Distinguishing (x >>= f) :=
  hx.bind_gives (Q := fun _ => True) (fun _ _ _ _ _ => trivial) fun a _ => hf a

/-- An activity that adds fresh names only, before another one. -/
theorem Naming.before (hx : Naming x) (hf : ∀ a, Distinguishing (f a)) : Distinguishing (x >>= f) :=
  hx.distinguishing.bind hf

theorem Distinguishing.forM {f : α → SplitM PUnit} (hf : ∀ a, Distinguishing (f a)) (as : List α) :
    Distinguishing (as.forM f) := by
  induction as with
  | nil => exact Idle.pure.naming.distinguishing
  | cons a as ih => exact (hf a).bind fun _ => ih

theorem Distinguishing.indented {name : String} (hx : Distinguishing x) : Distinguishing (indented name x) :=
  idle_circuit.naming.before fun _ => hx.bind fun _ => (naming_modifyCircuit fun _ => by rfl).before fun _ =>
    Idle.pure.naming.distinguishing

theorem Distinguishing.captured (hx : Distinguishing x) : Distinguishing (captured x) :=
  idle_circuit.naming.before fun _ => hx.bind fun _ => idle_circuit.naming.before fun _ =>
    (naming_modifyCircuit fun _ => by rfl).before fun _ => Idle.pure.naming.distinguishing

theorem Distinguishing.grouped {step : List Step → Step} (hx : Distinguishing x) : Distinguishing (grouped step x) :=
  hx.captured.bind fun _ => naming_record.before fun _ => Idle.pure.naming.distinguishing

theorem Distinguishing.guarded {cond : CircuitVar} {holds : Bool} (hx : Distinguishing x) :
    Distinguishing (guarded cond holds x) :=
  naming_emit.before fun _ => hx.bind fun _ => naming_emit.before fun _ => Idle.pure.naming.distinguishing

theorem Distinguishing.inScope {isCall : Bool} {visible : Variable → Bool} (hx : Distinguishing x) :
    Distinguishing (inScope isCall visible x) :=
  naming_versions.before fun _ => hx.captured.bind fun _ => naming_versions.before fun _ => naming_record.before fun _ =>
    naming_resume.before fun _ => Idle.pure.naming.distinguishing

/-- A ciphertext is given, and a value is what it decrypts to. -/
theorem distinguishing_decrypt {t : Ty} {source : Option Expr} {suffix : String} {plain : CircuitVar} {b : Backend}
    {f : CircuitVar → SplitM Unit} (hf : ∀ v, Naming (f v)) : Distinguishing (do
      let cipher ← freshInput t source suffix
      f cipher
      ensureEncryption plain .me b cipher .decryption) := by
  intro k w a w' h apart
  obtain ⟨v, w₁, h₁, h⟩ := runs_bind.mp h
  obtain ⟨_, w₂, h₂, h⟩ := runs_bind.mp h
  exact freshInput_handsOut.apart_encrypted (by decide) h₁ (hf v k w₁ _ w₂ h₂) h apart

/-- A value is encrypted. -/
theorem distinguishing_encrypt {t : Ty} {source : Expr} {suffix : String} {plain : CircuitVar} {owner : Label}
    {b : Backend} : Distinguishing (do
      let cipher ← freshOutput t source suffix
      ensureEncryption plain owner b cipher .result
      return cipher) := by
  intro k w a w' h apart
  obtain ⟨v, w₁, h₁, h⟩ := runs_bind.mp h
  obtain ⟨_, w₂, h₂, h⟩ := runs_bind.mp h
  obtain ⟨rfl, rfl⟩ := runs_pure.mp h
  exact freshOutput_handsOut.apart_encrypted (by decide) h₁ .refl h₂ apart

/-! ## Branches -/

section Branches

variable {t : Splitter}

theorem distinguishing_join (hold : ∀ e suffix, Distinguishing (t.hold e suffix)) {c : LinkContext} {cond : CircuitVar}
    {taken : Versions} : Distinguishing (t.join c cond taken) := by
  unfold Splitter.join
  refine Distinguishing.indented (naming_versions.before fun _ => naming_setVersions.before fun _ => ?_)
  refine .forM (fun p => ?_) _
  obtain ⟨y, d⟩ := p
  cases d with
  | keep v => exact naming_versions.before fun _ => naming_resume.distinguishing
  | choose a b =>
    exact idle_symbols.naming.before fun _ => (hold _ _).bind fun _ => naming_setVersion.before fun _ =>
      naming_note.distinguishing

theorem distinguishing_firstBranch (hold : ∀ e suffix, Distinguishing (t.hold e suffix)) {e : Expr}
    {branch : CircuitVar → SplitM Unit} (hb : ∀ v, Distinguishing (branch v)) :
    Distinguishing (t.firstBranch e branch) :=
  naming_versions.before fun _ => idle_circuit.naming.before fun _ => naming_comment.before fun _ =>
    (hold _ _).bind fun v => (naming_modifyCircuit fun _ => by rfl).before fun _ => (hb v).bind fun _ =>
      naming_versions.before fun _ => naming_resume.before fun _ => Idle.pure.naming.distinguishing

theorem distinguishing_branch {guard : CircuitVar} {holds : Bool} {known : Versions} {x : SplitM Block}
    (hx : Distinguishing x) : Distinguishing (BodySplit.branch guard holds known x) :=
  Distinguishing.captured (Distinguishing.guarded (naming_note.before fun _ => hx.bind fun _ =>
    naming_resume.before fun _ => Idle.pure.naming.distinguishing))

end Branches

/-- What keeps names apart in its parts keeps them apart as a whole. -/
theorem distinguishing_hereditary : Hereditary Distinguishing where
  minor hx := hx.naming.distinguishing
  bind hx hQ hf := hx.bind_gives hQ hf
  emit _ := naming_emit.distinguishing
  indented := .indented
  temporary := freshTemporary_handsOut.naming.distinguishing
  decrypt hf := distinguishing_decrypt fun v => (hf v).naming
  encrypt := distinguishing_encrypt
  givesResult := (naming_modifyCircuit fun _ => by rfl).distinguishing
  call hr := idle_symbols.naming.before fun s => by
    split
    · exact Idle.throw.naming.distinguishing
    · refine Idle.ofExcept.naming.before fun a => ?_
      dsimp only
      split
      · exact naming_recordCall.before fun _ => hr _ _ _
      · exact hr _ _ _
  know _ _ := naming_setVersion.before fun _ => naming_note.distinguishing
  serve := naming_known?.distinguishing
  event _ _ := naming_note.distinguishing
  hand := naming_versions.before fun vs => by
    split
    · exact naming_note.distinguishing
    · exact naming_note.distinguishing
  forget := naming_forgetAll.distinguishing
  grouped _ := .grouped
  inScope := .inScope
  forkThen hold _ hy := (distinguishing_firstBranch hold hy).captured.bind fun _ =>
    (distinguishing_join hold).captured.bind fun _ => naming_record.distinguishing
  forkElse hold _ _ _ hy hn := (distinguishing_firstBranch hold hy).captured.bind fun _ => naming_comment.before fun _ =>
    (hn _).captured.bind fun _ => (distinguishing_join hold).captured.bind fun _ => naming_record.distinguishing
  chooseThen _ _ _ _ hg hc hy hr := naming_versions.before fun _ => hg.bind fun _ => (hc _).bind fun _ =>
    (distinguishing_branch hy).bind fun _ => naming_record.before fun _ => hr _ _
  chooseElse _ _ _ _ _ hg hc hy hn hr := naming_versions.before fun _ => hg.bind fun _ => (hc _).bind fun _ =>
    (distinguishing_branch hy).bind fun _ => (distinguishing_branch hn).bind fun _ => naming_record.before fun _ =>
      hr _ _ _
  either _ _ _ hy hn hr := hy.captured.bind fun _ => hn.captured.bind fun _ => naming_record.before fun _ => hr _ _

end SplitM

end Shroud
