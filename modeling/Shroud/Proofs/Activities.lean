import Shroud.Proofs.CallGraph
import Shroud.Proofs.Growth
import Shroud.Proofs.Supplies

/-!
# What holds of everything that the splitter does

The activities of the splitter are put together from smaller ones, and they refer to each other. A property is
hereditary if it carries over from the parts of these activities to the whole. It then holds of everything that the
splitter does, which is shown for one level of `Splitter.bounded` from the level below it.

**Minor activities** look things up, hand out names or ask for keys.

**Branches.** While one branch is gone through, what is known from the other one is put aside. So parts of a branch need
not have a hereditary property, and branches count as a whole.
-/

namespace Shroud

mutual

/-- The moments of a step, in order. -/
def Step.moments : Step → List Moment
  | .moment m => [m]
  | .scope _ _ ss | .together ss | .item ss | .loop ss => Step.allMoments ss
  | .fork yes no meet => Step.allMoments yes ++ (Step.allMoments no ++ Step.allMoments meet)
  | .branches _ yes no => Step.allMoments yes ++ Step.allMoments no

def Step.allMoments : List Step → List Moment
  | [] => []
  | s :: ss => s.moments ++ Step.allMoments ss

end

/-- The variable and the value, if the event tells that a read is answered. -/
def Event.served? : Event → Option (Variable × CircuitVar)
  | .serve x v => some (x, v)
  | _ => none

namespace SplitM

variable {α β : Type} {x : SplitM α} {f : α → SplitM β}

/-! ## Minor activities -/

/-- An activity that hands out names and asks for keys at most. -/
structure Minor (x : SplitM α) : Prop where
  asking : Asking x
  quietly : Quietly x
  naming : Naming x

/-- An activity that leaves the circuit alone is minor if it does so with the other parts of the workspace, too. -/
theorem Idle.minor (hx : Idle x) (asking : Asking x) : Minor x := ⟨asking, hx.quietly, hx.naming⟩

theorem Minor.pure {a : α} : Minor (pure a) := Idle.pure.minor .pure

theorem Minor.throw {e : Error} : Minor (throw e : SplitM α) := Idle.throw.minor .throw

theorem Minor.bind (hx : Minor x) (hf : ∀ a, Minor (f a)) : Minor (x >>= f) :=
  ⟨hx.asking.bind fun a => (hf a).asking, hx.quietly.bind fun a => (hf a).quietly, hx.naming.bind fun a => (hf a).naming⟩

theorem Minor.ofExcept {r : Except Error α} : Minor (ofExcept r : SplitM α) := Idle.ofExcept.minor .ofExcept

theorem Minor.mapM {f : α → SplitM β} (hf : ∀ a, Minor (f a)) (as : List α) : Minor (as.mapM f) :=
  ⟨.mapM (fun a => (hf a).asking) as, .mapM (fun a => (hf a).quietly) as, .mapM (fun a => (hf a).naming) as⟩

theorem minor_read : Minor (read : SplitM SplitContext) := idle_read.minor asking_read

theorem minor_symbols : Minor symbols := idle_symbols.minor asking_symbols

theorem minor_circuit : Minor circuit := idle_circuit.minor asking_circuit

theorem minor_options : Minor options := idle_options.minor asking_options

theorem minor_backend {h : Hom} : Minor (backend h) := idle_backend.minor asking_backend

theorem minor_draft? : Minor draft? := idle_draft?.minor asking_draft?

theorem minor_drafts {g : Workspace → List Draft} : Minor (modify fun w => { w with drafts := g w } : SplitM PUnit) :=
  (idle_modify fun _ => by rfl).minor asking_drafts

theorem minor_modifyDraft {g : Draft → Draft} : Minor (modifyDraft g) := idle_modifyDraft.minor asking_modifyDraft

theorem minor_precede {s : Stmt} : Minor (precede s) := idle_precede.minor asking_precede

theorem minor_restate {s : Stmt} : Minor (restate s) := idle_restate.minor asking_restate

theorem minor_put {e : Expr} : Minor (put e) := idle_put.minor asking_put

theorem minor_linking {l : LinkM α} (hl : LinkM.Growing l) : Minor (linking l) := idle_linking.minor (asking_linking hl)

theorem minor_relink {e : Expr} : Minor (relink e) := idle_relink.minor asking_relink

theorem minor_comment {text : String} : Minor (comment text) := ⟨asking_comment, quietly_comment, naming_comment⟩

theorem minor_freshSecret {t : Ty} {suffix : String} : Minor (freshSecret t suffix) :=
  ⟨asking_freshSecret, obtains_freshSecret.quietly, freshSecret_handsOut.naming⟩

theorem minor_freshInput {t : Ty} {source : Option Expr} {suffix : String} : Minor (freshInput t source suffix) :=
  ⟨asking_freshInput, obtains_freshInput.quietly, freshInput_handsOut.naming⟩

theorem minor_freshOutput {t : Ty} {source : Expr} {suffix : String} : Minor (freshOutput t source suffix) :=
  ⟨asking_freshOutput, obtains_freshOutput.quietly, freshOutput_handsOut.naming⟩

theorem minor_freshRandomness {h : Hom} : Minor (freshRandomness h) :=
  minor_backend.bind fun _ => minor_freshSecret.bind fun _ => .pure

theorem minor_publicKey {owner : Label} {b : Backend} : Minor (publicKey owner b) :=
  ⟨fun _ _ _ _ h => (runs_publicKey h).1, obtains_publicKey.quietly, naming_publicKey⟩

theorem minor_canonicalOwner {owner : Label} : Minor (Splitter.canonicalOwner owner) := by
  refine idle_canonicalOwner.minor (asking_knowledge.bind fun n => ?_)
  cases n with
  | none => exact .throw
  | some n => exact asking_read.bind fun _ => .pure

theorem minor_resultVars {types : List (AnnTy × Option String)} : Minor (resultVars types) :=
  .mapM (fun _ => (idle_fresh.minor asking_fresh).bind fun _ => .pure) _

theorem minor_homOperand {b : Backend} {type : AnnTy} {isProduct : Bool} {arg : Expr} :
    Minor (Splitter.homOperand b type isProduct arg) := by
  unfold Splitter.homOperand
  split
  · exact minor_freshRandomness.bind fun _ => .pure
  · split
    · exact minor_put.bind fun _ => .pure
    · exact .pure

theorem minor_checkLoop {c : LinkContext} {loop : Stmt} {parts : List (List Node)} :
    Minor (BodySplit.checkLoop c loop parts) := by
  refine minor_symbols.bind fun symbols => ?_
  split
  · exact .throw
  · exact .pure

/-! ## Hereditary properties -/

/-- A property of activities that carries over from the parts to the whole. -/
structure Hereditary (P : ∀ {α : Type}, SplitM α → Prop) : Prop where
  minor {α : Type} {x : SplitM α} (hx : Minor x) : P x
  bind {α β : Type} {x : SplitM α} {f : α → SplitM β} {Q : α → Prop} (hx : P x) (hQ : Gives Q x)
    (hf : ∀ a, Q a → P (f a)) : P (x >>= f)
  /-- Statements without keys are added to the circuit. -/
  emit {s : CircuitStmt} (hs : s.keyUses = []) : P (emit s)
  indented {α : Type} {name : String} {x : SplitM α} (hx : P x) : P (indented name x)
  temporary {t : Ty} {e : Expr} {suffix : String} : P (freshTemporary t e suffix)
  /-- A value enters as what a new ciphertext decrypts to. -/
  decrypt {t : Ty} {source : Option Expr} {suffix : String} {plain : CircuitVar} {b : Backend}
    {f : CircuitVar → SplitM Unit} (hf : ∀ v, Minor (f v)) : P (do
      let cipher ← freshInput t source suffix
      f cipher
      ensureEncryption plain .me b cipher .decryption)
  /-- A value leaves as a new ciphertext. -/
  encrypt {t : Ty} {source : Expr} {suffix : String} {plain : CircuitVar} {owner : Label} {b : Backend} : P (do
      let cipher ← freshOutput t source suffix
      ensureEncryption plain owner b cipher .result
      return cipher)
  givesResult : P (modifyCircuit fun c => { c with hasResult := true })
  /-- A call is recorded if its target needs a proof. -/
  call {α β : Type} {f : Expr} {target : FunctionDef → Except Error α} {node : Nat}
    {rest : Symbols → FunctionDef → α → SplitM β} (hr : ∀ s g a, P (rest s g a)) : P (do
      let s ← symbols
      match s.callee? f with
      | none => throw .undefinedState
      | some g =>
        let a ← ofExcept (target g)
        if g.facts.needsProof then Splitter.recordCall node g
        rest s g a)
  /-- Reads are remembered as plain values. -/
  know {e : Event} {y : Variable} {v : CircuitVar} (he : e.origin? = some (y, v))
    (plain : ∀ z u, e = .learn z u → u.type.isCipher = false) : P (do
      setVersion y v
      note e)
  serve {y : Option Variable} : P (Splitter.known? y)
  event {e : Event} (he : e.origin? = none) (hs : e.served? = none) : P (note e)
  hand {y : Variable} : P (do
    match (← versions).current? y with
    | some v => note (.hand y v)
    | none => note (.write y))
  forget {xs : List Variable} : P (forgetAll xs)
  grouped {α : Type} {step : List Step → Step} {x : SplitM α} (hs : ∀ S, (step S).moments = Step.allMoments S)
    (hx : P x) : P (grouped step x)
  inScope {α : Type} {isCall : Bool} {visible : Variable → Bool} {x : SplitM α} (hx : P x) :
    P (inScope isCall visible x)
  /-- The circuit carries out a branch. -/
  forkThen {t : Splitter} {c : LinkContext} {e : Expr} (hold : ∀ e suffix, P (t.hold e suffix))
    (yes : CircuitVar → SplitM Unit) (hy : ∀ v, P (yes v)) : P (do
      let ((cond, taken), yes) ← captured (t.firstBranch e yes)
      let (_, meet) ← captured (t.join c cond taken)
      record (.fork yes [] meet))
  /-- The circuit carries out both branches. -/
  forkElse {t : Splitter} {c : LinkContext} {e : Expr} (hold : ∀ e suffix, P (t.hold e suffix))
    (yes : CircuitVar → SplitM Unit) (text : CircuitVar → String) (no : CircuitVar → SplitM Unit)
    (hy : ∀ v, P (yes v)) (hn : ∀ v, P (no v)) : P (do
      let ((cond, taken), yes) ← captured (t.firstBranch e yes)
      comment (text cond)
      let (_, no) ← captured (no cond)
      let (_, meet) ← captured (t.join c cond taken)
      record (.fork yes no meet))
  /-- Public code takes a branch or passes it over. -/
  chooseThen {α β : Type} (guard : SplitM CircuitVar) (check : CircuitVar → SplitM α) (yes : SplitM Block)
    (rest : α → Block → SplitM β) (hg : P guard) (hc : ∀ v, P (check v)) (hy : P yes)
    (hr : ∀ a b, P (rest a b)) : P (do
      let known ← versions
      let g ← guard
      let a ← check g
      let (b, yes) ← BodySplit.branch g true known yes
      record (.branches (some g) yes [])
      rest a b)
  /-- Public code takes one of two branches. -/
  chooseElse {α β : Type} (guard : SplitM CircuitVar) (check : CircuitVar → SplitM α) (yes no : SplitM Block)
    (rest : α → Block → Block → SplitM β) (hg : P guard) (hc : ∀ v, P (check v)) (hy : P yes) (hn : P no)
    (hr : ∀ a b d, P (rest a b d)) : P (do
      let known ← versions
      let g ← guard
      let a ← check g
      let (b, yes) ← BodySplit.branch g true known yes
      let (d, no) ← BodySplit.branch g false known no
      record (.branches (some g) yes no)
      rest a b d)
  /-- Public code takes one of two branches that concern no circuit. -/
  either {α β γ : Type} (yes : SplitM α) (no : SplitM β) (rest : α → β → SplitM γ) (hy : P yes) (hn : P no)
    (hr : ∀ a b, P (rest a b)) : P (do
      let (a, yes) ← captured yes
      let (b, no) ← captured no
      record (.branches none yes no)
      rest a b)

end SplitM

open SplitM

/-- The activities have the property. -/
structure Splitter.Keeps (P : ∀ {α : Type}, SplitM α → Prop) (t : Splitter) : Prop where
  publicly : ∀ e, P (t.publicly e)
  privately : ∀ e, P (t.privately e)
  carryOut : ∀ results c b, P (t.carryOut results c b)

namespace SplitM.Hereditary

variable {α β : Type} {P : ∀ {α : Type}, SplitM α → Prop} (h : Hereditary P)

include h

theorem pure {a : α} : P (Pure.pure a : SplitM α) := h.minor .pure

theorem throw {e : Error} : P (MonadExcept.throw e : SplitM α) := h.minor .throw

/-- One activity after another. -/
theorem next {x : SplitM α} {f : α → SplitM β} (hx : P x) (hf : ∀ a, P (f a)) : P (x >>= f) :=
  h.bind (Q := fun _ => True) hx (fun _ _ _ _ _ => trivial) fun a _ => hf a

/-- An activity after a minor one. -/
theorem after {x : SplitM α} {f : α → SplitM β} (hx : Minor x) (hf : ∀ a, P (f a)) : P (x >>= f) :=
  h.next (h.minor hx) hf

theorem failed {e : Error} {f : α → SplitM β} : P (MonadExcept.throw e >>= f) :=
  h.bind (Q := fun _ => False) h.throw .throw fun _ no => no.elim

theorem mapM {f : α → SplitM β} (hf : ∀ a, P (f a)) (as : List α) : P (as.mapM f) := by
  induction as with
  | nil =>
    rw [List.mapM_nil]
    exact h.pure
  | cons a as ih =>
    rw [List.mapM_cons]
    exact h.next (hf a) fun _ => h.next ih fun _ => h.pure

theorem forM {f : α → SplitM PUnit} (hf : ∀ a, P (f a)) (as : List α) : P (as.forM f) := by
  induction as with
  | nil => exact h.pure
  | cons a as ih => exact h.next (hf a) fun _ => ih

theorem foldlM {f : β → α → SplitM β} (hf : ∀ b a, P (f b a)) (as : List α) (b : β) : P (as.foldlM f b) := by
  induction as generalizing b with
  | nil => exact h.pure
  | cons a as ih =>
    rw [List.foldlM_cons]
    exact h.next (hf b a) fun _ => ih _

/-- More may follow when a variable has got a version. -/
theorem know_then {e : Event} {y : Variable} {v : CircuitVar} {f : Unit → SplitM β} (he : e.origin? = some (y, v))
    (plain : ∀ z u, e = .learn z u → u.type.isCipher = false) (hf : ∀ u, P (f u)) :
    P (setVersion y v >>= fun _ => note e >>= f) := by
  have known := h.next (h.know he plain) hf
  rwa [bind_assoc] at known

/-- More may follow when a value has entered. -/
theorem decrypt_then {t : Ty} {source : Option Expr} {suffix : String} {plain : CircuitVar} {b : Backend}
    {f : CircuitVar → SplitM Unit} {g : Unit → SplitM β} (hf : ∀ v, Minor (f v)) (hg : ∀ u, P (g u)) :
    P (freshInput t source suffix >>= fun v => f v >>= fun _ => ensureEncryption plain .me b v .decryption >>= g) := by
  have entered : P ((do
      let v ← freshInput t source suffix
      f v
      ensureEncryption plain .me b v .decryption) >>= g) := h.next (h.decrypt hf) hg
  simpa only [bind_assoc] using entered

/-- More may follow when a value has left. -/
theorem encrypt_then {t : Ty} {source : Expr} {suffix : String} {plain : CircuitVar} {owner : Label} {b : Backend}
    {g : CircuitVar → SplitM β} (hg : ∀ v, P (g v)) :
    P (freshOutput t source suffix >>= fun v => ensureEncryption plain owner b v .result >>= fun _ => g v) := by
  have left : P ((do
      let v ← freshOutput t source suffix
      ensureEncryption plain owner b v .result
      return v) >>= g) := h.next h.encrypt hg
  simpa only [bind_assoc, pure_bind] using left

theorem overwrite {xs : List Variable} : P (overwrite xs) :=
  h.next h.forget fun _ => h.forM (fun _ => h.event rfl rfl) _

theorem optional {x : SplitM α} (hx : P x) : P (optional x) :=
  h.next (h.grouped (fun _ => List.append_nil _) hx) fun _ => h.next (h.event rfl rfl) fun _ => h.pure

theorem guarded {cond : CircuitVar} {holds : Bool} {x : SplitM α} (hx : P x) : P (guarded cond holds x) :=
  h.next (h.emit rfl) fun _ => h.next hx fun _ => h.next (h.emit rfl) fun _ => h.pure

theorem maybeGuarded {guard : Option (CircuitVar × Bool)} {x : SplitM Unit} (hx : P x) : P (maybeGuarded guard x) := by
  unfold SplitM.maybeGuarded
  split
  · exact hx
  · exact h.guarded hx

theorem working {c : LinkContext} {s : Option Stmt} {x : SplitM α} (hx : P x) : P (working c s x) := by
  refine h.after minor_drafts fun _ => h.next hx fun _ => h.after minor_draft? fun d => ?_
  cases d with
  | none => exact h.throw
  | some d => exact h.after minor_drafts fun _ => h.pure

theorem within {c : LinkContext} {s : Stmt} {x : SplitM α} (hx : P x) : P (within c s x) :=
  h.next (h.working hx) fun _ => h.after minor_modifyDraft fun _ => h.pure

theorem lap {x : SplitM α} (hx : P x) : P (BodySplit.lap x) :=
  h.grouped (fun _ => rfl) (h.next (h.event rfl rfl) fun _ => hx)

theorem repeated {x : SplitM α} (hx : P x) : P (BodySplit.repeated x) :=
  h.next (h.grouped (fun _ => rfl) hx) fun _ => h.next (h.event rfl rfl) fun _ => h.pure

theorem optionally {f : Expr → SplitM Expr} (hf : ∀ e, P (f e)) {e : Option Expr} : P (e.mapM f) := by
  cases e with
  | none => exact h.pure
  | some e => exact h.next (hf e) fun _ => h.pure

end SplitM.Hereditary

/-! ## Values that enter and leave -/

theorem Ty.isCipher_abstract (t : Ty) : t.abstract.isCipher = t.isCipher := by cases t <;> rfl

/-- What enters is held by a variable of the type of the expression. -/
theorem Splitter.gives_bringIn {e shown : Expr} {text : String} :
    Gives (fun v => v.type = e.checkedType.type.abstract) (bringIn e shown text) := by
  have input {source : Option Expr} {suffix : String} :
      Gives (fun v => v.type = e.checkedType.type.abstract) (freshInput e.checkedType.type source suffix) := by
    intro k w v w' h
    obtain ⟨rfl, _⟩ := (runs_handOut (fun c => c.inputs.fresh e.checkedType.type source suffix)
      (fun s c => { c with inputs := s })).mp h
    rfl
  have secret {suffix : String} :
      Gives (fun v => v.type = e.checkedType.type.abstract) (freshSecret e.checkedType.type suffix) := by
    intro k w v w' h
    obtain ⟨rfl, _⟩ := (runs_handOut (fun c => c.secrets.fresh e.checkedType.type none suffix)
      (fun s c => { c with secrets := s })).mp h
    rfl
  unfold bringIn
  dsimp only
  split
  · exact input.bind fun v hv => .after fun _ => .after fun _ => .after fun _ => .after fun _ => .pure hv
  · refine .after fun b => secret.bind fun plain hp => ?_
    split
    · exact .bind (P := fun _ => False) .throw fun _ h => h.elim
    · exact .after fun _ => .after fun _ => .after fun _ => .after fun _ => .after fun _ => .after fun _ => .pure hp

namespace SplitM.Hereditary

variable {P : ∀ {α : Type}, SplitM α → Prop} (h : Hereditary P) {t : Splitter} (ht : t.Keeps P)

section Walk

include h

theorem bringIn {e shown : Expr} {text : String} : P (Splitter.bringIn e shown text) := by
  unfold Splitter.bringIn
  dsimp only
  split
  · exact h.after minor_freshInput fun _ => h.after minor_comment fun _ => h.after .ofExcept fun _ =>
      h.after minor_precede fun _ => h.next (h.event rfl rfl) fun _ => h.pure
  · refine h.after minor_backend fun b => h.after minor_freshSecret fun plain => ?_
    split
    · exact h.failed
    · suffices entered : P (do
          let cipher ← freshInput (.cipher shown.checkedType b) (some plain.read) e.nameSuffix
          (do
            precede (.assign default (← ofExcept cipher.location) shown "" true)
            comment (plain.name ++ " = dec(" ++ text ++ ") [" ++ cipher.name ++ "]"))
          ensureEncryption plain .me b cipher .decryption
          note (.enter e plain)
          return plain) by simpa only [bind_assoc] using entered
      exact h.decrypt_then (fun _ => .bind .ofExcept fun _ => minor_precede.bind fun _ => minor_comment) fun _ =>
        h.next (h.event rfl rfl) fun _ => h.pure

theorem takeOut {e : Expr} {plain : CircuitVar} {owner : Label} {hom : Hom} :
    P (Splitter.takeOut e plain owner hom) := by
  unfold Splitter.takeOut
  dsimp only
  split
  · generalize (if plain.type.isCipher then plain.type else e.checkedType.type) = type
    refine h.after minor_freshOutput fun v => h.next (h.emit rfl) fun _ => h.next (h.event rfl rfl) fun _ =>
      h.after .ofExcept fun place => ?_
    split
    · exact h.next h.pure fun _ => h.after minor_precede fun _ => h.pure
    · exact h.after .ofExcept fun _ => h.after minor_precede fun _ => h.pure
  · refine h.after minor_canonicalOwner fun owner => h.after minor_backend fun b => ?_
    split
    · exact h.failed
    · exact h.encrypt_then fun _ => h.next (h.event rfl rfl) fun _ =>
        h.after .ofExcept fun _ => h.after minor_precede fun _ => h.pure

theorem result {v : LocalVar} : P (Splitter.result v) := by
  refine h.next h.serve fun r => ?_
  cases r with
  | none => exact h.throw
  | some v => exact h.pure

include ht

theorem hold {e : Expr} {suffix : String} : P (t.hold e suffix) := by
  unfold Splitter.hold
  split
  · exact h.throw
  · exact h.pure
  · exact h.next (ht.privately _) fun _ => h.next h.temporary fun _ => h.next (h.emit rfl) fun _ => h.pure

theorem input {e : Expr} : P (t.input e) := by
  unfold Splitter.input
  refine h.next (ht.publicly e) fun shown => ?_
  split
  · exact h.next (h.hold ht) fun _ => h.next (h.event rfl rfl) fun _ => h.pure
  · refine h.next h.serve fun r => ?_
    split
    · exact h.pure
    · refine h.bind h.bringIn Splitter.gives_bringIn fun v hv => ?_
      split
      · rename_i x named
        refine h.after minor_options fun o => ?_
        have plain : v.type.isCipher = false := by
          unfold Splitter.cachedAs? at named
          split at named
          · cases named
          · rename_i plain
            rw [hv, Ty.isCipher_abstract]
            exact Bool.eq_false_iff.mpr plain
        split
        · exact h.know_then (e := .learn x v) rfl (by rintro _ _ ⟨⟩; exact plain) fun _ => h.pure
        · exact h.pure
      · exact h.pure

theorem output {e : Expr} {owner : Label} {hom : Hom} : P (t.output e owner hom) := by
  unfold Splitter.output
  dsimp only
  split
  · exact h.next (h.hold ht) fun _ => h.takeOut
  · exact h.next (h.input ht) fun _ => h.takeOut

theorem evaluate {e : Expr} {owner : Label} {hom : Hom} : P (t.evaluate e owner hom) := h.indented (h.output ht)

/-! ## Statements inside a circuit -/

theorem assign {x : Variable} {e : Expr} : P (t.assign x e) :=
  h.next (h.hold ht) fun v => h.know (e := .bind x v) rfl nofun

theorem bindArgument {p : Param} {arg : Expr} : P (t.bindArgument p arg) := by
  unfold Splitter.bindArgument
  split
  · exact h.throw
  · exact h.after minor_comment fun _ => h.indented (h.assign ht)

theorem inline {f : Callee} {text : Option String} {args : List Expr} : P (t.inline f text args) := by
  unfold Splitter.inline
  extract_lets activity
  suffices done : P activity by
    cases text with
    | none => exact h.inScope done
    | some s => exact h.inScope (h.indented done)
  have arguments : P (SplitM.grouped .together ((f.params.zip args).forM fun p =>
      SplitM.grouped .item (t.bindArgument p.1 p.2))) :=
    h.grouped (fun _ => rfl) (h.forM (fun _ => h.grouped (fun _ => rfl) (h.bindArgument ht)) _)
  refine h.next arguments fun _ => ?_
  split
  · exact h.throw
  · refine h.after (minor_linking (Block.growing_duplicate _ _ _)) fun copy => h.next (ht.carryOut _ _ copy) fun _ =>
      h.next (h.mapM (fun _ => h.result) _) fun es => ?_
    split
    · exact h.pure
    · exact h.pure

theorem assignTo (l : Expr) : ∀ r, P (t.assignTo l r) := by
  induction l using Expr.inductOn with
  | tuple i ls ih =>
    have all : ∀ ls : List Expr, (∀ l ∈ ls, ∀ r, P (t.assignTo l r)) → ∀ rs, P (t.assignAll ls rs) := by
      intro ls
      induction ls with
      | nil =>
        intro _ rs
        unfold Splitter.assignAll
        exact h.pure
      | cons l ls ihls =>
        intro ih rs
        cases rs with
        | nil =>
          unfold Splitter.assignAll
          exact h.pure
        | cons r rs =>
          unfold Splitter.assignAll
          refine h.next (h.grouped (fun _ => rfl) (ih l List.mem_cons_self r)) fun _ => ?_
          exact ihls (fun l hl => ih l (List.mem_cons_of_mem _ hl)) rs
    intro r
    unfold Splitter.assignTo
    refine h.next ?_ fun r => ?_
    · split
      · exact ht.privately _
      · exact h.pure
    · split
      · split
        · exact h.grouped (fun _ => rfl) (all ls ih _)
        · exact h.throw
      · exact h.throw
  | leaf e hl =>
    intro r
    cases e with
    | ident i n target =>
      unfold Splitter.assignTo
      split
      · exact h.assign ht
      · exact h.throw
    | operator | boolLit | numLit | me | all =>
      unfold Splitter.assignTo
      exact h.throw
    | call | new | cast | arrayLit | tuple | member | index | reclassify => cases hl
  | call | new | cast | arrayLit | member | index | reclassify =>
    intro r
    unfold Splitter.assignTo
    exact h.throw

theorem give {results : List LocalVar} {value : Option Expr} : P (t.give results value) := by
  unfold Splitter.give
  split
  · exact h.throw
  · exact h.forM (fun _ => h.assign ht) _
  · exact h.forM (fun _ => h.assign ht) _

theorem introduce {v : LocalVar} {init : Option Expr} : P (t.introduce v init) := by
  unfold Splitter.introduce
  split
  · exact h.assign ht
  · split
    · exact h.failed
    · exact h.after .ofExcept fun _ => h.assign ht

end Walk

section CarryOut

variable {results : List LocalVar}

mutual

theorem stmt_carryOut (h : Hereditary P) (ht : t.Keeps P) : ∀ (s : Stmt) (c : LinkContext), P (s.carryOut t results c)
  | .ret i e, c => by
    unfold Stmt.carryOut
    exact h.within (h.after minor_comment fun _ => h.give ht)
  | .assign i l r o b, c => by
    unfold Stmt.carryOut
    exact h.within (h.after minor_comment fun _ => h.assignTo ht l r)
  | .declare i v e, c => by
    unfold Stmt.carryOut
    exact h.within (h.after minor_comment fun _ => h.introduce ht)
  | .ifThen i e a none, c => by
    unfold Stmt.carryOut
    exact h.within (h.forkThen (fun _ _ => h.hold ht) (fun v => a.carryOut t results c (some (v, true)) false)
      fun v => h.block_carryOut ht a c _ _)
  | .ifThen i e a (some b), c => by
    unfold Stmt.carryOut
    exact h.within (h.forkElse (fun _ _ => h.hold ht) (fun v => a.carryOut t results c (some (v, true)) false)
      (fun v => "else [" ++ v.name ++ "]") (fun v => b.carryOut t results c (some (v, false)) false)
      (fun v => h.block_carryOut ht a c _ _) fun v => h.block_carryOut ht b c _ _)
  | .block b, c => by
    unfold Stmt.carryOut
    exact h.block_carryOut ht b c none true
  | .comment _, c | .blank, c => h.throw
  | .whileLoop .., c | .doWhile .., c | .forLoop .., c => h.throw
  | .breakLoop _, c | .continueLoop _, c | .eval .., c => h.throw
  | .require .., c | .seq .., c | .compute .., c => h.throw
  | .enterKey .., c => h.throw

theorem block_carryOut (h : Hereditary P) (ht : t.Keeps P) : ∀ (b : Block) (c : LinkContext)
    (guard : Option (CircuitVar × Bool)) (ownScope : Bool), P (b.carryOut t results c guard ownScope)
  | ⟨i, ss, single⟩, c, guard, ownScope => by
    unfold Block.carryOut
    have all := fun c => h.all_carryOut ht ss c
    refine h.within (h.after minor_comment fun _ => ?_)
    refine h.next (h.indented (h.maybeGuarded ?_)) fun _ => h.minor minor_comment
    split
    · exact h.inScope (all _)
    · exact all _

theorem all_carryOut (h : Hereditary P) (ht : t.Keeps P) : ∀ (ss : List Stmt) (c : LinkContext),
    P (Stmt.carryOutAll t results c ss)
  | [], c => h.pure
  | s :: ss, c => by
    unfold Stmt.carryOutAll
    exact h.next (h.stmt_carryOut ht s c) fun _ => h.all_carryOut ht ss _

end

include h ht

theorem carryOutWhole {c : LinkContext} {s : Stmt} : P (t.carryOutWhole c s) := by
  unfold Splitter.carryOutWhole
  dsimp only
  refine h.after minor_symbols fun _ => h.after (.mapM (fun _ => .ofExcept) _) fun values =>
    h.after minor_resultVars fun results => h.working ?_
  refine h.next (h.inline ht) fun e => h.next ?_ fun es => ?_
  · split
    · exact h.pure
    · exact h.pure
  refine h.next (h.mapM (fun _ => h.output ht) _) fun outs => h.next (h.forM (fun x => h.hand) _) fun _ => ?_
  split
  · exact h.pure
  · exact h.pure

end CarryOut

section Walk

include h ht

/-! ## Expressions inside a circuit -/

theorem inputRead {e : Expr} : P (do return (← t.input e).read) := h.next (h.input ht) fun _ => h.pure

theorem privateIdent {e : Expr} {n : Ident} : P (t.privateIdent e n) := by
  cases n with
  | circuit v =>
    unfold Splitter.privateIdent
    dsimp only
    split
    · exact h.failed
    · exact h.pure
  | plain s =>
    unfold Splitter.privateIdent
    dsimp only
    split
    · exact h.failed
    · refine h.next h.serve fun r => ?_
      split
      · exact h.pure
      · exact h.inputRead ht

theorem privateReclassify {type : AnnTy} {arg : Expr} : P (t.privateReclassify type arg) := by
  unfold Splitter.privateReclassify
  split
  · dsimp only
    split
    · exact h.throw
    · refine h.next (h.evaluate ht) fun p => ?_
      split
      · exact h.pure
      · exact h.throw
  · split
    · exact ht.privately arg
    · split
      · exact h.throw
      · exact h.inputRead ht

theorem homOperation {i func : Info} {op : Op} {p : Bool} {m : Hom} {r : Option Expr} {args : List Expr}
    {offset : Int} : P (t.homOperation i func op p m r args offset) := by
  unfold Splitter.homOperation
  refine h.after minor_backend fun b => ?_
  dsimp only
  split
  · exact h.throw
  · exact h.after minor_publicKey fun key => h.after (.mapM (fun _ => minor_homOperand) _) fun ops =>
      h.after minor_put fun _ => h.next (h.mapM ht.privately _) fun es => h.minor minor_put

theorem privateCall {e func : Expr} {args : List Expr} : P (t.privateCall e func args) := by
  unfold Splitter.privateCall
  refine h.after minor_symbols fun symbols => ?_
  split
  · exact h.throw
  · split
    · exact h.failed
    · refine h.after minor_read fun k => ?_
      split
      · exact h.inline ht
      · exact h.throw

theorem privateStep (e : Expr) : P (t.privateStep e) := by
  cases e with
  | ident i n r => exact h.privateIdent ht
  | index | member | me => exact h.inputRead ht
  | reclassify i m arg p o => exact h.privateReclassify ht
  | call i f args o key =>
    have same : P (do put (.call i f (← args.mapM t.privately) o key)) :=
      h.next (h.mapM ht.privately _) fun _ => h.minor minor_put
    unfold Splitter.privateStep
    dsimp only
    split
    · exact h.pure
    · exact h.pure
    · split
      · split
        · exact same
        · exact h.homOperation ht
      · split
        · split
          · exact same
          · exact h.throw
        · exact h.privateCall ht
  | tuple i es => exact h.next (h.mapM ht.privately _) fun _ => h.minor minor_put
  | cast i type arg b => exact h.next (ht.privately arg) fun _ => h.minor minor_put
  | new i args => exact h.next (h.mapM ht.privately _) fun _ => h.minor minor_put
  | operator | boolLit | numLit | arrayLit | all => exact h.pure

/-! ## Expressions of public code -/

theorem evaluateOwned {e : Expr} {m : Hom} : P (t.evaluateOwned e m) := by
  unfold Splitter.evaluateOwned
  split
  · exact h.evaluate ht
  · exact h.throw

theorem guardedOperand {guard : CircuitVar} {cond e : Expr} {holds : Bool} :
    P (t.guardedOperand guard cond holds e) := by
  unfold Splitter.guardedOperand
  refine h.after minor_draft? fun _ => h.next (h.optional (h.guarded (ht.publicly e))) fun _ =>
    h.after minor_draft? fun _ => ?_
  dsimp only
  split
  · exact h.after .ofExcept fun _ => h.after minor_modifyDraft fun _ => h.pure
  · exact h.pure

theorem shortCircuit {i : Info} {f : Expr} {op : Op} {args : List Expr} {offset : Int} {key : Option CircuitVar} :
    P (t.shortCircuit i f op args offset key) := by
  unfold Splitter.shortCircuit
  split
  · exact h.throw
  · refine h.next (h.input ht) fun guard => h.after .ofExcept fun first => ?_
    dsimp only
    refine h.next (h.foldlM (fun es p => ?_) _ _) fun _ => h.minor minor_put
    refine h.after minor_put fun _ => ?_
    split
    · exact h.throw
    · exact h.next (h.guardedOperand ht) fun _ => h.pure

theorem publicCall {i : Info} {f : Expr} {args : List Expr} {offset : Int} {key : Option CircuitVar} :
    P (t.publicCall i f args offset key) := by
  unfold Splitter.publicCall
  dsimp only
  split
  · exact h.failed
  · refine h.next (ht.publicly f) fun f => h.after minor_put fun _ => h.next (h.mapM ht.publicly _) fun args => ?_
    refine h.call fun s g target => ?_
    split
    · exact h.next h.overwrite fun _ => h.minor minor_put
    · exact h.next (h.forM (fun _ => h.event rfl rfl) _) fun _ => h.minor minor_put

theorem publicStep (e : Expr) : P (t.publicStep e) := by
  cases e with
  | me i => exact h.after minor_relink fun _ => h.pure
  | index i base key target =>
    exact h.next (ht.publicly base) fun _ => h.next (ht.publicly key) fun _ => h.after .ofExcept fun _ =>
      h.after minor_relink fun _ => h.pure
  | member i base n target => exact h.next (ht.publicly base) fun _ => h.minor minor_put
  | tuple i es => exact h.next (h.mapM ht.publicly _) fun _ => h.minor minor_put
  | reclassify i m arg p o =>
    unfold Splitter.publicStep
    dsimp only
    split
    · exact h.evaluate ht
    · exact h.throw
  | cast i type arg b =>
    unfold Splitter.publicStep
    dsimp only
    split
    · exact h.evaluateOwned ht
    · exact h.next (ht.publicly arg) fun _ => h.minor minor_put
  | call i f as o key =>
    have other : P (if (Expr.call i f as o key).isCastCall then
        if ((as.head?).map (·.info.privately)).getD false then
          t.evaluateOwned (.call i f as o key) (Expr.call i f as o key).checkedType.hom
        else do
          let f ← t.publicly f
          put (.call i f (← as.mapM t.publicly) o key)
      else t.publicCall i f as o key) := by
      split
      · split
        · exact h.evaluateOwned ht
        · exact h.next (ht.publicly f) fun _ => h.next (h.mapM ht.publicly _) fun _ => h.minor minor_put
      · exact h.publicCall ht
    unfold Splitter.publicStep
    dsimp only
    split
    · split
      · exact h.evaluateOwned ht
      · refine h.after minor_symbols fun symbols => ?_
        split
        · exact h.shortCircuit ht
        · exact h.next (h.mapM ht.publicly _) fun _ => h.minor minor_put
    · exact other
  | new | all => exact h.throw
  | ident | operator | boolLit | numLit | arrayLit => exact h.pure

end Walk

include h

/-- The activities of every level have the property. -/
theorem bounded (n : Nat) : (Splitter.bounded n).Keeps P := by
  induction n with
  | zero => exact ⟨fun _ => h.throw, fun _ => h.throw, fun _ _ _ => h.throw⟩
  | succ n ih => exact ⟨h.publicStep ih, h.privateStep ih, fun _ c b => h.block_carryOut ih b c none false⟩

/-! ## Statements of public code -/

section Statements

variable {b : BodySplit} (hb : b.splitter.Keeps P)

include hb

theorem body_assign {i : StmtInfo} {l r : Expr} {op : String} {isInput : Bool} : P (b.assign i l r op isInput) := by
  unfold BodySplit.assign
  refine h.next (hb.publicly l) fun l => h.after minor_restate fun _ => h.next (hb.publicly r) fun r =>
    h.after minor_options fun o => ?_
  split
  · rename_i x v _
    exact h.know_then (e := .hand x v) rfl nofun fun _ => h.next h.overwrite fun _ => h.pure
  · exact h.next h.overwrite fun _ => h.pure

theorem body_giveBack {i : StmtInfo} {value : Option Expr} : P (b.giveBack i value) := by
  unfold BodySplit.giveBack
  dsimp only
  split
  · exact h.next (h.optionally hb.publicly) fun _ => h.pure
  · split
    · exact h.pure
    · refine h.after minor_circuit fun c => ?_
      split
      · exact h.failed
      · exact h.next h.givesResult fun _ => h.next (hb.publicly _) fun _ => h.pure

/-! ### Branches and loops -/

variable {i : StmtInfo} {e : Expr} {c : LinkContext}

theorem split_ifThen {t : Block} (ht : P (t.split b c)) : P ((Stmt.ifThen i e t none).split b c) := by
  unfold Stmt.split
  dsimp only
  split
  · exact h.next (h.carryOutWhole hb) fun _ => h.pure
  · refine h.next (h.working (h.after minor_symbols fun symbols => ?_)) fun _ => h.pure
    split
    · exact h.next (hb.publicly e) fun _ => h.next (h.optional ht) fun _ => h.pure
    · exact h.chooseThen (b.splitter.input e) (fun g => ofExcept (guardValue g e)) (t.split b c)
        (fun e t => do
          forgetAll (i.writes.filterMap Variable.ofLoc?)
          note .resume
          return Stmt.ifThen i e t none)
        (h.input hb) (fun _ => h.minor .ofExcept) ht
        fun _ _ => h.next h.forget fun _ => h.next (h.event rfl rfl) fun _ => h.pure

theorem split_ifElse {t f : Block} (ht : P (t.split b c)) (hf : P (f.split b c)) :
    P ((Stmt.ifThen i e t (some f)).split b c) := by
  unfold Stmt.split
  dsimp only
  split
  · exact h.next (h.carryOutWhole hb) fun _ => h.pure
  · refine h.next (h.working (h.after minor_symbols fun symbols => ?_)) fun _ => h.pure
    split
    · refine h.next (hb.publicly e) fun e => ?_
      exact h.either (t.split b c) (note .resume >>= fun _ => f.split b c)
        (fun t f => do
          note .resume
          return Stmt.ifThen i e t (some f))
        ht (h.next (h.event rfl rfl) fun _ => hf) fun _ _ => h.next (h.event rfl rfl) fun _ => h.pure
    · exact h.chooseElse (b.splitter.input e) (fun g => ofExcept (guardValue g e)) (t.split b c) (f.split b c)
        (fun e t f => do
          forgetAll (i.writes.filterMap Variable.ofLoc?)
          note .resume
          return Stmt.ifThen i e t (some f))
        (h.input hb) (fun _ => h.minor .ofExcept) ht hf
        fun _ _ _ => h.next h.forget fun _ => h.next (h.event rfl rfl) fun _ => h.pure

theorem split_while {body : Block} (hp : P (body.split b c)) : P ((Stmt.whileLoop i e body).split b c) := by
  unfold Stmt.split
  refine h.after minor_checkLoop fun _ => h.next (h.working (h.repeated ?_)) fun _ => h.pure
  exact h.next (h.lap (hb.publicly e)) fun _ => h.next (h.lap hp) fun _ => h.pure

theorem split_doWhile {body : Block} (hp : P (body.split b c)) : P ((Stmt.doWhile i body e).split b c) := by
  unfold Stmt.split
  refine h.after minor_checkLoop fun _ => h.next (h.working (h.repeated ?_)) fun _ => h.pure
  exact h.next (h.lap hp) fun _ => h.after minor_restate fun _ => h.next (h.lap (hb.publicly e)) fun _ => h.pure

theorem split_for {init update : Option Stmt} {body : Block} (hi : ∀ c, P (Stmt.splitOptional b c init))
    (hu : ∀ c, P (Stmt.splitOptional b c update)) (hp : ∀ c, P (body.split b c)) :
    P ((Stmt.forLoop i init e update body).split b c) := by
  unfold Stmt.split
  dsimp only
  refine h.after minor_checkLoop fun _ => h.next (hi _) fun _ => h.next (h.working (h.repeated ?_)) fun _ => h.pure
  exact h.next (h.lap (hb.publicly e)) fun _ => h.next (h.lap (hu _)) fun _ => h.next (h.lap (hp _)) fun _ => h.pure

end Statements

omit h

section Statements

variable {b : BodySplit}

mutual

theorem stmt_split (h : Hereditary P) (hb : b.splitter.Keeps P) : ∀ (s : Stmt) (c : LinkContext), P (s.split b c)
  | .assign i l r o x, c => by
    unfold Stmt.split
    exact h.next (h.working (h.body_assign hb)) fun _ => h.pure
  | .ret i e, c => by
    unfold Stmt.split
    exact h.working (h.body_giveBack hb)
  | .eval i e, c => by
    unfold Stmt.split
    exact h.next (h.working (hb.publicly e)) fun _ => h.pure
  | .require i e, c => by
    unfold Stmt.split
    exact h.next (h.working (hb.publicly e)) fun _ => h.pure
  | .declare i v e, c => by
    unfold Stmt.split
    exact h.after minor_options fun _ => h.after (minor_linking LinkM.growing_record) fun _ =>
      h.next (h.working (h.optionally hb.publicly)) fun _ => h.pure
  | .ifThen i e t none, c => h.split_ifThen hb (h.block_split hb t c)
  | .ifThen i e t (some f), c => h.split_ifElse hb (h.block_split hb t c) (h.block_split hb f c)
  | .whileLoop i e body, c => h.split_while hb (h.block_split hb body c)
  | .doWhile i body e, c => h.split_doWhile hb (h.block_split hb body c)
  | .forLoop i init e update body, c => h.split_for hb (fun c => h.optional_split hb init c)
      (fun c => h.optional_split hb update c) fun c => h.block_split hb body c
  | .block body, c => by
    unfold Stmt.split
    exact h.next (h.block_split hb body c) fun _ => h.pure
  | .seq i ss x, c => by
    unfold Stmt.split
    exact h.next (h.all_split hb ss c) fun _ => h.pure
  | .comment _, c | .blank, c => h.throw
  | .breakLoop _, c | .continueLoop _, c | .compute .., c | .enterKey .., c => h.pure

theorem optional_split (h : Hereditary P) (hb : b.splitter.Keeps P) : ∀ (s : Option Stmt) (c : LinkContext),
    P (Stmt.splitOptional b c s)
  | none, _ => h.pure
  | some s, c => h.stmt_split hb s c

theorem block_split (h : Hereditary P) (hb : b.splitter.Keeps P) : ∀ (body : Block) (c : LinkContext),
    P (body.split b c)
  | ⟨i, ss, single⟩, c => by
    unfold Block.split
    exact h.next (h.all_split hb ss _) fun _ => h.pure

theorem all_split (h : Hereditary P) (hb : b.splitter.Keeps P) : ∀ (ss : List Stmt) (c : LinkContext),
    P (Stmt.splitAll b c ss)
  | [], _ => h.pure
  | s :: ss, c => by
    unfold Stmt.splitAll
    exact h.next (h.stmt_split hb s c) fun _ => h.next (h.all_split hb ss _) fun _ => h.pure

end

end Statements

end SplitM.Hereditary

end Shroud
