import Mathlib.Data.Set.Basic
import Shroud.Proofs.Evaluation
import Shroud.Proofs.Nodes

/-!
# Running programs step by step

The runs of a program tell what becomes of the storage, but not which variables were looked at on the way: a value that is
read and never used leaves no mark. Here activities are laid out as the steps that they take, and so is everything that
the code of a program does.

**Scripts.** In a step a variable is read, or it is changed from what it was; what comes next depends on the value that was
read. A part of a variable is changed by way of the whole variable, which is a change and no reading.

**Traces.** `Script.trace` lists the variables that are read and written from a given storage on. A run that fails has a
trace too, up to where it fails.

**Confinement.** `Script.Within R W p`: whatever the storage holds, `p` reads no variable outside `R` and writes none
outside `W`. There is one rule for each way of putting scripts together.

**The same runs.** Carried out, the scripts are what the evaluation does (`Expr.run_evalSteps`, `Stmt.run_execSteps`,
`Machine.setting_staged`).
-/

namespace Shroud

variable {V α β : Type}

/-- What an activity does to the storage, step by step. -/
inductive Script (V α : Type) : Type where
  | done (a : α)
  | fail
  | read (x : Nat) (self : V) (next : V → Script V α)
  | change (x : Nat) (self : V) (f : V → Option V) (next : Script V α)

/-- A state variable is read or written. -/
inductive Touch where
  | read (x : Nat)
  | write (x : Nat)
  deriving DecidableEq, Repr

namespace Script

def bind : Script V α → (α → Script V β) → Script V β
  | .done a, g => g a
  | .fail, _ => .fail
  | .read x self next, g => .read x self fun v => (next v).bind g
  | .change x self f next, g => .change x self f (next.bind g)

instance : Monad (Script V) where
  pure := .done
  bind := bind

/-- Take the value of a computation that may fail. -/
def lift : Option α → Script V α
  | none => .fail
  | some a => .done a

/-- The value of a state variable of an instance. -/
def fetch (x : Nat) (self : V) : Script V V := .read x self .done

/-- One activity after the other. -/
def inTurn : List (Script V α) → Script V (List α)
  | [] => return []
  | p :: ps => do
    let a ← p
    return a :: (← inTurn ps)

section Run

variable [DecidableEq V]

/-- Carry out the script. -/
def run : Script V α → Act V α
  | .done a => pure a
  | .fail => failure
  | .read x self next => do (next (← Act.fetch x self)).run
  | .change x self f next => do
    Act.assign x self (← Act.lift (f (← Act.fetch x self)))
    next.run

/-- The variables that are read and written from a storage on. -/
def trace : Script V α → Storage V → List Touch
  | .done _, _ => []
  | .fail, _ => []
  | .read x self next, σ => .read x :: (next (σ x self)).trace σ
  | .change x self f next, σ =>
    match f (σ x self) with
    | none => []
    | some w => .write x :: next.trace (Function.update σ x (Function.update (σ x) self w))

theorem run_read (x : Nat) (self : V) (next : V → Script V α) (σ : Storage V) :
    (Script.read x self next).run σ = (next (σ x self)).run σ := rfl

theorem run_change (x : Nat) (self : V) (f : V → Option V) (next : Script V α) (σ : Storage V) :
    (Script.change x self f next).run σ =
      (f (σ x self)).bind fun w => next.run (Function.update σ x (Function.update (σ x) self w)) := by
  show (((f (σ x self)).map fun w => (w, σ)).bind fun r => _) = _
  cases f (σ x self) <;> rfl

theorem trace_change (x : Nat) (self : V) (f : V → Option V) (next : Script V α) (σ : Storage V) :
    (Script.change x self f next).trace σ = match f (σ x self) with
      | none => []
      | some w => .write x :: next.trace (Function.update σ x (Function.update (σ x) self w)) := rfl

theorem run_bind (p : Script V α) (g : α → Script V β) : (p >>= g).run = p.run >>= fun a => (g a).run := by
  funext σ
  induction p generalizing σ with
  | done a => rfl
  | fail => rfl
  | read x self next ih => exact ih (σ x self) σ
  | change x self f next ih =>
    show (Script.change x self f (next.bind g)).run σ = ((Script.change x self f next).run σ).bind fun r => (g r.1).run r.2
    rw [run_change, run_change]
    cases f (σ x self) with
    | none => rfl
    | some w => exact ih _

/-- What comes next is traced from where the first steps end; if they fail, nothing does. -/
theorem trace_bind (p : Script V α) (g : α → Script V β) (σ : Storage V) :
    (p >>= g).trace σ = p.trace σ ++ match p.run σ with
      | none => []
      | some (a, τ) => (g a).trace τ := by
  induction p generalizing σ with
  | done a => rfl
  | fail => rfl
  | read x self next ih => exact congrArg (Touch.read x :: ·) (ih (σ x self) σ)
  | change x self f next ih =>
    show (Script.change x self f (next.bind g)).trace σ = _
    rw [run_change, trace_change, trace_change]
    cases f (σ x self) with
    | none => rfl
    | some w => exact congrArg (Touch.write x :: ·) (ih _)

theorem run_lift (x : Option α) : (lift x : Script V α).run = Act.lift x := by
  cases x <;> rfl

theorem run_ite (c : Prop) [Decidable c] (p q : Script V α) :
    (if c then p else q).run = if c then p.run else q.run :=
  apply_ite run c p q

theorem run_inTurn (ps : List (Script V α)) : (inTurn ps).run = Act.inTurn (ps.map run) := by
  induction ps with
  | nil => rfl
  | cons p ps ih =>
    rw [inTurn, run_bind, List.map_cons, Act.inTurn]
    congr 1
    funext a
    rw [run_bind, ih]
    rfl

/-! ### Confinement -/

/-- Whatever the storage holds, no variable outside `R` is read and none outside `W` is written. -/
structure Within (R W : Set Nat) (p : Script V α) : Prop where
  reads : ∀ {σ x}, .read x ∈ p.trace σ → x ∈ R
  writes : ∀ {σ x}, .write x ∈ p.trace σ → x ∈ W

namespace Within

variable {R W R' W' : Set Nat}

theorem mono {p : Script V α} (h : p.Within R W) (hR : R ⊆ R') (hW : W ⊆ W') : p.Within R' W' :=
  ⟨fun hx => hR (h.reads hx), fun hx => hW (h.writes hx)⟩

theorem pure (a : α) : (Pure.pure a : Script V α).Within R W := ⟨nofun, nofun⟩

theorem fail : (Script.fail : Script V α).Within R W := ⟨nofun, nofun⟩

theorem lift (x : Option α) : (Script.lift x : Script V α).Within R W := by
  cases x with
  | none => exact fail
  | some a => exact pure a

theorem fetch {x : Nat} (hx : x ∈ R) (self : V) : (Script.fetch x self).Within R W := by
  refine ⟨fun touched => ?_, fun touched => ?_⟩
  · cases List.mem_singleton.mp touched
    exact hx
  · cases List.mem_singleton.mp touched

theorem change {x : Nat} (hx : x ∈ W) (self : V) (f : V → Option V) (a : α) :
    (Script.change x self f (.done a)).Within R W := by
  have only {σ : Storage V} {t : Touch} (touched : t ∈ (Script.change x self f (.done a)).trace σ) : t = .write x := by
    rw [trace_change] at touched
    split at touched
    · cases touched
    · exact List.mem_singleton.mp touched
  refine ⟨fun touched => ?_, fun touched => ?_⟩
  · cases only touched
  · cases only touched
    exact hx

theorem bind {p : Script V α} {g : α → Script V β} (hp : p.Within R W) (hg : ∀ a, (g a).Within R W) :
    (p >>= g).Within R W := by
  -- a variable is touched first, or afterwards by what the first result leads to
  have cases_ {σ : Storage V} {t : Touch} (touched : t ∈ (p >>= g).trace σ) :
      t ∈ p.trace σ ∨ ∃ a τ, t ∈ (g a).trace τ := by
    rw [trace_bind] at touched
    refine (List.mem_append.mp touched).imp_right fun later => ?_
    cases run : p.run σ with
    | none =>
      rw [run] at later
      cases later
    | some r =>
      rw [run] at later
      exact ⟨r.1, r.2, later⟩
  refine ⟨fun touched => ?_, fun touched => ?_⟩
  · rcases cases_ touched with first | ⟨a, τ, later⟩
    · exact hp.reads first
    · exact (hg a).reads later
  · rcases cases_ touched with first | ⟨a, τ, later⟩
    · exact hp.writes first
    · exact (hg a).writes later

theorem inTurn {ps : List (Script V α)} (h : ∀ p ∈ ps, p.Within R W) : (Script.inTurn ps).Within R W := by
  induction ps with
  | nil => exact pure []
  | cons p ps ih =>
    rw [List.forall_mem_cons] at h
    exact h.1.bind fun a => (ih h.2).bind fun as => pure (a :: as)

end Within

end Run

end Script

/-! ## Expressions -/

/-- What code needs to run step by step. -/
structure Staging (V : Type) extends Machine V where
  symbols : Symbols
  calls : FunctionDef → V → List V → Script V V
  limit : Nat

/-- The setting in which calls carry out their steps. -/
def Staging.setting [DecidableEq V] (s : Staging V) : Setting V :=
  ⟨s.toMachine, s.symbols, fun f self args => (s.calls f self args).run, s.limit⟩

namespace Staging

variable (s : Staging V)

def operate (e : Expr) : Op → List (Script V V) → Script V V
  | .and, [a, b] => do
    let v ← a
    if s.holds v then b else return v
  | .or, [a, b] => do
    let v ← a
    if s.holds v then return v else b
  | .ite, [c, a, b] => do
    let v ← c
    if s.holds v then a else b
  | _, operands => do Script.lift (s.combine e (← Script.inTurn operands))

def perform (e f : Expr) (self : V) (args : List V) : Script V V :=
  if e.isCastCall then Script.lift (s.combine e args)
  else match s.symbols.callee? f with
    | some g => s.calls g self args
    | none => Script.lift (s.combine e (self :: args))

def name (φ : Activation V) (e : Expr) : Script V V :=
  match e.target? with
  | some (.decl .stateVar x) => Script.fetch x φ.self
  | some (.decl .localVar x) | some (.decl .parameter x) => Script.lift (φ.vars x)
  | _ => return s.constant e

section Run

variable [DecidableEq V]

theorem run_operate (e : Expr) (op : Op) (ps : List (Script V V)) :
    (s.operate e op ps).run = s.setting.operate e op (ps.map Script.run) := by
  fun_cases operate s e op ps with
  | case1 | case2 | case3 =>
    rw [Script.run_bind]
    simp only [Script.run_ite]
    rfl
  | case4 _ _ notAnd notOr notIte =>
    rw [Script.run_bind, Script.run_inTurn]
    simp only [Script.run_lift]
    -- the operands are as many after they were carried out
    unfold Setting.operate
    split
    · rename_i h
      match ps, h, notAnd with
      | [a, b], _, notAnd => exact (notAnd a b rfl rfl).elim
    · rename_i h
      match ps, h, notOr with
      | [a, b], _, notOr => exact (notOr a b rfl rfl).elim
    · rename_i h
      match ps, h, notIte with
      | [c, a, b], _, notIte => exact (notIte c a b rfl rfl).elim
    · rfl

theorem run_perform (e f : Expr) (self : V) (args : List V) :
    (s.perform e f self args).run = s.setting.perform e f self args := by
  unfold perform Setting.perform
  rw [Script.run_ite, Script.run_lift]
  show ite _ _ (Script.run (match s.symbols.callee? f with | some g => _ | none => _)) =
    ite _ _ (match s.symbols.callee? f with | some g => _ | none => _)
  cases s.symbols.callee? f with
  | none => rw [Script.run_lift]; rfl
  | some g => rfl

theorem run_name (φ : Activation V) (e : Expr) : (s.name φ e).run = s.setting.name φ e := by
  unfold name Setting.name
  cases e.target? with
  | none => rfl
  | some r =>
    cases r with
    | decl k x =>
      cases k with
      | localVar | parameter => exact Script.run_lift _
      | _ => rfl
    | element | keyLabel => rfl

end Run

end Staging

mutual

/-- The steps that an expression is evaluated in. -/
def Expr.evalSteps (s : Staging V) (φ : Activation V) : Expr → Script V V
  | .call i f as o k =>
    match f with
    | .operator _ op _ _ _ => s.operate (.call i f as o k) op (Expr.evalStepsAll s φ as)
    | _ => do
      let self ← f.receiverSteps s φ
      s.perform (.call i f as o k) f self (← Script.inTurn (Expr.evalStepsAll s φ as))
  | .new i as => do Script.lift (s.combine (.new i as) (← Script.inTurn (Expr.evalStepsAll s φ as)))
  | .cast i t e b => do Script.lift (s.combine (.cast i t e b) [← e.evalSteps s φ])
  | .arrayLit i vs k => do Script.lift (s.combine (.arrayLit i vs k) (← Script.inTurn (Expr.evalStepsAll s φ vs)))
  | .tuple i es => do Script.lift (s.combine (.tuple i es) (← Script.inTurn (Expr.evalStepsAll s φ es)))
  | .ident i n t => s.name φ (.ident i n t)
  | .member i b n t =>
    match t with
    | some (.decl .stateVar x) => (if b.isContractName then pure φ.self else b.evalSteps s φ) >>= Script.fetch x
    | _ => do Script.lift (s.combine (.member i b n t) [← b.evalSteps s φ])
  | .index i b k t => do
    let v ← b.evalSteps s φ
    Script.lift (s.combine (.index i b k t) [v, ← k.evalSteps s φ])
  | .reclassify i m e p h => do
    let v ← e.evalSteps s φ
    Script.lift (s.combine (.reclassify i m e p h) [v, ← p.evalSteps s φ])
  | e => return s.constant e

def Expr.receiverSteps (s : Staging V) (φ : Activation V) : Expr → Script V V
  | .member _ b _ _ => if b.isContractName then return φ.self else b.evalSteps s φ
  | _ => return φ.self

def Expr.evalStepsAll (s : Staging V) (φ : Activation V) : List Expr → List (Script V V)
  | [] => []
  | e :: es => e.evalSteps s φ :: Expr.evalStepsAll s φ es

end

mutual

/-- The steps in which the keys are evaluated on the way to the places that are assigned to. -/
def Expr.locateSteps (s : Staging V) (φ : Activation V) : Expr → Script V (List (List V))
  | .member _ b _ _ => b.locateSteps s φ
  | .index _ b k _ => do
    let places ← b.locateSteps s φ
    let v ← k.evalSteps s φ
    return places.map (· ++ [v])
  | .tuple _ es => do return (← Script.inTurn (Expr.locateStepsAll s φ es)).flatten
  | _ => return [[]]

def Expr.locateStepsAll (s : Staging V) (φ : Activation V) : List Expr → List (Script V (List (List V)))
  | [] => []
  | e :: es => e.locateSteps s φ :: Expr.locateStepsAll s φ es

end

theorem Expr.evalStepsAll_eq (s : Staging V) (φ : Activation V) (es : List Expr) :
    Expr.evalStepsAll s φ es = es.map (Expr.evalSteps s φ) := by
  induction es with
  | nil => rfl
  | cons e es ih => rw [evalStepsAll, ih, List.map_cons]

theorem Expr.locateStepsAll_eq (s : Staging V) (φ : Activation V) (es : List Expr) :
    Expr.locateStepsAll s φ es = es.map (Expr.locateSteps s φ) := by
  induction es with
  | nil => rfl
  | cons e es ih => rw [locateStepsAll, ih, List.map_cons]

theorem Expr.evals_eq (s : Setting V) (φ : Activation V) (es : List Expr) :
    Expr.evals s φ es = es.map (Expr.eval s φ) := by
  induction es with
  | nil => rfl
  | cons e es ih => rw [evals, ih, List.map_cons]

theorem Expr.locates_eq (s : Setting V) (φ : Activation V) (es : List Expr) :
    Expr.locates s φ es = es.map (Expr.locate s φ) := by
  induction es with
  | nil => rfl
  | cons e es ih => rw [locates, ih, List.map_cons]

section Expressions

variable [DecidableEq V] (s : Staging V)

theorem Expr.run_evalStepsAll (φ : Activation V) (es : List Expr)
    (h : ∀ e ∈ es, (e.evalSteps s φ).run = e.eval s.setting φ) :
    (Expr.evalStepsAll s φ es).map Script.run = Expr.evals s.setting φ es := by
  rw [evalStepsAll_eq, evals_eq, List.map_map]
  exact List.map_congr_left h

/-- Carried out, the steps of an expression, and of the instance that it selects, are its evaluation. -/
theorem Expr.run_evalSteps (φ : Activation V) (e : Expr) :
    (e.evalSteps s φ).run = e.eval s.setting φ ∧ (e.receiverSteps s φ).run = e.receiver s.setting φ := by
  have list {es : List Expr} (ih : ∀ e ∈ es, (e.evalSteps s φ).run = e.eval s.setting φ ∧
      (e.receiverSteps s φ).run = e.receiver s.setting φ) :
      (Script.inTurn (Expr.evalStepsAll s φ es)).run = Act.inTurn (Expr.evals s.setting φ es) := by
    rw [Script.run_inTurn, Expr.run_evalStepsAll s φ es fun e he => (ih e he).1]
  induction e using Expr.inductOn with
  | call i f as o k hf ha =>
    refine ⟨?_, rfl⟩
    unfold evalSteps eval
    split
    · rw [Staging.run_operate, Expr.run_evalStepsAll s φ as fun e he => (ha e he).1]
    · rw [Script.run_bind, hf.2]
      simp only [Script.run_bind, list ha, Staging.run_perform]
  | new i as ha =>
    refine ⟨?_, rfl⟩
    rw [evalSteps, Script.run_bind, list ha]
    simp only [Script.run_lift]
    rfl
  | cast i t e b he =>
    refine ⟨?_, rfl⟩
    rw [evalSteps, Script.run_bind, he.1]
    simp only [Script.run_lift]
    rfl
  | arrayLit i vs k hv =>
    refine ⟨?_, rfl⟩
    rw [evalSteps, Script.run_bind, list hv]
    simp only [Script.run_lift]
    rfl
  | tuple i es he =>
    refine ⟨?_, rfl⟩
    rw [evalSteps, Script.run_bind, list he]
    simp only [Script.run_lift]
    rfl
  | member i b n t hb =>
    have base : (if b.isContractName then pure φ.self else b.evalSteps s φ : Script V V).run =
        (if b.isContractName then pure φ.self else b.eval s.setting φ) := by
      rw [Script.run_ite, hb.1]
      rfl
    refine ⟨?_, base⟩
    unfold evalSteps eval
    split
    · rw [Script.run_bind, base]
      rfl
    · rw [Script.run_bind, hb.1]
      simp only [Script.run_lift]
      rfl
  | index i b k t hb hk =>
    refine ⟨?_, rfl⟩
    rw [evalSteps, Script.run_bind, hb.1]
    simp only [Script.run_bind, hk.1, Script.run_lift]
    rfl
  | reclassify i m e p h he hp =>
    refine ⟨?_, rfl⟩
    rw [evalSteps, Script.run_bind, he.1]
    simp only [Script.run_bind, hp.1, Script.run_lift]
    rfl
  | leaf e he =>
    cases e with
    | ident i n t => exact ⟨Staging.run_name s φ _, rfl⟩
    | operator | boolLit | numLit | me | all => exact ⟨rfl, rfl⟩
    | call | new | cast | arrayLit | tuple | member | index | reclassify => cases he

theorem Expr.run_locateSteps (φ : Activation V) (e : Expr) :
    (e.locateSteps s φ).run = e.locate s.setting φ := by
  induction e using Expr.inductOn with
  | member i b n t hb => exact hb
  | index i b k t hb _ =>
    rw [locateSteps, Script.run_bind, hb]
    simp only [Script.run_bind, (k.run_evalSteps s φ).1]
    rfl
  | tuple i es he =>
    have all : (Expr.locateStepsAll s φ es).map Script.run = Expr.locates s.setting φ es := by
      rw [locateStepsAll_eq, locates_eq, List.map_map]
      exact List.map_congr_left he
    rw [locateSteps, Script.run_bind, Script.run_inTurn, all]
    rfl
  | call | new | cast | arrayLit | reclassify => rfl
  | leaf e he =>
    cases e with
    | operator | boolLit | numLit | ident | me | all => rfl
    | call | new | cast | arrayLit | tuple | member | index | reclassify => cases he

end Expressions

/-! ## Statements -/

/-- The steps of a statement. -/
abbrev Plan (V : Type) := Activation V → Script V (Ending V × Activation V)

namespace Plan

def resume (next : Plan V) : Ending V × Activation V → Script V (Ending V × Activation V)
  | (.broken, φ) => return (.normal, φ)
  | (.returned v, φ) => return (.returned v, φ)
  | (_, φ) => next φ

def rounds (test : Activation V → Script V Bool) (round : Plan V) : Nat → Plan V
  | 0, _ => .fail
  | n + 1, φ => do
    if ← test φ then resume (rounds test round n) (← round φ)
    else return (.normal, φ)

def andThen (first next : Plan V) : Plan V := fun φ => do
  match ← first φ with
  | (.normal, ψ) => next ψ
  | r => return r

def andFinally (round last : Plan V) : Plan V := fun φ => do
  match ← round φ with
  | (.normal, ψ) | (.continued, ψ) => last ψ
  | r => return r

section Run

variable [DecidableEq V]

/-- Carry out the steps. -/
def routine (x : Plan V) : Routine V := fun φ => (x φ).run

theorem run_resume (x : Plan V) (r : Ending V × Activation V) : (resume x r).run = Routine.resume x.routine r := by
  obtain ⟨o, φ⟩ := r
  cases o <;> rfl

theorem routine_rounds (test : Activation V → Script V Bool) (round : Plan V) (n : Nat) :
    (rounds test round n).routine = Routine.rounds (fun φ => (test φ).run) round.routine n := by
  induction n with
  | zero => rfl
  | succ n ih =>
    funext φ
    unfold routine rounds Routine.rounds
    rw [Script.run_bind]
    congr 1
    funext b
    cases b with
    | false => rfl
    | true =>
      show (_ >>= _ : Script V _).run = _
      rw [Script.run_bind]
      simp only [run_resume, ih]
      rfl

theorem routine_andThen (x y : Plan V) : (x.andThen y).routine = x.routine.andThen y.routine := by
  funext φ
  unfold routine andThen Routine.andThen
  rw [Script.run_bind]
  congr 1
  funext r
  obtain ⟨o, ψ⟩ := r
  cases o <;> rfl

theorem routine_andFinally (x y : Plan V) : (x.andFinally y).routine = x.routine.andFinally y.routine := by
  funext φ
  unfold routine andFinally Routine.andFinally
  rw [Script.run_bind]
  congr 1
  funext r
  obtain ⟨o, ψ⟩ := r
  cases o <;> rfl

end Run

end Plan

section Statements

variable [DecidableEq V] (s : Staging V)

def Staging.store (place : Expr) (keys : List V) (v : V) (φ : Activation V) : Script V (Activation V) :=
  match place.root? with
  | some (.decl .stateVar x) => .change x φ.self (fun old => s.put place keys old v) (.done φ)
  | some (.decl .localVar x) | some (.decl .parameter x) => do
    let w ← Script.lift ((φ.vars x).bind fun old => s.put place keys old v)
    return { φ with vars := Function.update φ.vars x (some w) }
  | _ => .fail

def Staging.storeAll : List (Expr × List V × V) → Activation V → Script V (Activation V)
  | [], φ => return φ
  | (place, keys, v) :: rest, φ => do storeAll rest (← s.store place keys v φ)

def Expr.testSteps (c : Expr) (φ : Activation V) : Script V Bool := do return s.holds (← c.evalSteps s φ)

mutual

/-- The steps that a statement is executed in. -/
def Stmt.execSteps : Stmt → Plan V
  | .ifThen _ c t e => fun φ => do
    if ← c.testSteps s φ then t.execSteps φ
    else match e with
      | none => return (.normal, φ)
      | some e => e.execSteps φ
  | .whileLoop _ c b => Plan.rounds (c.testSteps s) b.execSteps s.limit
  | .doWhile _ b c => fun φ => do Plan.resume (Plan.rounds (c.testSteps s) b.execSteps s.limit) (← b.execSteps φ)
  | .forLoop _ a c u b =>
    let first : Plan V := match a with
      | none => fun φ => return (.normal, φ)
      | some a => a.execSteps
    let last : Plan V := match u with
      | none => fun φ => return (.normal, φ)
      | some u => u.execSteps
    first.andThen (Plan.rounds (c.testSteps s) (Plan.andFinally b.execSteps last) s.limit)
  | .breakLoop _ => fun φ => return (.broken, φ)
  | .continueLoop _ => fun φ => return (.continued, φ)
  | .ret _ none => fun φ => return (.returned none, φ)
  | .ret _ (some e) => fun φ => do return (.returned (← e.evalSteps s φ), φ)
  | .eval _ e => fun φ => do
    let _ ← e.evalSteps s φ
    return (.normal, φ)
  | .require _ c => fun φ => do
    if ← c.testSteps s φ then return (.normal, φ) else .fail
  | .assign _ l r _ _ => fun φ => do
    let v ← r.evalSteps s φ
    let places ← l.locateSteps s φ
    let vs ← Script.lift (s.setting.components l v)
    return (.normal, ← s.storeAll (l.assignees.zip (places.zip vs)) φ)
  | .declare _ v e => fun φ => do
    let w ← (match e with
      | none => pure (s.initial v.type)
      | some e => e.evalSteps s φ : Script V V)
    return (.normal, { φ with vars := Function.update φ.vars v.id (some w) })
  | .block b => b.execSteps
  | .seq _ ss _ => Stmt.execStepsAll ss
  | _ => fun φ => return (.normal, φ)

def Block.execSteps : Block → Plan V
  | ⟨_, ss, _⟩ => Stmt.execStepsAll ss

def Stmt.execStepsAll : List Stmt → Plan V
  | [] => fun φ => return (.normal, φ)
  | t :: ts => Plan.andThen t.execSteps (Stmt.execStepsAll ts)

end

theorem Staging.run_store (place : Expr) (keys : List V) (v : V) (φ : Activation V) :
    (s.store place keys v φ).run = s.setting.store place keys v φ := by
  have part (x : Nat) : (do
      let w ← Script.lift ((φ.vars x).bind fun old => s.put place keys old v)
      return { φ with vars := Function.update φ.vars x (some w) } : Script V (Activation V)).run = (do
      let w ← Act.lift ((φ.vars x).bind fun old => s.put place keys old v)
      return { φ with vars := Function.update φ.vars x (some w) } : Act V (Activation V)) := by
    rw [Script.run_bind, Script.run_lift]
    rfl
  unfold store Setting.store
  cases place.root? with
  | none => rfl
  | some r =>
    cases r with
    | decl k x =>
      cases k with
      | localVar | parameter => exact part x
      | _ => rfl
    | element | keyLabel => rfl

theorem Staging.run_storeAll (ps : List (Expr × List V × V)) (φ : Activation V) :
    (s.storeAll ps φ).run = s.setting.storeAll ps φ := by
  induction ps generalizing φ with
  | nil => rfl
  | cons p ps ih =>
    rw [storeAll, Setting.storeAll, Script.run_bind, run_store]
    simp only [ih]

theorem Expr.run_testSteps (c : Expr) (φ : Activation V) : (c.testSteps s φ).run = c.test s.setting φ := by
  rw [testSteps, Script.run_bind, (c.run_evalSteps s φ).1]
  rfl

/-- Carried out, the steps of a statement are its execution. -/
theorem Stmt.run_execSteps (t : Stmt) : (t.execSteps s).routine = t.exec s.setting := by
  have all (ts : List Stmt) (ih : ∀ t ∈ ts, (t.execSteps s).routine = t.exec s.setting) :
      (Stmt.execStepsAll s ts).routine = Stmt.execAll s.setting ts := by
    induction ts with
    | nil => rfl
    | cons t ts iht =>
      rw [List.forall_mem_cons] at ih
      rw [execStepsAll, Plan.routine_andThen, ih.1, iht ih.2, execAll]
  have body : ∀ b : Block, (∀ t ∈ b.stmts, (t.execSteps s).routine = t.exec s.setting) →
      (b.execSteps s).routine = b.exec s.setting := by
    rintro ⟨_, ts, _⟩ ih
    exact all ts ih
  have test (c : Expr) : (fun φ => (c.testSteps s φ).run) = c.test s.setting := funext (c.run_testSteps s)
  have loop (c : Expr) {x : Plan V} {y : Routine V} (h : x.routine = y) (n : Nat) :
      (Plan.rounds (c.testSteps s) x n).routine = Routine.rounds (c.test s.setting) y n := by
    rw [Plan.routine_rounds, test, h]
  induction t using Stmt.inductOn with
  | ifThen i c t e ht he =>
    funext φ
    unfold Plan.routine execSteps exec
    rw [Script.run_bind, c.run_testSteps]
    congr 1
    funext b
    rw [Script.run_ite]
    congr 1
    · exact congrFun (body t ht) φ
    · cases e with
      | none => rfl
      | some e => exact congrFun (body e (he e rfl)) φ
  | whileLoop i c b hb => exact loop c (body b hb) s.limit
  | doWhile i b c hb =>
    funext φ
    unfold Plan.routine execSteps exec
    rw [Script.run_bind]
    simp only [Plan.run_resume, loop c (body b hb)]
    exact congrArg (· >>= _) (congrFun (body b hb) φ)
  | forLoop i a c u b ha hu hb =>
    unfold execSteps exec
    rw [Plan.routine_andThen]
    congr 1
    · cases a with
      | none => rfl
      | some a => exact ha a rfl
    · refine loop c ?_ s.limit
      rw [Plan.routine_andFinally, body b hb]
      congr 1
      cases u with
      | none => rfl
      | some u => exact hu u rfl
  | block b hb => exact body b hb
  | seq i ts x ih => exact all ts ih
  | simple t simple =>
    funext φ
    cases t with
    | ret i e =>
      cases e with
      | none => rfl
      | some e =>
        unfold Plan.routine execSteps exec
        rw [Script.run_bind, (e.run_evalSteps s φ).1]
        rfl
    | eval i e =>
      unfold Plan.routine execSteps exec
      rw [Script.run_bind, (e.run_evalSteps s φ).1]
      rfl
    | require i c =>
      unfold Plan.routine execSteps exec
      rw [Script.run_bind, c.run_testSteps]
      simp only [Script.run_ite]
      rfl
    | assign i l r o x =>
      unfold Plan.routine execSteps exec
      rw [Script.run_bind, (r.run_evalSteps s φ).1]
      simp only [Script.run_bind, l.run_locateSteps, Script.run_lift, Staging.run_storeAll]
      rfl
    | declare i v e =>
      unfold Plan.routine execSteps exec
      rw [Script.run_bind]
      cases e with
      | none => rfl
      | some e =>
        simp only [(e.run_evalSteps s φ).1]
        rfl
    | breakLoop | continueLoop | compute | enterKey | comment | blank => rfl
    | ifThen | whileLoop | doWhile | forLoop | block | seq => cases simple

end Statements

/-! ## Calls -/

section Calls

variable [DecidableEq V]

/-- The steps of a call. -/
def FunctionDef.runSteps (s : Staging V) (f : FunctionDef) (self : V) (args : List V) : Script V V := do
  match ← f.body.execSteps s (f.enter s.setting self args) with
  | (.returned (some v), _) => return v
  | (_, φ) => Script.lift (s.finish f φ)

/-- Everything takes its steps within the same limit. -/
def Machine.staged (m : Machine V) (symbols : Symbols) : Nat → Staging V
  | 0 => ⟨m, symbols, fun _ _ _ => .fail, 0⟩
  | n + 1 => ⟨m, symbols, FunctionDef.runSteps (m.staged symbols n), n + 1⟩

theorem FunctionDef.run_runSteps (s : Staging V) (f : FunctionDef) (self : V) (args : List V) :
    (f.runSteps s self args).run = f.run s.setting self args := by
  have body := congrFun (Stmt.run_execSteps s (.block f.body)) (f.enter s.setting self args)
  unfold runSteps run
  rw [Script.run_bind]
  refine (congrArg (· >>= _) body).trans (congrArg (_ >>= ·) (funext fun r => ?_))
  obtain ⟨o, φ⟩ := r
  cases o with
  | returned v =>
    cases v with
    | none => exact Script.run_lift _
    | some v => rfl
  | normal | broken | continued => exact Script.run_lift _

/-- Carried out, all that runs within the limit does what it does without looking at the steps. -/
theorem Machine.setting_staged (m : Machine V) (symbols : Symbols) (n : Nat) :
    (m.staged symbols n).setting = m.within symbols n := by
  induction n with
  | zero => rfl
  | succ n ih =>
    have calls : (fun f self args => (FunctionDef.runSteps (m.staged symbols n) f self args).run) =
        FunctionDef.run (m.within symbols n) := by
      funext f self args
      rw [FunctionDef.run_runSteps, ih]
    exact congrArg (Setting.mk m symbols · (n + 1)) calls

end Calls

end Shroud
