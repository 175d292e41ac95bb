import Shroud.Proofs.Accounts
import Shroud.Proofs.Steps

/-!
# What code reaches

Statements and functions are marked with the locations that their code and the functions that it calls access. Here it is
shown how far the marks can be trusted: whatever the storage holds, no step of the code touches a variable of which its
marks do not tell.

**Named variables.** A location tells of a variable if the variable is one step away. So state variables have to be
named by themselves, not as members of a contract; and where a place is assigned to, it has to be a variable or an
immediate part of it. The second condition is asked of some variables only (`X`), and what is said of the others is
nothing.

**Code.** `Expr.evalSteps_within`, `Stmt.execSteps_within` and `FunctionDef.runSteps_within` go along the structure of
the code; the accesses of the functions that are called come from the marks as well.

**Calls.** `Machine.staged_within`, by induction on the depth of calls.
-/

namespace Shroud

/-! ## Named variables -/

/-- A variable, or an immediate part of a state variable. -/
def Expr.isSingleStep : Expr → Bool
  | .ident .. => true
  | .member _ (.ident _ _ (some (.decl .stateVar _))) _ _ => true
  | .index _ (.ident _ _ (some (.decl .stateVar _))) _ _ => true
  | _ => false

/-- The place that is assigned to is named among the locations. -/
theorem Expr.loc_of_root {e : Expr} (h : e.isSingleStep = true) {x : Nat} (root : e.root? = some (.decl .stateVar x)) :
    ∃ l, e.loc? = some l ∧ l.target = .decl .stateVar x := by
  unfold isSingleStep at h
  split at h
  · rename_i i n t
    obtain rfl : t = _ := root
    exact ⟨_, rfl, rfl⟩
  · cases root
    exact ⟨_, rfl, rfl⟩
  · cases root
    exact ⟨_, rfl, rfl⟩
  · cases h

namespace Node

/-- No state variable is selected as a member. -/
def isNamed : Node → Bool
  | .expr (.member _ _ _ (some (.decl .stateVar _))) => false
  | _ => true

/-- Where a part of the variable is assigned to, the part is an immediate one. -/
def isShallow (x : Nat) : Node → Bool
  | .stmt (.assign _ l _ _ _) => l.assignees.all fun e => e.root? != some (.decl .stateVar x) || e.isSingleStep
  | _ => true

/-- State variables are named by themselves, and those in `X` are assigned to in single steps. -/
structure Direct (X : Set Nat) (n : Node) : Prop where
  named : n.isNamed = true
  shallow : ∀ x ∈ X, n.isShallow x = true

end Node

/-- If the location is part of a state variable, it is one of these. -/
def Loc.In (A : Set Nat) (l : Loc) : Prop := ∀ x, l.target = .decl .stateVar x → x ∈ A

/-- What is read lies in `R`, and what is written lies in `W`. -/
structure Access.In (R W : Set Nat) (a : Access) : Prop where
  reads : ∀ l ∈ a.reads, l.In R
  writes : ∀ l ∈ a.writes, l.In W

theorem Access.Within.into {a b : Access} {R W : Set Nat} (h : a.Within b) (hb : b.In R W) : a.In R W :=
  ⟨fun l hl => hb.reads l (h.reads hl), fun l hl => hb.writes l (h.writes hl)⟩

/-! ## Expressions -/

/-- The expression names variables by themselves and accesses nothing else, as far as its marks tell. -/
structure Expr.Fits (symbols : Symbols) (R W : Set Nat) (written : Bool) (e : Expr) : Prop where
  named : ∀ n ∈ e.nodes, n.isNamed = true
  reads : ∀ l ∈ e.reads written, l.In R
  calls : ∀ g ∈ e.callees symbols, g.stateAccess.In R W

variable {V : Type} {R W X : Set Nat}

namespace Expr

variable {symbols : Symbols} {w b : Bool} {i : Info} {e f k p : Expr} {as : List Expr}

theorem fitsAll (named : ∀ n ∈ Expr.nodesAll as, n.isNamed = true) (reads : ∀ l ∈ Expr.readsAll w as, l.In R)
    (calls : ∀ g ∈ Expr.calleesAll symbols as, g.stateAccess.In R W) : ∀ a ∈ as, a.Fits symbols R W w := by
  induction as with
  | nil => exact List.forall_mem_nil _
  | cons a as ih =>
    obtain ⟨namedA, named⟩ := List.forall_mem_append.mp named
    obtain ⟨readsA, reads⟩ := List.forall_mem_append.mp reads
    obtain ⟨callsA, calls⟩ := List.forall_mem_append.mp calls
    exact List.forall_mem_cons.mpr ⟨⟨namedA, readsA, callsA⟩, ih named reads calls⟩

namespace Fits

theorem call {o : Int} {c : Option CircuitVar} (h : (Expr.call i f as o c).Fits symbols R W w) :
    f.Fits symbols R W false ∧ (∀ a ∈ as, a.Fits symbols R W false) ∧
      ((Expr.call i f as o c).isCastCall = false → ∀ g, symbols.callee? f = some g → g.stateAccess.In R W) := by
  obtain ⟨namedF, named⟩ := List.forall_mem_append.mp h.named
  obtain ⟨readsF, reads⟩ := List.forall_mem_append.mp h.reads
  obtain ⟨calls, called⟩ := List.forall_mem_append.mp h.calls
  obtain ⟨callsF, calls⟩ := List.forall_mem_append.mp calls
  refine ⟨⟨(List.forall_mem_cons.mp namedF).2, readsF, callsF⟩, fitsAll named reads calls, fun plain g found => ?_⟩
  refine called g ?_
  rw [plain, if_neg Bool.false_ne_true, found]
  exact List.mem_singleton_self g

theorem new (h : (Expr.new i as).Fits symbols R W w) : ∀ a ∈ as, a.Fits symbols R W false :=
  fitsAll (List.forall_mem_append.mp h.named).2 (List.forall_mem_append.mp h.reads).2
    (List.forall_mem_append.mp h.calls).2

theorem cast {t : Ty} (h : (Expr.cast i t e b).Fits symbols R W w) : e.Fits symbols R W false :=
  ⟨(List.forall_mem_append.mp h.named).2, (List.forall_mem_append.mp h.reads).2, (List.forall_mem_append.mp h.calls).2⟩

theorem arrayLit (h : (Expr.arrayLit i as b).Fits symbols R W w) : ∀ a ∈ as, a.Fits symbols R W false :=
  fitsAll (List.forall_mem_cons.mp h.named).2 h.reads h.calls

theorem tuple (h : (Expr.tuple i as).Fits symbols R W w) : ∀ a ∈ as, a.Fits symbols R W w :=
  fitsAll (List.forall_mem_cons.mp h.named).2 h.reads h.calls

theorem member {n : Ident} {t : Option Ref} (h : (Expr.member i e n t).Fits symbols R W w) : e.Fits symbols R W w := by
  obtain ⟨named, -⟩ := List.forall_mem_append.mp h.named
  exact ⟨(List.forall_mem_cons.mp named).2, (List.forall_mem_append.mp h.reads).1, h.calls⟩

theorem index {t : Option Ref} (h : (Expr.index i e k t).Fits symbols R W w) :
    e.Fits symbols R W w ∧ k.Fits symbols R W false := by
  obtain ⟨namedE, namedK⟩ := List.forall_mem_append.mp h.named
  obtain ⟨readsE, readsK⟩ := List.forall_mem_append.mp (List.forall_mem_append.mp h.reads).1
  obtain ⟨callsE, callsK⟩ := List.forall_mem_append.mp h.calls
  exact ⟨⟨(List.forall_mem_cons.mp namedE).2, readsE, callsE⟩, ⟨namedK, readsK, callsK⟩⟩

theorem reclassify {m : ReclassifyForm} {o : Option Hom} (h : (Expr.reclassify i m e p o).Fits symbols R W w) :
    e.Fits symbols R W false ∧ p.Fits symbols R W false := by
  obtain ⟨namedE, namedP⟩ := List.forall_mem_append.mp h.named
  obtain ⟨readsE, readsP⟩ := List.forall_mem_append.mp h.reads
  obtain ⟨callsE, callsP⟩ := List.forall_mem_append.mp h.calls
  exact ⟨⟨(List.forall_mem_cons.mp namedE).2, readsE, callsE⟩, ⟨namedP, readsP, callsP⟩⟩

end Fits

/-- An expression for which a statement accounts fits what the statement accesses. -/
theorem fits_of_covered {a : Access} (named : ∀ n ∈ e.nodes, n.isNamed = true) (own : (e.ownAccess w).Within a)
    (called : (e.calledAccess symbols).Within a) (into : a.In R W) : e.Fits symbols R W w := by
  refine ⟨named, fun l hl => into.reads l (own.reads ?_), fun g hg => ((Access.within_ofCallees hg).trans called).into into⟩
  cases w with
  | true => exact hl
  | false => exact Loc.mem_union.mpr (.inr hl)

end Expr

variable [DecidableEq V] {s : Staging V}

/-- Calls reach nothing but what the functions are marked with, and the variables that are left out. -/
def Staging.CallsWithin (X : Set Nat) (s : Staging V) : Prop :=
  ∀ f g, s.symbols.callee? f = some g → ∀ R W, Xᶜ ⊆ W → g.stateAccess.In R W →
    ∀ self args, (s.calls g self args).Within R W

open Script

namespace Staging

theorem operate_within {e : Expr} {op : Op} {operands : List (Script V V)} (h : ∀ p ∈ operands, p.Within R W) :
    (s.operate e op operands).Within R W := by
  unfold operate
  split
  · rw [List.forall_mem_cons, List.forall_mem_singleton] at h
    refine h.1.bind fun v => ?_
    split
    · exact h.2
    · exact .pure v
  · rw [List.forall_mem_cons, List.forall_mem_singleton] at h
    refine h.1.bind fun v => ?_
    split
    · exact .pure v
    · exact h.2
  · rw [List.forall_mem_cons, List.forall_mem_cons, List.forall_mem_singleton] at h
    refine h.1.bind fun v => ?_
    split
    · exact h.2.1
    · exact h.2.2
  · exact (Within.inTurn h).bind fun vs => .lift _

theorem name_within {i : Info} {n : Ident} {t : Option Ref} (h : ∀ l ∈ (Expr.ident i n t).reads false, l.In R)
    (φ : Activation V) : (s.name φ (.ident i n t)).Within R W := by
  unfold name
  split
  · rename_i x target
    obtain rfl : t = _ := target
    exact .fetch (h _ (List.mem_singleton_self _) x rfl) _
  · exact .lift _
  · exact .lift _
  · exact .pure _

theorem perform_within (calls : s.CallsWithin X) (rest : Xᶜ ⊆ W) {e f : Expr}
    (fits : e.isCastCall = false → ∀ g, s.symbols.callee? f = some g → g.stateAccess.In R W) (self : V)
    (args : List V) : (s.perform e f self args).Within R W := by
  unfold perform
  split
  · exact .lift _
  · rename_i plain
    split
    · rename_i g found
      exact calls f g found R W rest (fits (Bool.eq_false_iff.mpr plain) g found) self args
    · exact .lift _

theorem store_within {place : Expr} (h : ∀ x, place.root? = some (.decl .stateVar x) → x ∈ W) (keys : List V) (v : V)
    (φ : Activation V) : (s.store place keys v φ).Within R W := by
  unfold store
  split
  · exact .change (h _ ‹_›) _ _ φ
  · exact (Within.lift _).bind fun w => .pure _
  · exact (Within.lift _).bind fun w => .pure _
  · exact .fail

theorem storeAll_within {ps : List (Expr × List V × V)}
    (h : ∀ p ∈ ps, ∀ x, p.1.root? = some (.decl .stateVar x) → x ∈ W) (φ : Activation V) :
    (s.storeAll ps φ).Within R W := by
  induction ps generalizing φ with
  | nil => exact .pure _
  | cons p ps ih =>
    rw [List.forall_mem_cons] at h
    exact (store_within h.1 _ _ φ).bind fun ψ => ih h.2 ψ

end Staging

section Expressions

/-- The evaluation of an expression, and of the instance that it selects, reaches only what the expression fits. -/
theorem Expr.evalSteps_within (calls : s.CallsWithin X) (rest : Xᶜ ⊆ W) (e : Expr) (fits : e.Fits s.symbols R W false)
    (φ : Activation V) : (e.evalSteps s φ).Within R W ∧ (e.receiverSteps s φ).Within R W := by
  have list {es : List Expr} (ih : ∀ e ∈ es, e.Fits s.symbols R W false →
      (e.evalSteps s φ).Within R W ∧ (e.receiverSteps s φ).Within R W)
      (fits : ∀ e ∈ es, e.Fits s.symbols R W false) : ∀ p ∈ Expr.evalStepsAll s φ es, p.Within R W := by
    rw [Expr.evalStepsAll_eq, List.forall_mem_map]
    exact fun e he => (ih e he (fits e he)).1
  induction e using Expr.inductOn with
  | call i f as o k hf ha =>
    obtain ⟨fitsF, fitsA, fitsG⟩ := fits.call
    refine ⟨?_, .pure _⟩
    unfold Expr.evalSteps
    split
    · exact Staging.operate_within (list ha fitsA)
    · exact (hf fitsF).2.bind fun self => (Within.inTurn (list ha fitsA)).bind fun vs =>
        Staging.perform_within calls rest fitsG self vs
  | new i as ha =>
    exact ⟨(Within.inTurn (list ha fits.new)).bind fun vs => .lift _, .pure _⟩
  | cast i t e b he =>
    exact ⟨(he fits.cast).1.bind fun v => .lift _, .pure _⟩
  | arrayLit i vs k hv =>
    exact ⟨(Within.inTurn (list hv fits.arrayLit)).bind fun vs => .lift _, .pure _⟩
  | tuple i es he =>
    exact ⟨(Within.inTurn (list he fits.tuple)).bind fun vs => .lift _, .pure _⟩
  | member i b n t hb =>
    have base := (hb fits.member).1
    refine ⟨?_, ?_⟩
    · unfold Expr.evalSteps
      split
      · -- the variables of a contract are named by themselves
        cases fits.named _ List.mem_cons_self
      · exact base.bind fun v => .lift _
    · unfold Expr.receiverSteps
      split
      · exact .pure _
      · exact base
  | index i b k t hb hk =>
    obtain ⟨fitsB, fitsK⟩ := fits.index
    exact ⟨(hb fitsB).1.bind fun v => (hk fitsK).1.bind fun w => .lift _, .pure _⟩
  | reclassify i m e p h he hp =>
    obtain ⟨fitsE, fitsP⟩ := fits.reclassify
    exact ⟨(he fitsE).1.bind fun v => (hp fitsP).1.bind fun w => .lift _, .pure _⟩
  | leaf e he =>
    cases e with
    | ident i n t => exact ⟨Staging.name_within fits.reads φ, .pure _⟩
    | operator | boolLit | numLit | me | all => exact ⟨.pure _, .pure _⟩
    | call | new | cast | arrayLit | tuple | member | index | reclassify => cases he

theorem Expr.locateSteps_within (calls : s.CallsWithin X) (rest : Xᶜ ⊆ W) (e : Expr)
    (fits : e.Fits s.symbols R W true) (φ : Activation V) : (e.locateSteps s φ).Within R W := by
  induction e using Expr.inductOn with
  | member i b n t hb => exact hb fits.member
  | index i b k t hb _ =>
    obtain ⟨fitsB, fitsK⟩ := fits.index
    exact (hb fitsB).bind fun places => (k.evalSteps_within calls rest fitsK φ).1.bind fun v => .pure _
  | tuple i es he =>
    refine (Within.inTurn ?_).bind fun places => .pure _
    rw [Expr.locateStepsAll_eq, List.forall_mem_map]
    exact fun e mem => he e mem (fits.tuple e mem)
  | call | new | cast | arrayLit | reclassify => exact .pure _
  | leaf e he =>
    cases e with
    | operator | boolLit | numLit | ident | me | all => exact .pure _
    | call | new | cast | arrayLit | tuple | member | index | reclassify => cases he

theorem Expr.testSteps_within (calls : s.CallsWithin X) (rest : Xᶜ ⊆ W) {c : Expr}
    (fits : c.Fits s.symbols R W false) (φ : Activation V) : (c.testSteps s φ).Within R W :=
  (c.evalSteps_within calls rest fits φ).1.bind fun _ => .pure _

end Expressions

/-! ## Statements -/

namespace Plan

/-- Whatever the variables of the call hold, the steps stay within the sets. -/
def Within (R W : Set Nat) (x : Plan V) : Prop := ∀ φ, (x φ).Within R W

variable {x y : Plan V}

theorem Within.skip {o : Ending V} : Within R W fun φ => (return (o, φ) : Script V (Ending V × Activation V)) :=
  fun _ => .pure _

theorem Within.resume (h : Within R W x) (r : Ending V × Activation V) : (Plan.resume x r).Within R W := by
  obtain ⟨o, φ⟩ := r
  cases o with
  | broken | returned => exact .pure _
  | normal | continued => exact h φ

theorem Within.rounds {test : Activation V → Script V Bool} (ht : ∀ φ, (test φ).Within R W) (hx : Within R W x)
    (n : Nat) : Within R W (Plan.rounds test x n) := by
  induction n with
  | zero => exact fun _ => .fail
  | succ n ih =>
    refine fun φ => (ht φ).bind fun b => ?_
    split
    · exact (hx φ).bind fun r => ih.resume r
    · exact .pure _

theorem Within.andThen (hx : Within R W x) (hy : Within R W y) : Within R W (x.andThen y) := by
  refine fun φ => (hx φ).bind fun r => ?_
  split
  · exact hy _
  · exact .pure _

theorem Within.andFinally (hx : Within R W x) (hy : Within R W y) : Within R W (x.andFinally y) := by
  refine fun φ => (hx φ).bind fun r => ?_
  split
  · exact hy _
  · exact hy _
  · exact .pure _

end Plan

theorem Stmt.execSteps_forLoop (i : StmtInfo) (a : Option Stmt) (c : Expr) (u : Option Stmt) (b : Block) :
    (Stmt.forLoop i a c u b).execSteps s = Plan.andThen ((a.map (Stmt.execSteps s)).getD fun φ => return (.normal, φ))
      (Plan.rounds (c.testSteps s) (Plan.andFinally (b.execSteps s)
        ((u.map (Stmt.execSteps s)).getD fun φ => return (.normal, φ))) s.limit) := by
  cases a <;> cases u <;> rfl

/-- The code of a statement reaches only what the statement is marked with. -/
theorem Stmt.execSteps_within (calls : s.CallsWithin X) (rest : Xᶜ ⊆ W) (t : Stmt) (direct : ∀ n ∈ t.nodes, n.Direct X)
    (own : t.Covered Expr.ownAccess) (called : t.Covered fun _ e => e.calledAccess s.symbols)
    (into : t.access.In R W) : (t.execSteps s).Within R W := by
  have all (ts : List Stmt) (ih : ∀ t ∈ ts, (∀ n ∈ t.nodes, n.Direct X) → t.Covered Expr.ownAccess →
      (t.Covered fun _ e => e.calledAccess s.symbols) → t.access.In R W → (t.execSteps s).Within R W)
      (direct : ∀ n ∈ Stmt.nodesAll ts, n.Direct X) (own : Stmt.CoveredAll Expr.ownAccess ts)
      (called : Stmt.CoveredAll (fun _ e => e.calledAccess s.symbols) ts)
      (into : ∀ t ∈ ts, t.access.In R W) : (Stmt.execStepsAll s ts).Within R W := by
    induction ts with
    | nil => exact Plan.Within.skip
    | cons t ts iht =>
      rw [Stmt.nodesAll, List.forall_mem_append] at direct
      rw [List.forall_mem_cons] at ih into
      exact (ih.1 direct.1 own.1 called.1 into.1).andThen (iht ih.2 direct.2 own.2 called.2 into.2)
  have inside {i : StmtInfo} {parts : List Access} {p : Access} (names : i.Names parts)
      (hi : (Access.ofInfo i).In R W) (mem : p ∈ parts) : p.In R W :=
    (names p mem).into hi
  have body : ∀ b : Block, (∀ t ∈ b.stmts, (∀ n ∈ t.nodes, n.Direct X) → t.Covered Expr.ownAccess →
      (t.Covered fun _ e => e.calledAccess s.symbols) → t.access.In R W → (t.execSteps s).Within R W) →
      (∀ n ∈ b.nodes, n.Direct X) → b.Covered Expr.ownAccess → (b.Covered fun _ e => e.calledAccess s.symbols) →
      (Access.ofInfo b.info).In R W → (b.execSteps s).Within R W := by
    rintro ⟨_, ts, _⟩ ih direct own called into
    rw [Block.nodes, List.forall_mem_cons] at direct
    exact all ts ih direct.2 own.2 called.2 fun t ht => inside own.1 into (List.mem_map_of_mem ht)
  have fits {a : Access} (into : a.In R W) {w : Bool} (e : Expr) (direct : ∀ n ∈ e.nodes, n.Direct X)
      (own : (e.ownAccess w).Within a) (called : (e.calledAccess s.symbols).Within a) : e.Fits s.symbols R W w :=
    Expr.fits_of_covered (fun n hn => (direct n hn).named) own called into
  induction t using Stmt.inductOn with
  | ifThen i c t e ht he =>
    cases e with
    | none =>
      rw [Stmt.nodes, List.cons_append, List.forall_mem_cons, List.forall_mem_append] at direct
      have cond := fits into c direct.2.1 (own.1 _ List.mem_cons_self) (called.1 _ List.mem_cons_self)
      refine fun φ => (Expr.testSteps_within calls rest cond φ).bind fun b => ?_
      split
      · exact body t ht direct.2.2 own.2 called.2 (inside own.1 into (by simp)) φ
      · exact .pure _
    | some e =>
      rw [Stmt.nodes, List.cons_append, List.cons_append, List.forall_mem_cons, List.forall_mem_append,
        List.forall_mem_append] at direct
      have cond := fits into c direct.2.1.1 (own.1 _ List.mem_cons_self) (called.1 _ List.mem_cons_self)
      refine fun φ => (Expr.testSteps_within calls rest cond φ).bind fun b => ?_
      split
      · exact body t ht direct.2.1.2 own.2.1 called.2.1 (inside own.1 into (by simp)) φ
      · exact body e (he e rfl) direct.2.2 own.2.2 called.2.2 (inside own.1 into (by simp)) φ
  | whileLoop i c b hb =>
    rw [Stmt.nodes, List.cons_append, List.forall_mem_cons, List.forall_mem_append] at direct
    have cond := fits into c direct.2.1 (own.1 _ List.mem_cons_self) (called.1 _ List.mem_cons_self)
    exact .rounds (Expr.testSteps_within calls rest cond)
      (body b hb direct.2.2 own.2 called.2 (inside own.1 into (by simp))) s.limit
  | doWhile i b c hb =>
    rw [Stmt.nodes, List.cons_append, List.forall_mem_cons, List.forall_mem_append] at direct
    have cond := fits into c direct.2.2 (own.1 _ (List.mem_cons_of_mem _ List.mem_cons_self))
      (called.1 _ (List.mem_cons_of_mem _ List.mem_cons_self))
    have round := body b hb direct.2.1 own.2 called.2 (inside own.1 into (by simp))
    exact fun φ => (round φ).bind fun r =>
      (Plan.Within.rounds (Expr.testSteps_within calls rest cond) round s.limit).resume r
  | forLoop i a c u b ha hu hb =>
    obtain ⟨ownN, ownA, ownU, ownB⟩ := covered_forLoop.mp own
    obtain ⟨calledN, calledA, calledU, calledB⟩ := covered_forLoop.mp called
    rw [Stmt.nodes_forLoop, List.forall_mem_cons, List.forall_mem_append, List.forall_mem_append,
      List.forall_mem_append] at direct
    obtain ⟨-, ⟨⟨directA, directC⟩, directU⟩, directB⟩ := direct
    have cond := fits into c directC (ownN _ (List.mem_cons_of_mem _ List.mem_cons_self))
      (calledN _ (List.mem_cons_of_mem _ List.mem_cons_self))
    rw [Stmt.execSteps_forLoop]
    refine .andThen ?_ (.rounds (Expr.testSteps_within calls rest cond) (.andFinally
      (body b hb directB ownB calledB (inside ownN into (by simp))) ?_) s.limit)
    · cases a with
      | none => exact Plan.Within.skip
      | some a => exact ha a rfl directA (ownA a rfl) (calledA a rfl) (inside ownN into (by simp [Stmt.access?]))
    · cases u with
      | none => exact Plan.Within.skip
      | some u => exact hu u rfl directU (ownU u rfl) (calledU u rfl) (inside ownN into (by simp [Stmt.access?]))
  | block b hb => exact body b hb direct own called into
  | seq i ts x ih =>
    rw [Stmt.nodes, List.forall_mem_cons] at direct
    exact all ts ih direct.2 own.2 called.2 fun t ht => inside own.1 into (List.mem_map_of_mem ht)
  | simple t simple =>
    cases t with
    | ret i e =>
      cases e with
      | none => exact Plan.Within.skip
      | some e =>
        rw [Stmt.nodes, List.forall_mem_cons] at direct
        have value := fits into e direct.2 (own _ List.mem_cons_self) (called _ List.mem_cons_self)
        exact fun φ => (e.evalSteps_within calls rest value φ).1.bind fun v => .pure _
    | eval i e =>
      rw [Stmt.nodes, List.forall_mem_cons] at direct
      have value := fits into e direct.2 (own _ List.mem_cons_self) (called _ List.mem_cons_self)
      exact fun φ => (e.evalSteps_within calls rest value φ).1.bind fun v => .pure _
    | require i c =>
      rw [Stmt.nodes, List.forall_mem_cons] at direct
      have cond := fits into c direct.2 (own _ List.mem_cons_self) (called _ List.mem_cons_self)
      refine fun φ => (Expr.testSteps_within calls rest cond φ).bind fun b => ?_
      split
      · exact .pure _
      · exact .fail
    | assign i l r o x =>
      rw [Stmt.nodes, List.cons_append, List.forall_mem_cons, List.forall_mem_append] at direct
      have places := fits into l direct.2.1 (own _ List.mem_cons_self) (called _ List.mem_cons_self)
      have value := fits into r direct.2.2 (own _ (List.mem_cons_of_mem _ List.mem_cons_self))
        (called _ (List.mem_cons_of_mem _ List.mem_cons_self))
      refine fun φ => (r.evalSteps_within calls rest value φ).1.bind fun v =>
        (l.locateSteps_within calls rest places φ).bind fun ks => (Within.lift _).bind fun vs =>
        (Staging.storeAll_within (fun p hp x root => ?_) φ).bind fun ψ => .pure _
      -- if the variable is not left out, the place is named among the locations that the statement writes
      have place : p.1 ∈ l.assignees := (List.of_mem_zip hp).1
      by_cases hx : x ∈ X
      · have single := List.all_eq_true.mp (direct.1.shallow x hx) _ place
        rw [root, bne_self_eq_false, Bool.false_or] at single
        obtain ⟨k, loc, target⟩ := Expr.loc_of_root single root
        have named : k ∈ (l.ownAccess true).writes := List.mem_filterMap.mpr ⟨p.1, place, loc⟩
        exact into.writes k ((own _ List.mem_cons_self).writes named) x target
      · exact rest hx
    | declare i v e =>
      cases e with
      | none => exact fun φ => (Within.pure _).bind fun w => .pure _
      | some e =>
        simp only [Stmt.nodes, Expr.nodes?, Option.map_some, Option.getD_some, List.cons_append, List.forall_mem_cons,
          List.forall_mem_append] at direct
        have value := fits into e direct.2.2 (own _ List.mem_cons_self) (called _ List.mem_cons_self)
        exact fun φ => (e.evalSteps_within calls rest value φ).1.bind fun w => .pure _
    | breakLoop | continueLoop | compute | enterKey | comment | blank => exact Plan.Within.skip
    | ifThen | whileLoop | doWhile | forLoop | block | seq => cases simple

/-! ## Calls -/

/-- A call reaches only what the function is marked with. -/
theorem FunctionDef.runSteps_within (calls : s.CallsWithin X) (rest : Xᶜ ⊆ W) {f : FunctionDef}
    (direct : ∀ n ∈ f.body.nodes, n.Direct X) (accounted : f.Accounted s.symbols) (into : f.access.In R W) (self : V)
    (args : List V) : (f.runSteps s self args).Within R W := by
  have body : (Stmt.block f.body).access.In R W := by
    rw [accounted.summary] at into
    exact into
  refine (Stmt.execSteps_within calls rest (.block f.body) direct accounted.own accounted.called body _).bind fun r => ?_
  split
  · exact .pure _
  · exact .lift _

theorem Builtin.methods_body {f : FunctionDef} (h : f ∈ Builtin.methods) : f.body = .ofStmts [] := by
  simp only [Builtin.methods, List.mem_cons, List.not_mem_nil, or_false] at h
  rcases h with rfl | rfl <;> rfl

theorem Builtin.methods_accounted {f : FunctionDef} (h : f ∈ Builtin.methods) (symbols : Symbols) :
    f.Accounted symbols := by
  refine ⟨?_, ?_, ?_⟩
  · rw [methods_body h]
    exact ⟨List.forall_mem_nil _, trivial⟩
  · rw [methods_body h]
    exact ⟨List.forall_mem_nil _, trivial⟩
  · rw [methods_body h, methods_access h]
    rfl

/-- What a call reads for its caller is all that the function is marked with reading. -/
theorem FunctionDef.access_reads {f : FunctionDef} (h : f.stateAccess.In R W) : ∀ l ∈ f.access.reads, l.In R := by
  intro l hl x target
  exact h.reads l (List.mem_filter.mpr ⟨hl, by rw [Loc.isState, target]⟩) x target

/-- So is what it writes for its caller, if the function has side effects. -/
theorem FunctionDef.access_writes {f : FunctionDef} (effects : f.hasSideEffects = true) (h : f.stateAccess.In R W) :
    ∀ l ∈ f.access.writes, l.In W := by
  intro l hl x target
  refine h.writes l ?_ x target
  show l ∈ f.stateWrites
  rw [stateWrites, if_pos effects]
  exact List.mem_filter.mpr ⟨hl, by rw [Loc.isState, target]⟩

/-- No function that is marked as leaving the state alone is marked with writing it. -/
def SourceUnit.ViewsWriteNothing (u : SourceUnit) : Prop :=
  ∀ f ∈ u.allFunctions, f.hasSideEffects = false → ∀ l ∈ f.facts.writes, l.isState = false

instance (u : SourceUnit) : Decidable u.ViewsWriteNothing :=
  inferInstanceAs (Decidable (∀ f ∈ u.allFunctions, _ → ∀ l ∈ f.facts.writes, _))

/-- Functions without such marks leave the state alone. -/
theorem SourceUnit.ViewsWriteNothing.runSteps_within {u : SourceUnit} (quiet : u.ViewsWriteNothing)
    (calls : s.CallsWithin X) {f : FunctionDef} (hf : f ∈ u.allFunctions) (direct : ∀ n ∈ f.nodes, n.Direct X)
    (accounted : f.Accounted s.symbols) (view : f.hasSideEffects = false) (self : V) (args : List V) :
    (f.runSteps s self args).Within Set.univ Xᶜ := by
  refine FunctionDef.runSteps_within calls Set.Subset.rfl (fun n hn => direct n (List.mem_append_right _ hn)) accounted
    ⟨fun _ _ _ _ => trivial, fun l hl x target => ?_⟩ self args
  have none := quiet f hf view l hl
  rw [Loc.isState, target] at none
  cases none

/-- However deep calls go, they reach only what the functions are marked with, if this is so of the writing of functions
that are marked as leaving the state alone. -/
theorem Machine.staged_within {u : SourceUnit} (accounted : ∀ f ∈ u.allFunctions, f.Accounted u.symbols)
    (direct : ∀ f ∈ u.allFunctions, ∀ n ∈ f.nodes, n.Direct X) (m : Machine V)
    (quiet : ∀ n, (m.staged u.symbols n).CallsWithin X → ∀ f ∈ u.allFunctions, f.hasSideEffects = false →
      ∀ self args, (f.runSteps (m.staged u.symbols n) self args).Within Set.univ Xᶜ) (n : Nat) :
    (m.staged u.symbols n).CallsWithin X := by
  induction n with
  | zero => exact fun _ _ _ _ _ _ _ _ _ => .fail
  | succ n ih =>
    intro f g found R W rest into self args
    have symbols : (m.staged u.symbols n).symbols = u.symbols := by cases n <;> rfl
    obtain ⟨i, found⟩ := Symbols.callee?_eq_some found
    rcases (SourceUnit.function?_found found).1 with own | builtin
    · have body : ∀ n ∈ g.body.nodes, n.Direct X := fun n hn => direct g own n (List.mem_append_right _ hn)
      have accounts : g.Accounted (m.staged u.symbols n).symbols := by
        rw [symbols]
        exact accounted g own
      by_cases effects : g.hasSideEffects = true
      · exact FunctionDef.runSteps_within ih rest body accounts
          ⟨FunctionDef.access_reads into, FunctionDef.access_writes effects into⟩ self args
      · have reads : (g.runSteps (m.staged u.symbols n) self args).Within R Set.univ :=
          FunctionDef.runSteps_within ih (Set.subset_univ _) body accounts
            ⟨FunctionDef.access_reads into, fun _ _ _ _ => trivial⟩ self args
        have writes := quiet n ih g own (Bool.eq_false_iff.mpr effects) self args
        exact ⟨reads.reads, fun touched => rest (writes.writes touched)⟩
    · refine FunctionDef.runSteps_within ih rest ?_ (Builtin.methods_accounted builtin _) ?_ self args
      · rw [Builtin.methods_body builtin]
        exact List.forall_mem_singleton.mpr ⟨rfl, fun _ _ => rfl⟩
      · rw [Builtin.methods_access builtin]
        exact ⟨List.forall_mem_nil _, List.forall_mem_nil _⟩

end Shroud
