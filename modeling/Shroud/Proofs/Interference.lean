import Shroud.Analysis.EvalOrder
import Shroud.Proofs.Footprints
import Shroud.Proofs.Reach
import Shroud.Proofs.Sketch

/-!
# Interference of operands

Operands that stand side by side may be evaluated in any order. The check of the evaluation order compares the locations
that they access; here it is shown what that means for the runs of a program.

**Footprints.** An operand stays within the footprint that its accesses span (`Expr.run_confined`): its steps reach
nothing else, however deep calls go.

**Traceable code.** The accesses are found only where the variable can be told from the last step of an access. So
variables are named by themselves, not as members of a contract; assignments go to variables or to immediate parts of
state variables; and no variable points into the storage.

**Shown overlaps.** Locations are parts of variables, told apart by how they are written. So two operands may access one
variable without sharing a location. The result is about operands that share a location whenever one of them writes a
variable that the other one accesses. Whoever reads a part of a variable reads the variable, so this is the case for all
operands that call only functions which write whole variables.

**Results.** `SourceUnit.checkOrder_unordered`, `Operands.shown_of_whole`.
-/

namespace Shroud

/-! ## Footprints of accesses -/

/-- The state variables that the locations belong to. -/
def Loc.stateVars (ls : List Loc) : Set Nat := {x | ∃ l ∈ ls, l.target = .decl .stateVar x}

theorem Loc.in_stateVars {ls : List Loc} {A : Set Nat} (h : stateVars ls ⊆ A) : ∀ l ∈ ls, l.In A :=
  fun l hl _ target => h ⟨l, hl, target⟩

/-- The footprint of code with these accesses. A part of a variable is changed by way of the whole variable. -/
def Access.footprint (a : Access) : Footprint where
  written := Loc.stateVars a.writes
  touched := Loc.stateVars a.reads ∪ Loc.stateVars a.writes
  subset := Set.subset_union_right

theorem Access.in_footprint (a : Access) : a.In a.footprint.touched a.footprint.written :=
  ⟨Loc.in_stateVars Set.subset_union_left, Loc.in_stateVars Set.Subset.rfl⟩

/-! ## Traceable code -/

/-- The accesses of the node can be told from what its names lead to. -/
def Node.isTraceable : Node → Bool
  | .expr (.member _ _ _ (some (.decl .stateVar _))) => false
  | .stmt (.assign _ l _ _ _) => l.assignees.all Expr.isSingleStep
  | .localVar v => v.storage != some "storage"
  | .param p => p.storage != some "storage"
  | _ => true

/-- All code of the program can be traced. -/
def SourceUnit.Traceable (u : SourceUnit) : Prop := ∀ f ∈ u.allFunctions, ∀ n ∈ f.nodes, n.isTraceable = true

instance (u : SourceUnit) : Decidable u.Traceable :=
  inferInstanceAs (Decidable (∀ f ∈ u.allFunctions, ∀ n ∈ f.nodes, n.isTraceable = true))

theorem Node.direct_of_traceable {n : Node} (h : n.isTraceable = true) (X : Set Nat) : n.Direct X := by
  constructor
  · unfold isNamed
    split
    · cases h
    · rfl
  · intro x _
    unfold isShallow
    split
    · exact List.all_eq_true.mpr fun e he => Bool.or_eq_true_iff.mpr (.inr (List.all_eq_true.mp h e he))
    · rfl

variable {V : Type}

section Operands

variable [DecidableEq V] {s : Staging V} {F : Footprint}

/-- An operand stays within a footprint that it fits. -/
theorem Expr.run_confined (calls : s.CallsWithin Set.univ) {w : Bool} (e : Expr)
    (fits : e.Fits s.symbols F.touched F.written w) (φ : Activation V) : Act.Confined F (e.run s.setting φ w) := by
  have rest : Set.univᶜ ⊆ F.written := Set.compl_univ.trans_subset (Set.empty_subset _)
  cases w with
  | true =>
    have places := (e.locateSteps_within calls rest fits φ).confined
    rwa [e.run_locateSteps] at places
  | false =>
    have value := ((e.evalSteps_within calls rest fits φ).1.bind fun v => Script.Within.pure [[v]]).confined
    rw [Script.run_bind, (e.run_evalSteps s φ).1] at value
    exact value

end Operands

open Act

/-! ## Operands -/

/-- Operands that stand side by side, and whether they are assigned to. -/
abbrev Operands := List (Bool × Expr)

/-- What an operand accesses, and what the functions accesses that it calls. -/
def Expr.operandAccess (symbols : Symbols) (o : Bool × Expr) : Access :=
  .add ⟨[], Loc.union [] (o.2.reads o.1)⟩ (o.2.calledAccess symbols)

/-- An operator that chooses which operands to evaluate. -/
def Expr.isChoice : Expr → Bool
  | .operator _ op _ _ _ => op.shortCircuits
  | _ => false

mutual

/-- All groups of operands in an expression. Types are not evaluated, so they have none. -/
def Expr.operands (written : Bool) : Expr → List Operands
  | .call _ f as _ _ =>
    f.operands false ++ Expr.operandsAll false as ++ (if f.isChoice then [] else [as.map fun a => (false, a)])
  | .new _ as => Expr.operandsAll false as ++ [as.map fun a => (false, a)]
  | .cast _ _ e _ => e.operands false
  | .arrayLit _ vs _ => Expr.operandsAll false vs ++ [vs.map fun a => (false, a)]
  | .tuple _ es => Expr.operandsAll written es ++ [es.map fun a => (written, a)]
  | .member _ b _ _ => b.operands written
  | .index _ b k _ => b.operands written ++ k.operands false ++ [[(written, b), (false, k)]]
  | .reclassify _ _ e p _ => e.operands false ++ p.operands false ++ [[(false, e), (false, p)]]
  | _ => []

def Expr.operandsAll (written : Bool) : List Expr → List Operands
  | [] => []
  | e :: es => e.operands written ++ Expr.operandsAll written es

end

def Expr.operands? (e : Option Expr) : List Operands := (e.map (Expr.operands false)).getD []

mutual

/-- All groups of operands in a statement; the two sides of an assignment are operands too. -/
def Stmt.operands : Stmt → List Operands
  | .ifThen _ c t none => c.operands false ++ t.operands
  | .ifThen _ c t (some e) => c.operands false ++ t.operands ++ e.operands
  | .whileLoop _ c b => c.operands false ++ b.operands
  | .doWhile _ b c => b.operands ++ c.operands false
  | .forLoop _ a c u b =>
    let first := match a with
      | none => []
      | some a => a.operands
    let last := match u with
      | none => []
      | some u => u.operands
    first ++ c.operands false ++ last ++ b.operands
  | .ret _ e => Expr.operands? e
  | .eval _ e | .require _ e => e.operands false
  | .assign _ l r _ _ => l.operands true ++ r.operands false ++ [[(true, l), (false, r)]]
  | .declare _ _ e => Expr.operands? e
  | .block b => b.operands
  | .seq _ ss _ => Stmt.operandsAll ss
  | _ => []

def Block.operands : Block → List Operands
  | ⟨_, ss, _⟩ => Stmt.operandsAll ss

def Stmt.operandsAll : List Stmt → List Operands
  | [] => []
  | s :: ss => s.operands ++ Stmt.operandsAll ss

end

/-! ## What the check finds out -/

namespace Access

/-- Neither writes a location that the other one accesses. -/
structure Compatible (a b : Access) : Prop where
  writes : ∀ l ∈ a.writes, l ∉ b.writes
  left : ∀ l ∈ a.writes, l ∉ b.reads
  right : ∀ l ∈ b.writes, l ∉ a.reads

end Access

namespace OrderContext

variable {c : OrderContext} {os : List Operand}

theorem writtenAgain_nil {seen : List Loc} (h : writtenAgain seen os = []) :
    (∀ o ∈ os, ∀ l ∈ o.access.writes, l ∉ seen) ∧
      os.Pairwise fun o p => ∀ l ∈ o.access.writes, l ∉ p.access.writes := by
  induction os generalizing seen with
  | nil => exact ⟨List.forall_mem_nil _, .nil⟩
  | cons o os ih =>
    unfold writtenAgain at h
    simp only at h
    split at h
    · rename_i none
      obtain ⟨later, pairs⟩ := ih h
      have fresh : ∀ l ∈ o.access.writes, l ∉ seen := by
        intro l hl hs
        have : l ∈ o.access.writes.filter seen.contains := List.mem_filter.mpr ⟨hl, List.contains_iff_mem.mpr hs⟩
        rw [List.isEmpty_iff.mp none] at this
        cases this
      refine ⟨List.forall_mem_cons.mpr ⟨fresh, fun p hp l hl hs => ?_⟩, .cons (fun p hp l hl hl' => ?_) pairs⟩
      · exact later p hp l hl (Loc.mem_union.mpr (.inl hs))
      · exact later p hp l hl' (Loc.mem_union.mpr (.inr hl))
    · rename_i some
      rw [h] at some
      cases some rfl

theorem interfering?_none {rest : List (Nat × Operand)} (h : interfering? os rest = none) :
    ∀ o ∈ rest, ∀ j p, os[j]? = some p → j ≠ o.1 → ∀ l ∈ o.2.access.writes, l ∉ p.access.reads := by
  induction rest with
  | nil => exact List.forall_mem_nil _
  | cons o rest ih =>
    obtain ⟨i, o⟩ := o
    unfold interfering? at h
    simp only at h
    split at h
    · cases h
    · rename_i none
      refine List.forall_mem_cons.mpr ⟨fun j p hp other l hl hr => ?_, ih h⟩
      have mem : (j, p) ∈ (List.range os.length).zip os := by
        obtain ⟨lt, rfl⟩ := List.getElem?_eq_some_iff.mp hp
        exact List.mem_iff_getElem.mpr ⟨j, by simpa using lt, by simp⟩
      have both := List.filterMap_eq_nil_iff.mp none (j, p) mem
      have hit : l ∈ o.access.writes.filter p.access.reads.contains :=
        List.mem_filter.mpr ⟨hl, List.contains_iff_mem.mpr hr⟩
      have nonempty : (o.access.writes.filter p.access.reads.contains).isEmpty = false := by
        cases hf : o.access.writes.filter p.access.reads.contains with
        | nil =>
          rw [hf] at hit
          cases hit
        | cons => rfl
      simp only [nonempty, Bool.or_false, beq_iff_eq, if_neg other] at both
      cases both

theorem siblings_ok {complain : Fault → Error} (h : c.siblings complain os = .ok ()) :
    os.Pairwise fun o p => o.access.Compatible p.access := by
  unfold siblings at h
  split at h
  · rename_i few
    match os, few with
    | [], _ => exact .nil
    | [o], _ => exact List.pairwise_singleton _ _
  · split at h
    · cases h
    · rename_i none
      split at h
      · cases h
      · rename_i none'
        have writes := (writtenAgain_nil none).2
        have reads := interfering?_none none'
        rw [List.pairwise_iff_getElem] at writes ⊢
        intro i j hi hj lt
        have mem (k : Nat) (hk : k < os.length) : (k, os[k]) ∈ (List.range os.length).zip os :=
          List.mem_iff_getElem.mpr ⟨k, by simpa using hk, by simp⟩
        exact ⟨writes i j hi hj lt,
          reads _ (mem i hi) j os[j] (List.getElem?_eq_getElem hj) (by simp only; omega),
          reads _ (mem j hj) i os[i] (List.getElem?_eq_getElem hi) (by simp only; omega)⟩

end OrderContext

/-- No operand of the group writes a location that another one accesses. -/
def Operands.Compatible (symbols : Symbols) (g : Operands) : Prop :=
  g.Pairwise fun o p => (Expr.operandAccess symbols o).Compatible (Expr.operandAccess symbols p)

section Checked

variable {c : OrderContext}

theorem OrderContext.operand_access (undeclared : c.declared = false) (w : Bool) (e : Expr) :
    (c.operand w e).access = Expr.operandAccess c.symbols (w, e) := by
  unfold operand access Expr.operandAccess Expr.calledAccess
  simp only [undeclared, Bool.false_eq_true, if_false]

theorem OrderContext.compatible_of_siblings (undeclared : c.declared = false) {complain : Fault → Error} {w : Bool}
    {es : List Expr} (others : List Operand)
    (h : c.siblings complain (others ++ es.map (c.operand w)) = .ok ()) :
    Operands.Compatible c.symbols (es.map fun e => (w, e)) := by
  have pairs := (List.pairwise_append.mp (siblings_ok h)).2.1
  rw [List.pairwise_map] at pairs
  rw [Operands.Compatible, List.pairwise_map]
  refine pairs.imp fun {a b} compatible => ?_
  rwa [operand_access undeclared, operand_access undeclared] at compatible

theorem OrderContext.compatible_of_pair (undeclared : c.declared = false) {complain : Fault → Error} {w : Bool}
    {e f : Expr} (h : c.siblings complain [c.operand w e, c.operand false f] = .ok ()) :
    Operands.Compatible c.symbols [(w, e), (false, f)] := by
  have pair := siblings_ok h
  rw [List.pairwise_pair, operand_access undeclared, operand_access undeclared] at pair
  exact List.pairwise_pair.mpr pair

/-- All groups of operands in an accepted expression are compatible. -/
theorem Expr.checkOrder_ok (undeclared : c.declared = false) (e : Expr) : ∀ {w : Bool}, e.checkOrder c w = .ok () →
    ∀ g ∈ e.operands w, g.Compatible c.symbols := by
  have all {w : Bool} (es : List Expr)
      (ih : ∀ e ∈ es, ∀ {w : Bool}, e.checkOrder c w = .ok () → ∀ g ∈ e.operands w, g.Compatible c.symbols)
      (h : Expr.checkOrderAll c w es = .ok ()) : ∀ g ∈ Expr.operandsAll w es, g.Compatible c.symbols := by
    induction es with
    | nil => exact List.forall_mem_nil _
    | cons e es ihs =>
      rw [List.forall_mem_cons] at ih
      obtain ⟨_, first, rest⟩ := except_bind_ok h
      exact List.forall_mem_append.mpr ⟨ih.1 first, ihs ih.2 rest⟩
  induction e using Expr.inductOn with
  | call i f as o k hf ha =>
    intro w h
    obtain ⟨_, func, h⟩ := except_bind_ok h
    obtain ⟨_, args, h⟩ := except_bind_ok h
    refine List.forall_mem_append.mpr ⟨List.forall_mem_append.mpr ⟨hf func, all as ha args⟩, ?_⟩
    split
    · exact List.forall_mem_nil _
    · rename_i fixed
      have parts : c.parts (.call i f as o k) false as = .ok () := by
        split at h
        · rw [Expr.isChoice] at fixed
          rwa [if_neg fixed] at h
        · exact h
      exact List.forall_mem_singleton.mpr (OrderContext.compatible_of_siblings undeclared [] parts)
  | new i as ha =>
    intro w h
    obtain ⟨_, -, h⟩ := except_bind_ok h
    obtain ⟨_, args, h⟩ := except_bind_ok h
    exact List.forall_mem_append.mpr ⟨all as ha args,
      List.forall_mem_singleton.mpr (OrderContext.compatible_of_siblings undeclared _ h)⟩
  | cast i t e b he =>
    intro w h
    obtain ⟨_, -, h⟩ := except_bind_ok h
    obtain ⟨_, arg, -⟩ := except_bind_ok h
    exact he arg
  | arrayLit i vs k hv =>
    intro w h
    obtain ⟨_, args, h⟩ := except_bind_ok h
    exact List.forall_mem_append.mpr ⟨all vs hv args,
      List.forall_mem_singleton.mpr (OrderContext.compatible_of_siblings undeclared [] h)⟩
  | tuple i es he =>
    intro w h
    obtain ⟨_, args, h⟩ := except_bind_ok h
    exact List.forall_mem_append.mpr ⟨all es he args,
      List.forall_mem_singleton.mpr (OrderContext.compatible_of_siblings undeclared [] h)⟩
  | member i b n t hb => exact fun h => hb h
  | index i b k t hb hk =>
    intro w h
    obtain ⟨_, base, h⟩ := except_bind_ok h
    obtain ⟨_, key, h⟩ := except_bind_ok h
    exact List.forall_mem_append.mpr ⟨List.forall_mem_append.mpr ⟨hb base, hk key⟩,
      List.forall_mem_singleton.mpr (OrderContext.compatible_of_pair undeclared h)⟩
  | reclassify i m e p o he hp =>
    intro w h
    obtain ⟨_, arg, h⟩ := except_bind_ok h
    obtain ⟨_, owner, h⟩ := except_bind_ok h
    exact List.forall_mem_append.mpr ⟨List.forall_mem_append.mpr ⟨he arg, hp owner⟩,
      List.forall_mem_singleton.mpr (OrderContext.compatible_of_pair undeclared h)⟩
  | leaf e he =>
    intro w _
    cases e with
    | operator | boolLit | numLit | ident | me | all => exact List.forall_mem_nil _
    | call | new | cast | arrayLit | tuple | member | index | reclassify => cases he

theorem Stmt.operands_forLoop (i : StmtInfo) (a : Option Stmt) (e : Expr) (u : Option Stmt) (b : Block) :
    (Stmt.forLoop i a e u b).operands =
      (a.map Stmt.operands).getD [] ++ e.operands false ++ (u.map Stmt.operands).getD [] ++ b.operands := by
  cases a <;> cases u <;> rfl

theorem Stmt.checkOrder_forLoop (i : StmtInfo) (a : Option Stmt) (e : Expr) (u : Option Stmt) (b : Block) :
    (Stmt.forLoop i a e u b).checkOrder c = (do
      (a.map (Stmt.checkOrder c)).getD (.ok ())
      c.inStmt (.forLoop i a e u b) false e
      (u.map (Stmt.checkOrder c)).getD (.ok ())
      b.checkOrder c) := by
  cases a <;> cases u <;> rfl

/-- All groups of operands in an accepted statement are compatible. -/
theorem Stmt.checkOrder_ok (undeclared : c.declared = false) (s : Stmt) (h : s.checkOrder c = .ok ()) :
    ∀ g ∈ s.operands, g.Compatible c.symbols := by
  have all (ss : List Stmt) (ih : ∀ s ∈ ss, s.checkOrder c = .ok () → ∀ g ∈ s.operands, g.Compatible c.symbols)
      (h : Stmt.checkOrderAll c ss = .ok ()) : ∀ g ∈ Stmt.operandsAll ss, g.Compatible c.symbols := by
    induction ss with
    | nil => exact List.forall_mem_nil _
    | cons s ss ihs =>
      rw [List.forall_mem_cons] at ih
      obtain ⟨_, first, rest⟩ := except_bind_ok h
      exact List.forall_mem_append.mpr ⟨ih.1 first, ihs ih.2 rest⟩
  have body : ∀ b : Block, (∀ s ∈ b.stmts, s.checkOrder c = .ok () → ∀ g ∈ s.operands, g.Compatible c.symbols) →
      b.checkOrder c = .ok () → ∀ g ∈ b.operands, g.Compatible c.symbols := by
    rintro ⟨_, ss, _⟩ ih h
    exact all ss ih h
  have expr (s : Stmt) {w : Bool} (e : Expr) (h : c.inStmt s w e = .ok ()) : ∀ g ∈ e.operands w, g.Compatible c.symbols :=
    e.checkOrder_ok (c := { c with site := { c.site with stmt := some s } }) undeclared h
  induction s using Stmt.inductOn with
  | ifThen i e t f ht hf =>
    cases f with
    | none =>
      obtain ⟨_, cond, h⟩ := except_bind_ok h
      exact List.forall_mem_append.mpr ⟨expr _ e cond, body t ht h⟩
    | some f =>
      obtain ⟨_, cond, h⟩ := except_bind_ok h
      obtain ⟨_, first, h⟩ := except_bind_ok h
      exact List.forall_mem_append.mpr ⟨List.forall_mem_append.mpr ⟨expr _ e cond, body t ht first⟩,
        body f (hf f rfl) h⟩
  | whileLoop i e b hb =>
    obtain ⟨_, cond, h⟩ := except_bind_ok h
    exact List.forall_mem_append.mpr ⟨expr _ e cond, body b hb h⟩
  | doWhile i b e hb =>
    obtain ⟨_, first, h⟩ := except_bind_ok h
    exact List.forall_mem_append.mpr ⟨body b hb first, expr _ e h⟩
  | forLoop i a e u b ha hu hb =>
    rw [checkOrder_forLoop] at h
    rw [operands_forLoop]
    obtain ⟨_, first, h⟩ := except_bind_ok h
    obtain ⟨_, cond, h⟩ := except_bind_ok h
    obtain ⟨_, last, h⟩ := except_bind_ok h
    refine List.forall_mem_append.mpr ⟨List.forall_mem_append.mpr ⟨List.forall_mem_append.mpr ⟨?_, expr _ e cond⟩, ?_⟩,
      body b hb h⟩
    · cases a with
      | none => exact List.forall_mem_nil _
      | some a => exact ha a rfl first
    · cases u with
      | none => exact List.forall_mem_nil _
      | some u => exact hu u rfl last
  | block b hb => exact body b hb h
  | seq i ss x ih => exact all ss ih h
  | simple s simple =>
    cases s with
    | ret i e =>
      cases e with
      | none => exact List.forall_mem_nil _
      | some e => exact expr _ e h
    | eval i e => exact expr _ e h
    | require i e => exact expr _ e h
    | assign i l r o x =>
      obtain ⟨_, left, h⟩ := except_bind_ok h
      obtain ⟨_, right, h⟩ := except_bind_ok h
      refine List.forall_mem_append.mpr ⟨List.forall_mem_append.mpr ⟨expr _ l left, expr _ r right⟩,
        List.forall_mem_singleton.mpr ?_⟩
      exact OrderContext.compatible_of_pair
        (c := { c with site := { c.site with stmt := some (.assign i l r o x) } }) undeclared h
    | declare i v e =>
      obtain ⟨_, -, h⟩ := except_bind_ok h
      cases e with
      | none => exact List.forall_mem_nil _
      | some e => exact expr _ e h
    | breakLoop | continueLoop | compute | enterKey | comment | blank => exact List.forall_mem_nil _
    | ifThen | whileLoop | doWhile | forLoop | block | seq => cases simple

end Checked

theorem Block.checkOrder_ok {c : OrderContext} (undeclared : c.declared = false) (b : Block)
    (h : b.checkOrder c = .ok ()) : ∀ g ∈ b.operands, g.Compatible c.symbols :=
  Stmt.checkOrder_ok undeclared (.block b) h

theorem SourceUnit.checkOrder_ok {u : SourceUnit} (h : u.checkOrder = .ok ()) {f : FunctionDef}
    (hf : f ∈ u.allFunctions) : ∀ g ∈ f.body.operands, g.Compatible u.symbols := by
  obtain ⟨c, hc, hf⟩ := List.mem_flatMap.mp hf
  obtain ⟨_, h, -⟩ := except_bind_ok h
  exact Block.checkOrder_ok rfl f.body (except_for_ok (except_for_ok h c hc) f hf)

/-! ## Any order will do -/

namespace Access

/-- If the first writes a variable that the second accesses, they share a location. -/
def Shows (a b : Access) : Prop :=
  ∀ l ∈ a.writes, l.isState = true → ∀ k ∈ b.reads ++ b.writes, k.target = l.target →
    ∃ l' ∈ a.writes, l' ∈ b.reads ++ b.writes

instance (a b : Access) : Decidable (a.Shows b) := by
  unfold Shows
  infer_instance

variable {a b : Access}

theorem Compatible.symm (h : a.Compatible b) : b.Compatible a :=
  ⟨fun l hl hl' => h.writes l hl' hl, h.right, h.left⟩

/-- What is compatible and does not overlap unnoticed does not overlap at all. -/
theorem Compatible.disjoint (h : a.Compatible b) (shows : a.Shows b) :
    Disjoint a.footprint.written b.footprint.touched := by
  rw [Set.disjoint_left]
  rintro x ⟨l, hl, target⟩ touched
  obtain ⟨k, hk, same⟩ : ∃ k ∈ b.reads ++ b.writes, k.target = .decl .stateVar x := by
    rcases touched with ⟨k, hk, same⟩ | ⟨k, hk, same⟩
    · exact ⟨k, List.mem_append_left _ hk, same⟩
    · exact ⟨k, List.mem_append_right _ hk, same⟩
  obtain ⟨l', hl', shared⟩ := shows l hl (by rw [Loc.isState, target]) k hk (same.trans target.symm)
  rcases List.mem_append.mp shared with read | written
  · exact h.left l' hl' read
  · exact h.writes l' hl' written

theorem Compatible.apart (h : a.Compatible b) (ab : a.Shows b) (ba : b.Shows a) : a.footprint.Apart b.footprint :=
  ⟨h.disjoint ab, h.symm.disjoint ba⟩

end Access

/-- Operands share a location whenever one of them writes a variable that the other one accesses. -/
def Operands.Shown (symbols : Symbols) (g : Operands) : Prop :=
  g.Pairwise fun o p => (Expr.operandAccess symbols o).Shows (Expr.operandAccess symbols p) ∧
    (Expr.operandAccess symbols p).Shows (Expr.operandAccess symbols o)

instance (symbols : Symbols) (g : Operands) : Decidable (g.Shown symbols) := by
  unfold Operands.Shown
  infer_instance

/-! ### Which overlaps are shown -/

/-- With a part of a state variable, the whole variable is listed. -/
def Loc.Enclosed (ls : List Loc) : Prop := ∀ l ∈ ls, l.isState = true → ⟨l.target, l.name, none⟩ ∈ ls

theorem Loc.Enclosed.append {ks ls : List Loc} (hk : Enclosed ks) (hl : Enclosed ls) : Enclosed (ks ++ ls) :=
  List.forall_mem_append.mpr ⟨fun l h state => List.mem_append_left _ (hk l h state),
    fun l h state => List.mem_append_right _ (hl l h state)⟩

theorem Loc.enclosed_nil : Enclosed [] := List.forall_mem_nil _

/-- Of state variables only the whole is written, and with a part the whole is read. -/
structure Access.IsWhole (a : Access) : Prop where
  writes : ∀ l ∈ a.writes, l.isState = true → l.key = none
  reads : Loc.Enclosed a.reads

/-- A variable bears one name in both. -/
def Access.NamedAlike (a b : Access) : Prop :=
  ∀ l ∈ a.writes, ∀ k ∈ b.reads ++ b.writes, k.target = l.target → k.name = l.name

namespace Access

variable {a b : Access}

theorem IsWhole.add (ha : a.IsWhole) (hb : b.IsWhole) : (a.add b).IsWhole where
  writes l hl state := (Loc.mem_union.mp hl).elim (fun hl => ha.writes l hl state) fun hl => hb.writes l hl state
  reads l hl state := Loc.mem_union.mpr ((Loc.mem_union.mp hl).imp (fun hl => ha.reads l hl state)
    fun hl => hb.reads l hl state)

theorem isWhole_ofCallees {fs : List FunctionDef} (h : ∀ f ∈ fs, f.stateAccess.IsWhole) : (ofCallees fs).IsWhole where
  writes l hl state := by
    obtain ⟨f, hf, hl⟩ := mem_ofCallees_writes.mp hl
    exact (h f hf).writes l hl state
  reads l hl state := by
    obtain ⟨f, hf, hl⟩ := mem_ofCallees_reads.mp hl
    exact mem_ofCallees_reads.mpr ⟨f, hf, (h f hf).reads l hl state⟩

/-- A write of a whole variable shares a location with each other write of it, and with each read of a part. -/
theorem IsWhole.shows (ha : a.IsWhole) (hb : b.IsWhole) (alike : a.NamedAlike b) : a.Shows b := by
  rintro ⟨x, n, key⟩ hl state ⟨y, m, part⟩ hk same
  obtain rfl : key = none := ha.writes _ hl state
  obtain rfl : y = x := same
  obtain rfl : m = n := alike _ hl _ hk rfl
  refine ⟨_, hl, ?_⟩
  rcases List.mem_append.mp hk with read | written
  · exact List.mem_append_left _ (hb.reads _ read state)
  · obtain rfl : part = none := hb.writes _ written state
    exact hk

end Access

/-- Only names lead to state variables. -/
def Node.isPlainState : Node → Bool
  | .expr (.member _ _ _ (some (.decl .stateVar _))) | .expr (.index _ _ _ (some (.decl .stateVar _))) => false
  | _ => true

/-- What leads to a state variable reads it. -/
theorem Expr.read_of_target {b : Expr} (plain : ∀ n ∈ b.nodes, n.isPlainState = true) {t : Ref} {key : LocKey}
    (target : b.target? = some t) (state : (⟨t, b.targetName, some key⟩ : Loc).isState = true) :
    ⟨t, b.targetName, none⟩ ∈ b.reads false := by
  obtain ⟨x, rfl⟩ : ∃ x, t = .decl .stateVar x := by
    unfold Loc.isState at state
    split at state
    · exact ⟨_, ‹_›⟩
    · cases state
  cases b with
  | ident i n _ =>
    cases target
    exact List.mem_singleton_self _
  | member i b n _ =>
    cases target
    cases plain _ (List.mem_append_left _ List.mem_cons_self)
  | index i b k _ =>
    cases target
    cases plain _ (List.mem_append_left _ List.mem_cons_self)
  | operator | boolLit | numLit | me | all | call | new | cast | arrayLit | tuple | reclassify => cases target

/-- With the part that an access reads, its container is read. -/
theorem Expr.enclosed_part {b : Expr} (plain : ∀ n ∈ b.nodes, n.isPlainState = true) {key : LocKey} {written : Bool}
    {ls : List Loc} (inner : Loc.Enclosed ls) (container : b.reads written ⊆ ls) :
    Loc.Enclosed (ls ++ if written then [] else (match b.target? with
      | some t => if t.isVariable then some (⟨t, b.targetName, some key⟩ : Loc) else none
      | none => none).toList) := by
  refine List.forall_mem_append.mpr ⟨fun l hl state => List.mem_append_left _ (inner l hl state),
    fun l hl state => List.mem_append_left _ (container ?_)⟩
  cases written with
  | true => cases hl
  | false =>
    have hl := Option.mem_toList.mp hl
    split at hl
    · rename_i t target
      split at hl
      · cases hl
        exact Expr.read_of_target plain target state
      · cases hl
    · cases hl

mutual

theorem Ty.reads_enclosed : ∀ t : Ty, (∀ n ∈ t.nodes, n.isPlainState = true) → Loc.Enclosed t.reads
  | .mapping _ k l v, h => by
    rw [Ty.nodes, List.cons_append, List.cons_append, List.forall_mem_cons, List.forall_mem_append,
      List.forall_mem_append] at h
    exact (k.reads_enclosed h.2.1.1).append (v.reads_enclosed h.2.2)
  | .array v none, h => by
    rw [Ty.nodes, List.forall_mem_cons] at h
    exact v.reads_enclosed h.2
  | .array v (some n), h => by
    rw [Ty.nodes, List.cons_append, List.forall_mem_cons, List.forall_mem_append] at h
    exact (v.reads_enclosed h.2.1).append (n.reads_enclosed h.2.2)
  | .elementary .., _ | .bool, _ | .boolLit .., _ | .number, _ | .numLit .., _ | .integer .., _ | .named .., _
  | .address .., _ | .cipher .., _ | .publicKey .., _ | .randomness .., _ | .tuple .., _ | .function .., _ => Loc.enclosed_nil

theorem AnnTy.reads_enclosed : ∀ t : AnnTy, (∀ n ∈ t.nodes, n.isPlainState = true) → Loc.Enclosed t.reads
  | ⟨t, p, _, _, _⟩, h => by
    rw [AnnTy.nodes, List.cons_append, List.forall_mem_cons, List.forall_mem_append] at h
    exact (t.reads_enclosed h.2.1).append (p.reads_enclosed h.2.2)

theorem Info.typeReads_enclosed : ∀ i : Info, (∀ n ∈ i.typeNodes, n.isPlainState = true) → Loc.Enclosed i.typeReads
  | ⟨_, _, some t, _, _⟩, h => t.reads_enclosed h
  | ⟨_, _, none, _, _⟩, _ => Loc.enclosed_nil

/-- An expression that reads a part of a state variable reads the variable. -/
theorem Expr.reads_enclosed : ∀ (e : Expr) {w : Bool}, (∀ n ∈ e.nodes, n.isPlainState = true) →
    Loc.Enclosed (e.reads w)
  | .call i f as o k, _, h => by
    rw [Expr.nodes, List.cons_append, List.forall_mem_cons, List.forall_mem_append] at h
    exact (f.reads_enclosed h.2.1).append (Expr.readsAll_enclosed as h.2.2)
  | .new i as, _, h => by
    rw [Expr.nodes, List.cons_append, List.forall_mem_cons, List.forall_mem_append] at h
    exact (i.typeReads_enclosed h.2.1).append (Expr.readsAll_enclosed as h.2.2)
  | .cast i t e b, _, h => by
    rw [Expr.nodes, List.cons_append, List.forall_mem_cons, List.forall_mem_append] at h
    exact (t.reads_enclosed h.2.1).append (e.reads_enclosed h.2.2)
  | .arrayLit i vs k, _, h => Expr.readsAll_enclosed vs (List.forall_mem_cons.mp h).2
  | .tuple i es, _, h => Expr.readsAll_enclosed es (List.forall_mem_cons.mp h).2
  | .ident i n t, w, _ => by
    unfold Expr.reads
    split
    · exact Loc.enclosed_nil
    · intro l hl _
      unfold Expr.loc? at hl ⊢
      cases t with
      | none => cases hl
      | some t =>
        by_cases var : t.isVariable = true
        · simp only [if_pos var, Option.toList_some, List.mem_singleton] at hl ⊢
          rw [hl]
        · simp only [if_neg var, Option.toList_none, List.not_mem_nil] at hl
  | .member i b n t, w, h => by
    rw [Expr.nodes, List.cons_append, List.forall_mem_cons, List.forall_mem_append] at h
    exact Expr.enclosed_part h.2.1 (b.reads_enclosed h.2.1) (List.Subset.refl _)
  | .index i b k t, w, h => by
    rw [Expr.nodes, List.cons_append, List.forall_mem_cons, List.forall_mem_append] at h
    exact Expr.enclosed_part h.2.1 ((b.reads_enclosed h.2.1).append (k.reads_enclosed h.2.2))
      (List.subset_append_left _ _)
  | .reclassify i m e p o, _, h => by
    rw [Expr.nodes, List.cons_append, List.forall_mem_cons, List.forall_mem_append] at h
    exact (e.reads_enclosed h.2.1).append (p.reads_enclosed h.2.2)
  | .operator .., _, _ | .boolLit .., _, _ | .numLit .., _, _ | .me _, _, _ | .all _, _, _ => Loc.enclosed_nil

theorem Expr.readsAll_enclosed : ∀ (es : List Expr) {w : Bool}, (∀ n ∈ Expr.nodesAll es, n.isPlainState = true) →
    Loc.Enclosed (Expr.readsAll w es)
  | [], _, _ => Loc.enclosed_nil
  | e :: es, _, h => by
    rw [Expr.nodesAll, List.forall_mem_append] at h
    exact (e.reads_enclosed h.1).append (Expr.readsAll_enclosed es h.2)

end

/-- Operands that call only functions which change state variables as a whole share a location whenever one of them
writes a variable that the other one reads a part of. -/
theorem Operands.shown_of_whole {symbols : Symbols} {g : Operands}
    (plain : ∀ o ∈ g, ∀ n ∈ o.2.nodes, n.isPlainState = true)
    (whole : ∀ o ∈ g, ∀ f ∈ o.2.callees symbols, f.stateAccess.IsWhole)
    (alike : ∀ o ∈ g, ∀ p ∈ g, (Expr.operandAccess symbols o).NamedAlike (Expr.operandAccess symbols p)) :
    g.Shown symbols := by
  have access : ∀ o ∈ g, (Expr.operandAccess symbols o).IsWhole := by
    intro o ho
    refine Access.IsWhole.add ⟨List.forall_mem_nil _, fun l hl state => ?_⟩ (Access.isWhole_ofCallees (whole o ho))
    simp only [Loc.mem_union, List.not_mem_nil, false_or] at hl ⊢
    exact o.2.reads_enclosed (plain o ho) l hl state
  exact List.pairwise_of_forall_mem_list fun o ho p hp =>
    ⟨(access o ho).shows (access p hp) (alike o ho p hp), (access p hp).shows (access o ho) (alike p hp o ho)⟩
/-- The operands of the group are evaluated. -/
def Operands.run (g : Operands) (s : Setting V) (φ : Activation V) : List (Act V (List (List V))) :=
  g.map fun o => o.2.run s φ o.1

/-! ### Operands are parts of the code -/

section Parts

variable {P : Node → Prop}

theorem Expr.nodes_of_all {as : List Expr} (h : ∀ n ∈ Expr.nodesAll as, P n) : ∀ a ∈ as, ∀ n ∈ a.nodes, P n := by
  induction as with
  | nil => exact List.forall_mem_nil _
  | cons a as ih =>
    rw [Expr.nodesAll, List.forall_mem_append] at h
    exact List.forall_mem_cons.mpr ⟨h.1, ih h.2⟩

theorem Operands.nodes_of_all {as : List Expr} {w : Bool} (h : ∀ n ∈ Expr.nodesAll as, P n) :
    ∀ o ∈ as.map fun a => (w, a), ∀ n ∈ o.2.nodes, P n := by
  rintro o ho
  obtain ⟨a, ha, rfl⟩ := List.mem_map.mp ho
  exact Expr.nodes_of_all h a ha

theorem Operands.nodes_of_pair {w x : Bool} {e f : Expr} (he : ∀ n ∈ e.nodes, P n) (hf : ∀ n ∈ f.nodes, P n) :
    ∀ o ∈ [(w, e), (x, f)], ∀ n ∈ Prod.snd o |>.nodes, P n :=
  List.forall_mem_cons.mpr ⟨he, List.forall_mem_singleton.mpr hf⟩

/-- What holds of all nodes of an expression holds of those of all operands. -/
theorem Expr.operands_nodes (e : Expr) : ∀ {w : Bool}, (∀ n ∈ e.nodes, P n) →
    ∀ g ∈ e.operands w, ∀ o ∈ g, ∀ n ∈ o.2.nodes, P n := by
  have all (as : List Expr) (ih : ∀ a ∈ as, ∀ {w : Bool}, (∀ n ∈ a.nodes, P n) →
      ∀ g ∈ a.operands w, ∀ o ∈ g, ∀ n ∈ o.2.nodes, P n) {w : Bool} (h : ∀ n ∈ Expr.nodesAll as, P n) :
      ∀ g ∈ Expr.operandsAll w as, ∀ o ∈ g, ∀ n ∈ o.2.nodes, P n := by
    induction as with
    | nil => exact List.forall_mem_nil _
    | cons a as iha =>
      rw [List.forall_mem_cons] at ih
      rw [Expr.nodesAll, List.forall_mem_append] at h
      exact List.forall_mem_append.mpr ⟨ih.1 h.1, iha ih.2 h.2⟩
  induction e using Expr.inductOn with
  | call i f as o k hf ha =>
    intro w h
    rw [Expr.nodes, List.cons_append, List.forall_mem_cons, List.forall_mem_append] at h
    refine List.forall_mem_append.mpr ⟨List.forall_mem_append.mpr ⟨hf h.2.1, all as ha h.2.2⟩, ?_⟩
    split
    · exact List.forall_mem_nil _
    · exact List.forall_mem_singleton.mpr (Operands.nodes_of_all h.2.2)
  | new i as ha =>
    intro w h
    rw [Expr.nodes, List.cons_append, List.forall_mem_cons, List.forall_mem_append] at h
    exact List.forall_mem_append.mpr ⟨all as ha h.2.2, List.forall_mem_singleton.mpr (Operands.nodes_of_all h.2.2)⟩
  | cast i t e b he =>
    intro w h
    rw [Expr.nodes, List.cons_append, List.forall_mem_cons, List.forall_mem_append] at h
    exact he h.2.2
  | arrayLit i vs k hv =>
    intro w h
    rw [Expr.nodes, List.forall_mem_cons] at h
    exact List.forall_mem_append.mpr ⟨all vs hv h.2, List.forall_mem_singleton.mpr (Operands.nodes_of_all h.2)⟩
  | tuple i es he =>
    intro w h
    rw [Expr.nodes, List.forall_mem_cons] at h
    exact List.forall_mem_append.mpr ⟨all es he h.2, List.forall_mem_singleton.mpr (Operands.nodes_of_all h.2)⟩
  | member i b n t hb =>
    intro w h
    rw [Expr.nodes, List.cons_append, List.forall_mem_cons, List.forall_mem_append] at h
    exact hb h.2.1
  | index i b k t hb hk =>
    intro w h
    rw [Expr.nodes, List.cons_append, List.forall_mem_cons, List.forall_mem_append] at h
    exact List.forall_mem_append.mpr ⟨List.forall_mem_append.mpr ⟨hb h.2.1, hk h.2.2⟩,
      List.forall_mem_singleton.mpr (Operands.nodes_of_pair h.2.1 h.2.2)⟩
  | reclassify i m e p o he hp =>
    intro w h
    rw [Expr.nodes, List.cons_append, List.forall_mem_cons, List.forall_mem_append] at h
    exact List.forall_mem_append.mpr ⟨List.forall_mem_append.mpr ⟨he h.2.1, hp h.2.2⟩,
      List.forall_mem_singleton.mpr (Operands.nodes_of_pair h.2.1 h.2.2)⟩
  | leaf e he =>
    intro w _
    cases e with
    | operator | boolLit | numLit | ident | me | all => exact List.forall_mem_nil _
    | call | new | cast | arrayLit | tuple | member | index | reclassify => cases he

theorem Expr.operands_nodes? {e : Option Expr} (h : ∀ n ∈ Expr.nodes? e, P n) :
    ∀ g ∈ Expr.operands? e, ∀ o ∈ g, ∀ n ∈ o.2.nodes, P n := by
  cases e with
  | none => exact List.forall_mem_nil _
  | some e => exact e.operands_nodes h

/-- What holds of all nodes of a statement holds of those of all operands. -/
theorem Stmt.operands_nodes (s : Stmt) (h : ∀ n ∈ s.nodes, P n) : ∀ g ∈ s.operands, ∀ o ∈ g, ∀ n ∈ o.2.nodes, P n := by
  have all (ss : List Stmt) (ih : ∀ s ∈ ss, (∀ n ∈ s.nodes, P n) → ∀ g ∈ s.operands, ∀ o ∈ g, ∀ n ∈ o.2.nodes, P n)
      (h : ∀ n ∈ Stmt.nodesAll ss, P n) : ∀ g ∈ Stmt.operandsAll ss, ∀ o ∈ g, ∀ n ∈ o.2.nodes, P n := by
    induction ss with
    | nil => exact List.forall_mem_nil _
    | cons s ss ihs =>
      rw [List.forall_mem_cons] at ih
      rw [Stmt.nodesAll, List.forall_mem_append] at h
      exact List.forall_mem_append.mpr ⟨ih.1 h.1, ihs ih.2 h.2⟩
  have body : ∀ b : Block, (∀ s ∈ b.stmts, (∀ n ∈ s.nodes, P n) → ∀ g ∈ s.operands, ∀ o ∈ g, ∀ n ∈ o.2.nodes, P n) →
      (∀ n ∈ b.nodes, P n) → ∀ g ∈ b.operands, ∀ o ∈ g, ∀ n ∈ o.2.nodes, P n := by
    rintro ⟨_, ss, _⟩ ih h
    exact all ss ih fun n hn => h n (List.mem_cons_of_mem _ hn)
  induction s using Stmt.inductOn with
  | ifThen i c t e ht he =>
    cases e with
    | none =>
      rw [Stmt.nodes, List.cons_append, List.forall_mem_cons, List.forall_mem_append] at h
      exact List.forall_mem_append.mpr ⟨c.operands_nodes h.2.1, body t ht h.2.2⟩
    | some e =>
      rw [Stmt.nodes, List.cons_append, List.cons_append, List.forall_mem_cons, List.forall_mem_append,
        List.forall_mem_append] at h
      exact List.forall_mem_append.mpr ⟨List.forall_mem_append.mpr ⟨c.operands_nodes h.2.1.1, body t ht h.2.1.2⟩,
        body e (he e rfl) h.2.2⟩
  | whileLoop i c b hb =>
    rw [Stmt.nodes, List.cons_append, List.forall_mem_cons, List.forall_mem_append] at h
    exact List.forall_mem_append.mpr ⟨c.operands_nodes h.2.1, body b hb h.2.2⟩
  | doWhile i b c hb =>
    rw [Stmt.nodes, List.cons_append, List.forall_mem_cons, List.forall_mem_append] at h
    exact List.forall_mem_append.mpr ⟨body b hb h.2.1, c.operands_nodes h.2.2⟩
  | forLoop i a c u b ha hu hb =>
    rw [Stmt.nodes_forLoop, List.forall_mem_cons, List.forall_mem_append, List.forall_mem_append,
      List.forall_mem_append] at h
    rw [operands_forLoop]
    obtain ⟨-, ⟨⟨first, cond⟩, last⟩, round⟩ := h
    refine List.forall_mem_append.mpr ⟨List.forall_mem_append.mpr ⟨List.forall_mem_append.mpr
      ⟨?_, c.operands_nodes cond⟩, ?_⟩, body b hb round⟩
    · cases a with
      | none => exact List.forall_mem_nil _
      | some a => exact ha a rfl first
    · cases u with
      | none => exact List.forall_mem_nil _
      | some u => exact hu u rfl last
  | block b hb => exact body b hb h
  | seq i ss x ih => exact all ss ih fun n hn => h n (List.mem_cons_of_mem _ hn)
  | simple s simple =>
    cases s with
    | ret i e => exact Expr.operands_nodes? fun n hn => h n (List.mem_cons_of_mem _ hn)
    | eval i e => exact e.operands_nodes fun n hn => h n (List.mem_cons_of_mem _ hn)
    | require i e => exact e.operands_nodes fun n hn => h n (List.mem_cons_of_mem _ hn)
    | assign i l r o x =>
      rw [Stmt.nodes, List.cons_append, List.forall_mem_cons, List.forall_mem_append] at h
      exact List.forall_mem_append.mpr ⟨List.forall_mem_append.mpr ⟨l.operands_nodes h.2.1, r.operands_nodes h.2.2⟩,
        List.forall_mem_singleton.mpr (Operands.nodes_of_pair h.2.1 h.2.2)⟩
    | declare i v e =>
      rw [Stmt.nodes, List.cons_append, List.forall_mem_cons, List.forall_mem_append] at h
      exact Expr.operands_nodes? h.2.2
    | breakLoop | continueLoop | compute | enterKey | comment | blank => exact List.forall_mem_nil _
    | ifThen | whileLoop | doWhile | forLoop | block | seq => cases simple

end Parts

/-! ### The result -/

/-- In an accepted program, operands may be evaluated in any order: their values and the storage in the end are always
the same. -/
theorem SourceUnit.checkOrder_unordered {u v : SourceUnit} (distinct : u.numbers.Nodup)
    (marked : u.markAccesses = .ok v) (accepted : v.checkOrder = .ok ()) (quiet : v.ViewsWriteNothing)
    (traceable : v.Traceable) {f : FunctionDef} (hf : f ∈ v.allFunctions) {g : Operands} (hg : g ∈ f.body.operands)
    (shown : g.Shown v.symbols) [DecidableEq V] (m : Machine V) (n : Nat) (φ : Activation V) :
    Act.Unordered (g.run (m.within v.symbols n) φ) := by
  have accounted := markAccesses_accounted distinct marked
  have direct : ∀ f ∈ v.allFunctions, ∀ n ∈ f.nodes, n.Direct Set.univ :=
    fun f hf n hn => Node.direct_of_traceable (traceable f hf n hn) _
  have symbols (n : Nat) : (m.staged v.symbols n).symbols = v.symbols := by cases n <;> rfl
  have calls := Machine.staged_within accounted direct m
    (fun n calls f hf => quiet.runSteps_within calls hf (direct f hf) ((symbols n).symm ▸ accounted f hf)) n
  have compatible := checkOrder_ok accepted hf g hg
  have code := Stmt.operands_nodes (.block f.body) (fun k hk => traceable f hf k (List.mem_append_right _ hk)) g hg
  have confined : ∀ o ∈ g, Confined (Expr.operandAccess v.symbols o).footprint
      (o.2.run (m.within v.symbols n) φ o.1) := by
    intro o ho
    rw [← m.setting_staged]
    have whole := (Expr.operandAccess v.symbols o).in_footprint
    refine o.2.run_confined calls ⟨fun k hk => (Node.direct_of_traceable (code o ho k hk) ∅).named, fun l hl => ?_,
      fun h hh => ?_⟩ φ
    · exact whole.reads l (Loc.mem_union.mpr (.inl (Loc.mem_union.mpr (.inr hl))))
    · rw [symbols] at hh
      exact ((Access.within_ofCallees hh).trans (Access.within_add_right _ _)).into whole
  refine unordered_of_commutes ?_
  rw [Operands.run, List.pairwise_map]
  refine List.Pairwise.imp_of_mem (fun {o p} ho hp h => ?_) (compatible.and shown)
  have apart := h.1.apart h.2.1 h.2.2
  exact ⟨(confined o ho).commutes (confined p hp) apart, (confined p hp).commutes (confined o ho) apart.symm⟩

/-! ## Programs -/

section Programs

theorem ok_of_toOption {ε α : Type} {x : Except ε α} {a : α} (h : x.toOption = some a) : x = .ok a := by
  cases x with
  | error e => cases h
  | ok b =>
    cases h
    rfl

/-- The first element of an array. -/
def Expr.firstAt (id : Nat) (x : String) : Expr :=
  .index (.numbered id) (.nameAt (id + 1) x) (.literalAt (id + 2) 0) none

/-- A sum with an operand that changes an element of an array, which the other operand does not look at. -/
def booking : SourceUnit :=
  .sketch 100 "Ledger" [⟨101, [], .publicUint, "rate", none⟩, ⟨102, [], .plain (.array .publicUint none), "shares", none⟩]
    [.yielding 103 "book" [.assign default (.firstAt 110 "shares") (.literalAt 113 5) "" false,
      .ret default (some (.literalAt 114 2))],
    .sketch 105 "run" "public" []
      [.declareAt 106 .publicUint "sum" (.applyAt 115 .add [.nameAt 117 "rate", .callAt 118 (.nameAt 119 "book") []])]]

theorem booking_unordered : ∃ u n v, booking.link 130 = .ok (u, n) ∧ u.numbers.Nodup ∧ u.markAccesses = .ok v ∧
    v.checkOrder = .ok () ∧ v.ViewsWriteNothing ∧ v.Traceable ∧
    (∃ f ∈ v.allFunctions, ∃ g ∈ f.body.operands, g.length = 2 ∧
      ∃ o ∈ g, (Expr.operandAccess v.symbols o).writes ≠ []) ∧
    ∀ f ∈ v.allFunctions, ∀ g ∈ f.body.operands, g.Shown v.symbols ∧
      ∀ (m : Machine Int) (k : Nat) (φ : Activation Int), Unordered (g.run (m.within v.symbols k) φ) := by
  obtain ⟨⟨u, n⟩, link, tested⟩ := exists_ok_of_any (x := booking.link 130)
    (p := fun r : SourceUnit × Nat => r.1.markAccesses.toOption.any fun v : SourceUnit => decide (r.1.numbers.Nodup ∧
      v.checkOrder.toOption = some () ∧ v.ViewsWriteNothing ∧ v.Traceable ∧
      (∃ f ∈ v.allFunctions, ∃ g ∈ f.body.operands, g.length = 2 ∧
        ∃ o ∈ g, (Expr.operandAccess v.symbols o).writes ≠ []) ∧
      ∀ f ∈ v.allFunctions, ∀ g ∈ f.body.operands, g.Shown v.symbols)) (by decide +kernel)
  obtain ⟨v, marked, tested⟩ := exists_ok_of_any tested
  obtain ⟨distinct, passes, quiet, traceable, effects, shown⟩ := of_decide_eq_true tested
  have accepted := ok_of_toOption passes
  exact ⟨u, n, v, link, distinct, marked, accepted, quiet, traceable, effects, fun f hf g hg => ⟨shown f hf g hg,
    SourceUnit.checkOrder_unordered distinct marked accepted quiet traceable hf hg (shown f hf g hg)⟩⟩

/-- A sum of an element of an array and the result of a function that changes this element. -/
def restocking : SourceUnit :=
  .sketch 100 "Shelf" [⟨101, [], .plain (.array .publicUint none), "items", none⟩]
    [.yielding 102 "restock" [.assign default (.firstAt 110 "items") (.literalAt 113 1) "" false,
      .ret default (some (.literalAt 114 2))],
    .sketch 104 "count" "public" []
      [.declareAt 105 .publicUint "sum" (.applyAt 115 .add [.firstAt 117 "items", .callAt 120 (.nameAt 121 "restock") []])]]

/-- Numbers, and arrays of a single number. -/
def Machine.counting : Machine Int where
  constant := fun
    | .numLit _ n _ => n
    | _ => 0
  combine := fun
    | .index .., vs => vs.head?
    | _, vs => some (vs.foldl (· + ·) 0)
  holds v := v != 0
  put _ _ _ v := some v
  split _ v := some [v]
  initial _ := 0
  finish _ _ := some 0

/-- The activities have results in the reverse order and in the given order, but not the same ones. -/
def Act.differs {V α : Type} [DecidableEq α] (xs : List (Act V α)) (σ : Storage V) : Bool :=
  match each xs.zipIdx.reverse σ, each xs.zipIdx σ with
  | some r, some q => !decide (r.1.Perm q.1)
  | _, _ => false

theorem Act.Unordered.differs {V α : Type} [DecidableEq α] {xs : List (Act V α)} (h : Unordered xs)
    (σ : Storage V) : Act.differs xs σ = false := by
  have same := h xs.zipIdx.reverse (List.reverse_perm _) σ
  unfold Act.differs
  generalize each xs.zipIdx.reverse σ = r at same
  generalize each xs.zipIdx σ = q at same
  cases same with
  | some h => simp [h.1]
  | none => rfl

/-- The program passes, but the sum depends on which operand is evaluated first. -/
theorem restocking_not_unordered : ∃ u n v, restocking.link 130 = .ok (u, n) ∧ u.numbers.Nodup ∧
    u.markAccesses = .ok v ∧ v.checkOrder = .ok () ∧ v.ViewsWriteNothing ∧
    ∃ f ∈ v.allFunctions, ∃ g ∈ f.body.operands,
      ¬ Unordered (g.run (Machine.counting.within v.symbols 2) ⟨0, fun _ => none⟩) := by
  obtain ⟨⟨u, n⟩, link, tested⟩ := exists_ok_of_any (x := restocking.link 130)
    (p := fun r : SourceUnit × Nat => r.1.markAccesses.toOption.any fun v : SourceUnit => decide (r.1.numbers.Nodup ∧
      v.checkOrder.toOption = some () ∧ v.ViewsWriteNothing ∧ ∃ f ∈ v.allFunctions, ∃ g ∈ f.body.operands,
        differs (g.run (Machine.counting.within v.symbols 2) ⟨0, fun _ => none⟩) (fun _ _ => 0) = true)) (by decide +kernel)
  obtain ⟨v, marked, tested⟩ := exists_ok_of_any tested
  obtain ⟨distinct, passes, quiet, f, hf, g, hg, differ⟩ := of_decide_eq_true tested
  refine ⟨u, n, v, link, distinct, marked, ok_of_toOption passes, quiet, f, hf, g, hg, fun same => ?_⟩
  rw [same.differs] at differ
  cases differ

end Programs

end Shroud
