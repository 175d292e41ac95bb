import Shroud.Proofs.Assignments
import Shroud.Proofs.Forms
import Shroud.Proofs.Sketch

/-!
# Construction of contracts

What a constructor does to the variables that are fixed afterwards, in every execution: whichever branches are taken,
however often loops are repeated, wherever execution is cut off, and whatever the called functions do.

**Loops.** The analysis looks at the body of a loop once. What it says about a variable holds if no loop assigns that
variable; a loop may be skipped, and then a variable that only it assigns is left unset (`looping_not_constructed`).

**Reads.** Early reads are found in the values that the constructor computes itself. The analysis looks neither at the
keys in the places that are assigned to nor into called functions.

**Functions.** The check of types keeps all other functions from assigning fixed variables, so no call from the
constructor does. In the constructor itself nothing keeps constants from being assigned, nor variables with initial
values.

**Result.** `SourceUnit.check_constructed`.
-/

namespace Shroud

/-- A final variable that the constructor has to assign. -/
def StateVar.isLate (v : StateVar) : Bool := v.keywords.contains "final" && v.init.isNone

/-- A variable that never changes after construction. -/
def StateVar.isFixed (v : StateVar) : Bool := isFixing v.keywords

/-- What an execution of the constructor does to the fixed variables of the contract. -/
structure Contract.Constructed (c : Contract) (f : FunctionDef) (o : Outcome) (t : List Use) : Prop where
  /-- Without a loop that assigns it, a final variable without initial value is assigned exactly once. -/
  once : ∀ v ∈ c.stateVars, v.isLate = true → ¬ Node.Repeats v.id f.body.nodes → o = .normal ∨ o = .returned →
    t.countP (·.writes v.id) = 1
  /-- It is read for a value only after that. -/
  first : ∀ v ∈ c.stateVars, v.isLate = true → ¬ Node.Repeats v.id f.body.nodes →
    ∀ before a after, t = before ++ a :: after → a.reads v.id = true → ∃ w ∈ before, w.writes v.id = true
  /-- A variable that no statement of the constructor assigns is never assigned. -/
  kept : ∀ v ∈ c.stateVars, v.isFixed = true → v.id ∉ (Node.replaced f.body.nodes).map Ref.id →
    ∀ a ∈ t, a.writes v.id = false
  /-- Called functions assign none of them. -/
  own : ∀ v ∈ c.stateVars, v.isFixed = true → ∀ a ∈ t, a.writes v.id = true → a.remote = false

/-! ## The analysis of a contract -/

namespace Contract

variable {c : Contract} {v : StateVar}

/-- The analysis starts with every variable that is to be assigned, and none has been. -/
theorem lookup_unassigned (hv : v ∈ c.stateVars) (late : v.isLate = true) : c.unassigned.lookup v.id = some false := by
  have found : (v.id, false) ∈ c.unassigned :=
    List.mem_map.mpr ⟨v, List.mem_filter.mpr ⟨hv, late⟩, rfl⟩
  have all : ∀ e ∈ c.unassigned, e.2 = false := by
    intro e he
    obtain ⟨_, -, rfl⟩ := List.mem_map.mp he
    rfl
  revert found all
  generalize c.unassigned = a
  intro found all
  induction a with
  | nil => cases found
  | cons e a ih =>
    obtain ⟨i, b⟩ := e
    obtain ⟨first, rest⟩ := List.forall_mem_cons.mp all
    cases first
    rw [List.lookup_cons]
    split
    · rfl
    · rename_i other
      rcases List.mem_cons.mp found with same | found
      · cases same
        rw [beq_self_eq_true] at other
        cases other
      · exact ih found rest

/-- A contract that passes has at most one constructor. In the end all its variables have been assigned. -/
theorem checkFinality_ok {text : List String} (h : c.checkFinality text = .ok ()) :
    (c.constructors = [] ∧ c.unassigned.all (·.2) = true) ∨
      ∃ f site b, c.constructors = [f] ∧ f.body.assigns site c.unassigned = .ok b ∧ b.all (·.2) = true := by
  unfold checkFinality at h
  dsimp only at h
  obtain ⟨b, assigned, h⟩ := except_bind_ok h
  split at h
  · rename_i all
    split at assigned
    · cases assigned
      exact .inl ⟨‹_›, all⟩
    · exact .inr ⟨_, _, b, ‹_›, assigned, all⟩
    · cases assigned
  · cases h

end Contract

/-- Executions of the constructor follow a variable that it has to assign, unless a loop assigns it. -/
theorem Contract.constructor_follows {c : Contract} {text : List String} (passes : c.checkFinality text = .ok ())
    {f : FunctionDef} (hf : f ∈ c.constructors) {v : StateVar} (hv : v ∈ c.stateVars) (late : v.isLate = true)
    (once : ¬ Node.Repeats v.id f.body.nodes) {symbols : Symbols} {calls : Calling}
    (spares : calls.Spares symbols v.id) {o : Outcome} {t : List Use} (run : f.body.course symbols calls o t) :
    ∃ q, Use.follow v.id false t = some q ∧ (o = .normal → q = true) := by
  rcases checkFinality_ok passes with ⟨none, -⟩ | ⟨f', site, b, one, assigned, all⟩
  · rw [none] at hf
    cases hf
  · rw [one] at hf
    cases List.mem_singleton.mp hf
    obtain ⟨q, tracks⟩ := (Stmt.block f.body).tracked spares false c.unassigned b assigned
      (lookup_unassigned hv late) once
    have done : q = true := List.all_eq_true.mp all _ (mem_of_lookup tracks.lookup)
    obtain ⟨r, hr, normal, -⟩ := tracks.leads.follows o t run
    exact ⟨r, hr, fun ends => (normal ends).trans done⟩

/-- The reference leads to a declaration, not to a part of a value. -/
def Ref.isDeclared : Ref → Bool
  | .decl _ _ => true
  | .element _ _ _ | .keyLabel _ _ => false

/-- Every assigned name leads to a declaration. -/
def SourceUnit.AssignsDeclared (u : SourceUnit) : Prop :=
  ∀ f ∈ u.allFunctions, ∀ r ∈ Node.replaced f.body.nodes, r.isDeclared = true

instance (u : SourceUnit) : Decidable u.AssignsDeclared :=
  inferInstanceAs (Decidable (∀ f ∈ u.allFunctions, ∀ r ∈ Node.replaced f.body.nodes, r.isDeclared = true))

/-! ## Fixed variables in called functions -/

section Fixed

variable {u : SourceUnit}

/-- The variable with the number is fixed. -/
def Symbols.Fixes (symbols : Symbols) (x : Nat) : Prop :=
  ∃ k ks, (symbols.find? x).bind Decl.form? = some (k, ks) ∧ isFixing ks = true

theorem SourceUnit.fixes_stateVar (distinct : u.numbers.Nodup) {c : Contract} (hc : c ∈ u.contracts) {v : StateVar}
    (hv : v ∈ c.stateVars) (fixed : v.isFixed = true) : u.symbols.Fixes v.id := by
  have entry : Decl.ofState v ∈ u.symbols.entries := by
    refine List.mem_append_left _ (List.mem_flatMap.mpr ⟨c, hc, ?_⟩)
    exact List.mem_append_left _ (List.mem_append_right _ (List.mem_map.mpr ⟨v, hv, rfl⟩))
  have found : u.symbols.find? v.id = some (.variable .stateVar v.name v.keywords v.type) := lookup_of_mem distinct entry
  exact ⟨.stateVar, v.keywords, by rw [found]; rfl, fixed⟩

/-- Built-in functions have no code. -/
theorem Builtin.methods_replaced {f : FunctionDef} (h : f ∈ Builtin.methods) : Node.replaced f.body.nodes = [] := by
  simp only [Builtin.methods, List.mem_cons, List.not_mem_nil, or_false] at h
  rcases h with rfl | rfl <;> rfl

/-- Calls do not assign fixed variables. -/
theorem SourceUnit.calling_fixed (declared : u.AssignsDeclared) (h : u.check.failure = none) (n : Nat) :
    ∀ f g t, u.symbols.callee? f = some g → g.isConstructor = false → u.symbols.calling n g t →
      ∀ a ∈ t, a.kind = .write → ¬ u.symbols.Fixes a.number := by
  refine Symbols.calling_only (P := fun a => a.kind = .write → ¬ u.symbols.Fixes a.number) (fun _ h => h)
    (fun _ => nofun) (fun _ => nofun) (fun f g callee func r hr _ => ?_) n
  obtain ⟨i, found⟩ := Symbols.callee?_eq_some callee
  rcases (function?_found found).1 with hg | hg
  · have name := declared g hg r hr
    rintro ⟨kind, ks, form, fixing⟩
    obtain ⟨s, hs, hr⟩ := List.mem_flatMap.mp hr
    have permitted := check_permitted h g hg s hs
    cases s with
    | assign i l e o x =>
      cases r with
      | decl k j =>
        have constructs := (permitted _ hr kind ks form fixing).2
        rw [func] at constructs
        cases constructs
      | element | keyLabel => cases name
    | _ => cases hr
  · rw [Builtin.methods_replaced hg] at hr
    cases hr

theorem SourceUnit.calling_spares (distinct : u.numbers.Nodup) (declared : u.AssignsDeclared)
    (h : u.check.failure = none) {c : Contract} (hc : c ∈ u.contracts) {v : StateVar} (hv : v ∈ c.stateVars)
    (fixed : v.isFixed = true) (n : Nat) : (u.symbols.calling n).Spares u.symbols v.id := by
  intro e g s callee func does a ha
  by_contra writes
  simp only [Use.writes, Bool.not_eq_false, Bool.and_eq_true, beq_iff_eq] at writes
  exact calling_fixed declared h n e g s callee func does a ha writes.1 (writes.2 ▸ fixes_stateVar distinct hc hv fixed)

/-- Constructors of checked programs do not return. -/
theorem SourceUnit.constructor_returnless (h : u.check.failure = none) {f : FunctionDef} (hf : f ∈ u.allFunctions)
    (constructs : f.isConstructor = true) : Node.Returnless f.body.nodes := by
  intro s hs
  have permitted := check_permitted h f hf s hs
  cases s with
  | ret =>
    rw [show f.isConstructor = false from permitted] at constructs
    cases constructs
  | _ => rfl

end Fixed

/-! ## The result -/

/-- In every execution of a constructor of a program that passes the checks, a final variable without initial value is
assigned exactly once and read for a value only then, unless a loop assigns it. No other fixed variable is assigned,
unless a statement of the constructor does so. Contracts without constructor have no variables to assign. -/
theorem SourceUnit.check_constructed {u : SourceUnit} (distinct : u.numbers.Nodup) (declared : u.AssignsDeclared)
    (h : u.check.failure = none) : ∀ c ∈ u.contracts, (c.constructors = [] → ∀ v ∈ c.stateVars, v.isLate = false) ∧
      ∀ f ∈ c.constructors, f.isConstructor = true → ∀ o t, f.Executes u.symbols o t → c.Constructed f o t := by
  intro c hc
  have passes : c.checkFinality u.text = .ok () := by
    unfold check at h
    split at h
    · cases h
    · rename_i finality
      obtain ⟨_, finality, -⟩ := except_bind_ok finality
      exact except_for_ok finality c hc
  constructor
  · intro none v hv
    rcases Contract.checkFinality_ok passes with ⟨-, all⟩ | ⟨f, _, _, one, -⟩
    · cases late : v.isLate with
      | false => rfl
      | true => cases List.all_eq_true.mp all _ (mem_of_lookup (Contract.lookup_unassigned hv late))
    · rw [none] at one
      cases one
  · rintro f hf constructs o t ⟨n, run⟩
    have own : f ∈ u.allFunctions := List.mem_flatMap.mpr ⟨c, hc, List.mem_append_left _ hf⟩
    have spares (v : StateVar) (hv : v ∈ c.stateVars) (fixed : v.isFixed = true) :=
      calling_spares distinct declared h hc hv fixed n
    have fixed (v : StateVar) (late : v.isLate = true) : v.isFixed = true :=
      (Bool.or_eq_true _ _).mpr (.inl ((Bool.and_eq_true _ _).mp late).1)
    have normal (ends : o = .normal ∨ o = .returned) : o = .normal := by
      rcases ends with ends | rfl
      · exact ends
      · exact ((Stmt.block f.body).course_stays (constructor_returnless h own constructs) t run).elim
    have only (P : Use → Prop) (h : Use.Allowed u.symbols (u.symbols.calling n) P (Stmt.block f.body).nodes) :
        ∀ a ∈ t, P a := h.course o t run
    refine ⟨fun v hv late once ends => ?_, fun v hv late once => ?_, fun v hv fixed absent => ?_, fun v hv fixed => ?_⟩
    · obtain ⟨q, followed, done⟩ :=
        Contract.constructor_follows passes hf hv late once (spares v hv (fixed v late)) run
      have count := Use.count_of_follow followed
      rw [done (normal ends)] at count
      simpa using count
    · obtain ⟨q, followed, -⟩ := Contract.constructor_follows passes hf hv late once (spares v hv (fixed v late)) run
      exact Use.write_before_read followed
    · refine only (fun a => a.writes v.id = false) ⟨fun _ => rfl, fun _ => rfl, fun r hr => ?_, spares v hv fixed⟩
      have other : r.id ≠ v.id := fun same => absent (List.mem_map.mpr ⟨r, hr, same⟩)
      simp [Use.writes, other]
    · refine only (fun a => a.writes v.id = true → a.remote = false)
        ⟨fun _ _ => rfl, fun _ _ => rfl, fun _ _ _ => rfl, fun e g s callee func does a ha writes => ?_⟩
      rw [show a.away.writes v.id = a.writes v.id from rfl, spares v hv fixed e g s callee func does a ha] at writes
      cases writes

/-! ### Two constructors -/

/-- A program of a single contract with a constructor. -/
def SourceUnit.building (state : List StateVar) (params : List Param) (body : List Stmt) : SourceUnit :=
  ⟨"pragma zkay ^0.3.0;", [⟨100, "Vault", state.map .var,
    [⟨101, none, params, ["public"], [], .ofStmts body, .unknown, .initial⟩], [], [], []⟩], []⟩

def Stmt.setAt (id : Nat) (x : String) (e : Expr) : Stmt := .assign default (.nameAt id x) e "" false

/-- The limit is set in both branches, and then used in a loop. -/
def choosing : SourceUnit :=
  .building [⟨102, ["final"], AnnTy.publicUint, "limit", none⟩, ⟨103, [], AnnTy.publicUint, "total", none⟩]
    [.sketch 104 AnnTy.publicBool "high"]
    [.ifThen default (.nameAt 110 "high") (.ofStmts [.setAt 111 "limit" (.literalAt 112 9)])
      (some (.ofStmts [.setAt 113 "limit" (.literalAt 114 5)])),
    .whileLoop default (.nameAt 115 "high") (.ofStmts [.setAt 116 "total" (.nameAt 117 "limit")])]

theorem choosing_constructed : ∃ u n, choosing.link 120 = .ok (u, n) ∧ u.numbers.Nodup ∧ u.AssignsDeclared ∧
    u.check.failure = none ∧ ∀ c ∈ u.contracts, (c.constructors = [] → ∀ v ∈ c.stateVars, v.isLate = false) ∧
      ∀ f ∈ c.constructors, f.isConstructor = true → ∀ o t, f.Executes u.symbols o t → c.Constructed f o t := by
  obtain ⟨⟨u, n⟩, link, tested⟩ := exists_ok_of_any (x := choosing.link 120)
    (p := fun r => decide (r.1.numbers.Nodup ∧ r.1.AssignsDeclared ∧ r.1.check.failure.isNone = true))
    (by decide +kernel)
  obtain ⟨distinct, declared, passes⟩ := of_decide_eq_true tested
  have accepted : u.check.failure = none := Option.isNone_iff_eq_none.mp passes
  exact ⟨u, n, link, distinct, declared, accepted, SourceUnit.check_constructed distinct declared accepted⟩

/-- The limit is only set in a loop. -/
def looping : SourceUnit :=
  .building [⟨102, ["final"], AnnTy.publicUint, "limit", none⟩] [.sketch 104 AnnTy.publicBool "high"]
    [.whileLoop default (.nameAt 115 "high") (.ofStmts [.setAt 116 "limit" (.literalAt 117 1)])]

/-- Evaluation may do nothing. -/
theorem Node.evaluated_nothing (symbols : Symbols) (calls : Calling) (ns : List Node) :
    Node.Evaluated symbols calls ns [] := by
  refine ⟨ns, ns.map fun _ => [], .refl ns, ?_, by simp⟩
  exact List.forall₂_map_right_iff.mpr (List.forall₂_same.mpr fun n _ => .skipped n)

/-- A body that consists of a loop may be left without a use of anything. -/
theorem Block.skips_loop {symbols : Symbols} {calls : Calling} {b : Block}
    (h : (b.stmts matches [.whileLoop ..]) = true) : b.course symbols calls .normal [] := by
  obtain ⟨i, ss, x⟩ := b
  dsimp only at h
  split at h
  · rename_i j c body
    have condition : Node.evaluation symbols calls c.nodes .normal [] :=
      ⟨.inl rfl, Node.evaluated_nothing symbols calls c.nodes⟩
    exact .both (t := []) (.inl ⟨.done condition, nofun⟩) ⟨rfl, rfl⟩
  · cases h

/-- The program passes, but an execution of its constructor leaves the limit unset. -/
theorem looping_not_constructed : ∃ u n, looping.link 120 = .ok (u, n) ∧ u.check.failure = none ∧
    ∃ c ∈ u.contracts, ∃ f ∈ c.constructors, ∃ v ∈ c.stateVars, v.isLate = true ∧
      ∃ t, f.Executes u.symbols .normal t ∧ t.countP (·.writes v.id) ≠ 1 := by
  obtain ⟨⟨u, n⟩, link, tested⟩ := exists_ok_of_any (x := looping.link 120)
    (p := fun r => decide (r.1.check.failure.isNone = true ∧ ∃ c ∈ r.1.contracts, ∃ f ∈ c.constructors,
      ∃ v ∈ c.stateVars, v.isLate = true ∧ (f.body.stmts matches [.whileLoop ..]) = true))
    (by decide +kernel)
  obtain ⟨passes, c, hc, f, hf, v, hv, late, body⟩ := of_decide_eq_true tested
  exact ⟨u, n, link, Option.isNone_iff_eq_none.mp passes, c, hc, f, hf, v, hv, late, [], ⟨0, Block.skips_loop body⟩,
    nofun⟩

end Shroud
