import Shroud.Proofs.CallGraph
import Shroud.Proofs.Sketch
import Shroud.Proofs.Tracking

/-!
# Recursion and static bodies

Three passes find out who calls whom: the first one records direct calls and loops, the second one follows the calls,
the third one lowers the mark of a static body where a called function is not static.

**Flags that change on the way.** The third pass reads marks that it has lowered before. This does no harm: a lowered
mark stands for a function that is reached, and so is everything that made it fall. All marks lie between what holds of
the function itself and what holds of everything that it reaches (`SourceUnit.Flagged`), whatever the order.

**Calls that lead nowhere.** Operators and casts are no calls. Every other call has to name a function; a call of a
variable, say, or of an expression that names nothing stops the analysis.

**Results.**

* `Symbols.directCalls_succeeds`: the first pass succeeds exactly if all calls name functions.
* `SourceUnit.markCalls_placed`: every function is marked with what it invokes, as recursive if it invokes itself, and as
  static if neither it nor anything it invokes has a loop or is recursive.
* `SourceUnit.markCalls_graph`: this, and that nothing depends on the order in which the functions are defined.
-/

namespace Shroud

/-! ## Direct calls -/

/-- What is called at the node. Operators and casts are no calls. -/
def Node.callee? : Node → Option Expr
  | .expr (.call i f as o k) =>
    if f matches .operator .. then none
    else if (Expr.call i f as o k).isCastCall then none
    else some f
  | _ => none

/-- What the body calls, outside the parameters of function types. -/
def FunctionDef.callees (f : FunctionDef) : List Expr := (Node.outsideParams 0 f.body.nodes).filterMap Node.callee?

namespace Symbols

theorem directCalls_cons (s : Symbols) (n : Node) (ns : List Node) :
    s.directCalls (n :: ns) = n.callee?.elim (s.directCalls ns) fun e =>
      (s.callee? e).elim (.error .assertion) fun g =>
        if g.isConstructor then .error .assertion else (s.directCalls ns).map (g.id :: ·) := by
  rw [directCalls.eq_def]
  dsimp only
  generalize s.directCalls ns = rest
  cases n with
  | expr e =>
    cases e with
    | call i f as o k =>
      unfold Node.callee?
      dsimp only
      generalize (Expr.call i f as o k).isCastCall = cast
      cases cast with
      | true => cases f <;> cases rest <;> rfl
      | false =>
        cases f with
        | operator => cases rest <;> rfl
        | _ =>
          simp only [Bool.false_eq_true, if_false, Option.elim_some]
          generalize s.callee? _ = callee
          cases callee with
          | none => rfl
          | some g =>
            simp only [Option.elim_some]
            cases g.isConstructor <;> cases rest <;> rfl
    | _ => cases rest <;> rfl
  | _ => cases rest <;> rfl

/-- Direct calls are found exactly if all of them name functions. -/
theorem directCalls_succeeds (s : Symbols) (ns : List Node) :
    Succeeds (s.directCalls ns)
      (∀ e ∈ ns.filterMap Node.callee?, ∃ g, s.callee? e = some g ∧ g.isConstructor = false)
      fun ids => ∀ j, j ∈ ids ↔ ∃ e ∈ ns.filterMap Node.callee?, ∃ g, s.callee? e = some g ∧ g.id = j := by
  induction ns with
  | nil => exact ⟨by simp, by simp⟩
  | cons n ns ih =>
    rw [directCalls_cons]
    cases hn : n.callee? with
    | none =>
      rw [List.filterMap_cons_none hn]
      exact ih
    | some e =>
      rw [List.filterMap_cons_some hn, Option.elim_some]
      cases he : s.callee? e with
      | none =>
        intro all
        obtain ⟨g, hg, -⟩ := all e List.mem_cons_self
        rw [he] at hg
        cases hg
      | some g =>
        rw [Option.elim_some]
        cases hc : g.isConstructor with
        | true =>
          intro all
          obtain ⟨g', hg, named⟩ := all e List.mem_cons_self
          rw [he] at hg
          cases hg
          rw [hc] at named
          cases named
        | false =>
          rw [if_neg Bool.false_ne_true]
          cases hr : s.directCalls ns with
          | error x =>
            rw [hr] at ih
            exact fun all => ih fun e he => all e (List.mem_cons_of_mem _ he)
          | ok ids =>
            rw [hr] at ih
            refine ⟨List.forall_mem_cons.mpr ⟨⟨g, he, hc⟩, ih.1⟩, fun j => ?_⟩
            rw [List.mem_cons, ih.2 j]
            constructor
            · rintro (rfl | ⟨e', he', found⟩)
              · exact ⟨e, List.mem_cons_self, g, he, rfl⟩
              · exact ⟨e', List.mem_cons_of_mem _ he', found⟩
            · rintro ⟨e', he', k, hk, rfl⟩
              rcases List.mem_cons.mp he' with rfl | he'
              · rw [he] at hk
                cases hk
                exact .inl rfl
              · exact .inr ⟨e', he', k, hk, rfl⟩

end Symbols

theorem Builtin.methods_static {f : FunctionDef} (h : f ∈ Builtin.methods) : f.facts.staticBody = true := by
  simp only [Builtin.methods, List.mem_cons, List.not_mem_nil, or_false] at h
  rcases h with rfl | rfl <;> rfl

namespace SourceUnit

/-- The function with the first number has a call of the one with the second in its body. -/
def DirectlyInvokes (u : SourceUnit) (i j : Nat) : Prop :=
  ∃ f ∈ u.allFunctions, f.id = i ∧ ∃ e ∈ f.callees, ∃ g, u.symbols.callee? e = some g ∧ g.id = j

/-- One call or more lead from the function with the first number to the one with the second. -/
def Invokes (u : SourceUnit) : Nat → Nat → Prop := Relation.TransGen u.DirectlyInvokes

/-- All calls name functions. -/
def NamesFunctions (u : SourceUnit) : Prop :=
  ∀ f ∈ u.allFunctions, ∀ e ∈ f.callees, ∃ g, u.symbols.callee? e = some g ∧ g.isConstructor = false

/-- Nothing is known about the functions. -/
def Unvisited (u : SourceUnit) : Prop :=
  ∀ f ∈ u.allFunctions, f.facts.calls = [] ∧ f.facts.recursive = false ∧ f.facts.staticBody = true

instance (u : SourceUnit) : Decidable u.Unvisited :=
  inferInstanceAs (Decidable (∀ f ∈ u.allFunctions, _ ∧ _ ∧ _))

variable {u v w : SourceUnit}

theorem Unvisited.uncalled (h : u.Unvisited) : u.Uncalled := fun f hf => (h f hf).1

/-- The function is marked with its loops, and otherwise what it was. -/
structure Scanned (f g : FunctionDef) : Prop where
  id : g.id = f.id
  recursive : g.facts.recursive = f.facts.recursive
  staticBody : g.facts.staticBody = (f.facts.staticBody && !Node.haveLoop f.body.nodes)

/-- What the first pass makes of a function. -/
def scan (u : SourceUnit) (f : FunctionDef) : Except Error FunctionDef := do
  let calls ← u.symbols.directCalls (Node.outsideParams 0 f.body.nodes)
  return { f with facts := { f.facts with
    calls := calls.foldl addOnce f.facts.calls
    staticBody := f.facts.staticBody && !Node.haveLoop f.body.nodes } }

theorem scan_succeeds (u : SourceUnit) (f : FunctionDef) : Succeeds (u.scan f)
    (∀ e ∈ f.callees, ∃ g, u.symbols.callee? e = some g ∧ g.isConstructor = false) (Scanned f) :=
  (u.symbols.directCalls_succeeds _).andThen fun _ _ => .pure ⟨rfl, rfl, rfl⟩

theorem markDirectCalls_succeeds (u : SourceUnit) :
    Succeeds u.markDirectCalls u.NamesFunctions (u.Pointwise Scanned) := by
  have contract (c : Contract) : Succeeds (do
        let constructors ← c.constructors.mapM u.scan
        let functions ← c.functions.mapM u.scan
        return { c with constructors, functions })
      (∀ f ∈ c.allFunctions, ∀ e ∈ f.callees, ∃ g, u.symbols.callee? e = some g ∧ g.isConstructor = false)
      (c.Pointwise Scanned) := by
    refine ((Succeeds.mapM fun f _ => u.scan_succeeds f).bind fun fs hfs => ?_).iff List.forall_mem_append.symm
    exact (Succeeds.mapM fun f _ => u.scan_succeeds f).andThen fun gs hgs => .pure ⟨rfl, rfl, hfs, hgs⟩
  have program : Succeeds u.markDirectCalls _ (u.Pointwise Scanned) :=
    (Succeeds.mapM fun c _ => contract c).andThen fun cs hcs => .pure hcs
  refine program.iff ?_
  unfold NamesFunctions allFunctions
  simp only [List.mem_flatMap]
  exact ⟨fun h f ⟨c, hc, hf⟩ => h c hc f hf, fun h c hc f hf => h f ⟨c, hc, hf⟩⟩

/-- Direct calls that are found are those that name functions. -/
theorem calls_iff (h : u.markDirectCalls = .ok w) {i j : Nat} : u.Calls i j ↔ u.DirectlyInvokes i j := by
  have named := (u.markDirectCalls_succeeds.exists_iff).mp ⟨w, h⟩
  unfold Calls DirectlyInvokes FunctionDef.Calls
  refine exists_congr fun f => and_congr_right fun hf => and_congr_right fun _ => ?_
  have found := u.symbols.directCalls_succeeds (Node.outsideParams 0 f.body.nodes)
  constructor
  · rintro ⟨ids, hids, hj⟩
    exact (found.result hids j).mp hj
  · intro hj
    obtain ⟨ids, hids⟩ := found.exists_iff.mpr (named f hf)
    exact ⟨ids, hids, (found.result hids j).mpr hj⟩

theorem reaches_iff (h : u.markDirectCalls = .ok w) {i j : Nat} : u.Reaches i j ↔ u.Invokes i j := by
  have same : u.Calls = u.DirectlyInvokes := by
    funext i j
    exact propext (calls_iff h)
  unfold Reaches Invokes
  rw [same]

/-! ## Static bodies -/

/-- The function with the number has no loop and does not call itself, directly or through others. -/
def Steady (u : SourceUnit) (i : Nat) : Prop :=
  ∀ f ∈ u.allFunctions, f.id = i → Node.haveLoop f.body.nodes = false ∧ ¬ u.Reaches i i

/-- Something holds of the function with the number and of all that it reaches. -/
def Throughout (u : SourceUnit) (P : Nat → Prop) (i : Nat) : Prop := P i ∧ ∀ j, u.Reaches i j → P j

/-- All marks lie between what holds of the function and what holds of all that it reaches. -/
structure Flagged (u : SourceUnit) (P : Nat → Prop) (mark : FunctionDef → Bool) (s : Symbols) : Prop where
  found : ∀ i ∈ u.functionNumbers, ∃ g, s.function? i = some g
  own : ∀ i g, s.function? i = some g → mark g = true → P i
  all : ∀ i g, s.function? i = some g → u.Throughout P i → mark g = true

/-- The mark of a function and of all that it is marked to call. -/
def settledMark (mark : FunctionDef → Bool) (s : Symbols) (g : FunctionDef) : Bool :=
  mark g && g.facts.calls.all fun j => ((s.function? j).map mark).getD true

/-- The facts of a function when the marks of those that it calls are looked up. -/
def settledFacts (s : Symbols) (g : FunctionDef) : FunctionFacts :=
  { g.facts with staticBody := settledMark (·.facts.staticBody) s g }

namespace Flagged

variable {P : Nat → Prop} {mark : FunctionDef → Bool} {s : Symbols} {g : FunctionDef}

/-- From such marks, those of what a function reaches tell what holds throughout. -/
theorem settled (h : u.Flagged P mark s) (own : mark g = true ↔ P g.id)
    (calls : ∀ j, j ∈ g.facts.calls ↔ u.Reaches g.id j) : settledMark mark s g = true ↔ u.Throughout P g.id := by
  unfold settledMark
  rw [Bool.and_eq_true, own, List.all_eq_true]
  refine and_congr_right fun _ => ⟨fun all j hj => ?_, fun all j hj => ?_⟩
  · obtain ⟨k, hk⟩ := h.found j hj.mem
    have flag := all j ((calls j).mpr hj)
    rw [hk] at flag
    exact h.own j k hk flag
  · have reached := (calls j).mp hj
    obtain ⟨k, hk⟩ := h.found j reached.mem
    rw [hk]
    exact h.all j k hk ⟨all j reached, fun l hl => all l (reached.trans hl)⟩

theorem setFunction (h : u.Flagged P mark s) (flag : mark g = true ↔ u.Throughout P g.id) :
    u.Flagged P mark (s.setFunction g) := by
  have either {i : Nat} {k : FunctionDef} (hk : (s.setFunction g).function? i = some k) :
      s.function? i = some k ∨ (i = g.id ∧ k = g) := by
    rw [Symbols.function?_setFunction] at hk
    split at hk
    · rename_i hi
      cases hs : s.function? i with
      | none =>
        rw [hs] at hk
        cases hk
      | some k' =>
        rw [hs] at hk
        exact .inr ⟨hi, (Option.some.inj hk).symm⟩
    · exact .inl hk
  refine ⟨fun i hi => ?_, fun i k hk hf => ?_, fun i k hk hs => ?_⟩
  · obtain ⟨k, hk⟩ := h.found i hi
    rw [Symbols.function?_setFunction, hk]
    split
    · exact ⟨g, rfl⟩
    · exact ⟨k, rfl⟩
  · rcases either hk with hk | ⟨rfl, rfl⟩
    · exact h.own i k hk hf
    · exact (flag.mp hf).1
  · rcases either hk with hk | ⟨rfl, rfl⟩
    · exact h.all i k hk hs
    · exact flag.mpr hs

end Flagged

/-- What is known of a function once its calls are followed. -/
structure Closed (u : SourceUnit) (f k : FunctionDef) : Prop where
  id : k.id = f.id
  calls : ∀ j, j ∈ k.facts.calls ↔ u.Reaches f.id j
  recursive : k.facts.recursive = true ↔ u.Reaches f.id f.id
  steady : k.facts.staticBody = true ↔ Node.haveLoop f.body.nodes = false ∧ ¬ u.Reaches f.id f.id

theorem closed (distinct : u.numbers.Nodup) (fresh : u.Unvisited) (h : u.markDirectCalls = .ok w) {n : Nat}
    (hn : 2 * (w.allFunctions.length + Builtin.methods.length) < n) :
    List.Forall₂ u.Closed u.allFunctions (w.mapFacts (closedFacts n)).allFunctions := by
  have passes : u.Pointwise (fun f k => ∃ g, Scanned f g ∧ u.Followed g k) (w.mapFacts (closedFacts n)) :=
    (u.markDirectCalls_succeeds.result h).trans (fun f g k hg hk => ⟨g, hg, hk⟩)
      (mapFacts_closed distinct fresh.uncalled h hn)
  refine ((List.forall₂_and_left _ _).mpr ⟨fresh, allFunctions_pointwise passes⟩).imp ?_
  rintro f k ⟨⟨-, unmarked, static⟩, g, scanned, followed⟩
  have own : g.id ∈ k.facts.calls ↔ u.Reaches f.id f.id := scanned.id ▸ followed.calls g.id
  refine ⟨?_, fun j => scanned.id ▸ followed.calls j, ?_, ?_⟩
  · rw [followed.same]
    exact scanned.id
  · rw [followed.recursive, scanned.recursive, unmarked, Bool.false_or, List.contains_iff_mem]
    exact own
  · rw [followed.staticBody, scanned.staticBody, static, Bool.true_and, Bool.and_eq_true, Bool.not_eq_true',
      Bool.not_eq_true', ← own, List.contains_eq_mem, decide_eq_false_iff_not]

theorem Closed.steady_iff (distinct : u.numbers.Nodup) {f k : FunctionDef} (hf : f ∈ u.allFunctions)
    (h : u.Closed f k) : k.facts.staticBody = true ↔ u.Steady k.id := by
  rw [h.steady, h.id]
  refine ⟨fun own f' hf' same => ?_, fun all => all f hf rfl⟩
  rwa [eq_of_id distinct hf' hf same]

theorem function?_builtin (distinct : u.numbers.Nodup) {f : FunctionDef} (hf : f ∈ Builtin.methods) :
    u.symbols.function? f.id = some f := by
  have functions : (Builtin.decls.filterMap fun e => e.2.function?.map fun g => (e.1, g)) =
      Builtin.methods.map fun g => (g.id, g) := rfl
  have listed : (f.id, f) ∈ Builtin.methods.map fun g => (g.id, g) := List.mem_map.mpr ⟨f, hf, rfl⟩
  rw [← functions] at listed
  obtain ⟨⟨i, d⟩, hd, h⟩ := List.mem_filterMap.mp listed
  obtain ⟨g, hg, h⟩ := Option.map_eq_some_iff.mp h
  cases h
  cases d with
  | function g' c =>
    cases hg
    exact Symbols.function?_eq_some.mpr ⟨c, lookup_of_mem distinct (List.mem_append_right _ hd)⟩
  | _ => cases hg

/-- The functions of a program that has those of another one in the same places are found by the same numbers. -/
theorem found_of_ids {x : SourceUnit} (distinct : u.numbers.Nodup) (numbers : x.numbers = u.numbers)
    (h : List.Forall₂ (fun f g => g.id = f.id) u.allFunctions x.allFunctions) :
    ∀ i ∈ u.functionNumbers, ∃ g, x.symbols.function? i = some g := by
  have distinct' : x.numbers.Nodup := numbers ▸ distinct
  intro i hi
  rw [functionNumbers, List.mem_toFinset, List.map_append, List.mem_append, List.mem_map, List.mem_map] at hi
  rcases hi with ⟨f, hf, rfl⟩ | ⟨f, hf, rfl⟩
  · obtain ⟨k, hk, same⟩ := exists_mem_of_forall₂_left h hf
    exact ⟨k, same ▸ function?_own distinct' hk⟩
  · exact ⟨f, function?_builtin distinct' hf⟩

/-- Marks that tell about each function itself. -/
theorem Flagged.of_iff {P : Nat → Prop} {mark : FunctionDef → Bool} {s : Symbols}
    (found : ∀ i ∈ u.functionNumbers, ∃ g, s.function? i = some g)
    (flag : ∀ i g, s.function? i = some g → (mark g = true ↔ P i)) : u.Flagged P mark s :=
  ⟨found, fun i g hg => (flag i g hg).mp, fun i g hg all => (flag i g hg).mpr all.1⟩

/-- Once all calls are followed, the marks tell about each function itself. -/
theorem flagged {x : SourceUnit} (distinct : u.numbers.Nodup) (numbers : x.numbers = u.numbers)
    (h : List.Forall₂ u.Closed u.allFunctions x.allFunctions) :
    u.Flagged u.Steady (·.facts.staticBody) x.symbols := by
  have distinct' : x.numbers.Nodup := numbers ▸ distinct
  refine .of_iff (found_of_ids distinct numbers (h.imp fun _ _ closed => closed.id)) fun i g hg => ?_
  obtain ⟨own | builtin, rfl⟩ := function?_found hg
  · obtain ⟨f, hf, closed⟩ := exists_mem_of_forall₂_right h own
    exact closed.steady_iff distinct hf
  · refine iff_of_true (Builtin.methods_static builtin) fun f hf same => ?_
    -- No function of the program has the number of a built-in one.
    obtain ⟨k, hk, closed⟩ := exists_mem_of_forall₂_left h hf
    have found := function?_own distinct' hk
    rw [closed.id, same, hg] at found
    cases found
    have steady := (closed.steady_iff distinct hf).mp (Builtin.methods_static builtin)
    exact steady f hf same

/-- A function and its marks, once the analysis is through. -/
structure Placed (u : SourceUnit) (f k : FunctionDef) : Prop where
  id : k.id = f.id
  calls : ∀ j, j ∈ k.facts.calls ↔ u.Invokes f.id j
  recursive : k.facts.recursive = true ↔ u.Invokes f.id f.id
  staticBody : k.facts.staticBody = true ↔ ∀ g ∈ u.allFunctions, g.id = f.id ∨ u.Invokes f.id g.id →
    Node.haveLoop g.body.nodes = false ∧ ¬ u.Invokes g.id g.id

/-- Following all calls takes no more steps than this. -/
def followingSteps (u : SourceUnit) : Nat := 2 * (u.allFunctions.length + Builtin.methods.length) + 1

/-- The three passes. -/
theorem markCalls_eq (u : SourceUnit) : u.markCalls =
    u.markDirectCalls.map fun w => (w.mapFacts (closedFacts w.followingSteps)).mapFacts settledFacts := by
  unfold markCalls
  cases u.markDirectCalls <;> rfl

theorem markCalls_placed (distinct : u.numbers.Nodup) (fresh : u.Unvisited) (h : u.markCalls = .ok v) :
    List.Forall₂ u.Placed u.allFunctions v.allFunctions := by
  rw [markCalls_eq] at h
  obtain ⟨w, hw, rfl⟩ := except_map_ok h
  have reaches (i j : Nat) : u.Reaches i j ↔ u.Invokes i j := reaches_iff hw
  have first := closed distinct fresh hw (n := w.followingSteps) (Nat.lt_succ_self _)
  have numbers : (w.mapFacts (closedFacts w.followingSteps)).numbers = u.numbers := by
    rw [(mapFacts_numbers _).numbers, markDirectCalls_numbers hw]
  generalize w.mapFacts (closedFacts w.followingSteps) = x at first numbers ⊢
  have second : x.Pointwise (fun k l => l = { k with facts := l.facts } ∧
      (l.facts.staticBody = true ↔ u.Throughout u.Steady k.id) ∧ ∃ s, l.facts = settledFacts s k) (x.mapFacts settledFacts) := by
    refine mapFacts_keeping (I := u.Flagged u.Steady (·.facts.staticBody))
      (R := fun k facts => (facts.staticBody = true ↔ u.Throughout u.Steady k.id) ∧ ∃ s, facts = settledFacts s k)
      (fun k hk s hs => ?_) (flagged distinct numbers first)
    obtain ⟨f, hf, closed⟩ := exists_mem_of_forall₂_right first hk
    have settled : (settledFacts s k).staticBody = true ↔ u.Throughout u.Steady k.id :=
      hs.settled (closed.steady_iff distinct hf) fun j => closed.id ▸ closed.calls j
    exact ⟨⟨settled, s, rfl⟩, hs.setFunction settled⟩
  refine forall₂_comp (fun f k l closed settled => ?_) first (allFunctions_pointwise second)
  obtain ⟨same, static, s, facts⟩ := settled
  refine ⟨?_, fun j => ?_, ?_, ?_⟩
  · rw [same]
    exact closed.id
  · rw [facts, ← reaches]
    exact closed.calls j
  · rw [facts, ← reaches]
    exact closed.recursive
  · rw [static, closed.id]
    unfold Throughout Steady
    simp only [reaches]
    constructor
    · rintro ⟨own, others⟩ g hg (same | reached)
      · exact same ▸ own g hg same
      · exact others g.id reached g hg rfl
    · intro all
      exact ⟨fun g hg same => same ▸ all g hg (.inl same), fun j hj g hg same => same ▸ all g hg (.inr (same ▸ hj))⟩

/-! ## Functions in another order -/

/-- The second contract has the constructors and functions of the first in any order. -/
def RearrangedIn (c d : Contract) : Prop :=
  ∃ constructors functions, d = { c with constructors, functions } ∧
    constructors.Perm c.constructors ∧ functions.Perm c.functions

/-- The second program has the contracts of the first one in any order, and their functions in any order. -/
def Rearranged (u u' : SourceUnit) : Prop :=
  ∃ cs : List Contract, cs.Perm u.contracts ∧ List.Forall₂ RearrangedIn cs u'.contracts

theorem flatMap_perm {α β : Type} {g : α → List β} {xs ys : List α}
    (h : List.Forall₂ (fun x y => (g y).Perm (g x)) xs ys) : (ys.flatMap g).Perm (xs.flatMap g) := by
  induction h with
  | nil => exact .refl _
  | cons first _ ih =>
    rw [List.flatMap_cons, List.flatMap_cons]
    exact first.append ih

namespace RearrangedIn

variable {c d : Contract}

theorem allFunctions (h : RearrangedIn c d) : d.allFunctions.Perm c.allFunctions := by
  obtain ⟨fs, gs, rfl, hfs, hgs⟩ := h
  exact hfs.append hgs

theorem numbers (h : RearrangedIn c d) : (d.decls.map Prod.fst).Perm (c.decls.map Prod.fst) := by
  have functions := h.allFunctions
  obtain ⟨fs, gs, rfl, -, -⟩ := h
  unfold Contract.decls
  simp only [List.map_append, List.map_cons]
  exact List.Perm.append (.refl _) ((functions.flatMap_right _).map _)

end RearrangedIn

namespace Rearranged

variable {u' : SourceUnit}

theorem allFunctions (h : u.Rearranged u') : u'.allFunctions.Perm u.allFunctions := by
  obtain ⟨cs, order, same⟩ := h
  exact (flatMap_perm (same.imp fun _ _ hd => hd.allFunctions)).trans (order.flatMap_right _)

/-- The same numbers are in use. -/
theorem numbers (h : u.Rearranged u') : u'.numbers.Perm u.numbers := by
  obtain ⟨cs, order, same⟩ := h
  unfold SourceUnit.numbers symbols
  rw [List.map_append, List.map_append, List.map_flatMap, List.map_flatMap]
  refine List.Perm.append ?_ (.refl _)
  exact (flatMap_perm (same.imp fun _ _ hd => hd.numbers)).trans (order.flatMap_right _)

end Rearranged

theorem function?_iff (distinct : u.numbers.Nodup) {i : Nat} {f : FunctionDef} :
    u.symbols.function? i = some f ↔ (f ∈ u.allFunctions ∨ f ∈ Builtin.methods) ∧ f.id = i := by
  refine ⟨function?_found, ?_⟩
  rintro ⟨own | builtin, rfl⟩
  · exact function?_own distinct own
  · exact function?_builtin distinct builtin

section Order

variable {u' : SourceUnit}

theorem Rearranged.callee? (h : u.Rearranged u') (distinct : u.numbers.Nodup) (e : Expr) :
    u'.symbols.callee? e = u.symbols.callee? e := by
  have distinct' : u'.numbers.Nodup := h.numbers.nodup_iff.mpr distinct
  have found (i : Nat) : u'.symbols.function? i = u.symbols.function? i := by
    ext f
    rw [function?_iff distinct', function?_iff distinct, h.allFunctions.mem_iff]
  unfold Symbols.callee?
  cases e.target? with
  | none => rfl
  | some r =>
    cases r with
    | decl k i => exact found i
    | element | keyLabel => rfl

theorem Rearranged.invokes (h : u.Rearranged u') (distinct : u.numbers.Nodup) : u'.Invokes = u.Invokes := by
  have direct : u'.DirectlyInvokes = u.DirectlyInvokes := by
    funext i j
    unfold DirectlyInvokes
    simp only [h.callee? distinct, h.allFunctions.mem_iff]
  unfold Invokes
  rw [direct]

theorem Rearranged.namesFunctions (h : u.Rearranged u') (distinct : u.numbers.Nodup) :
    u'.NamesFunctions ↔ u.NamesFunctions := by
  unfold NamesFunctions
  simp only [h.callee? distinct, h.allFunctions.mem_iff]

/-- The marks of a function in a rearranged program. -/
theorem Rearranged.placed (h : u.Rearranged u') (distinct : u.numbers.Nodup) {f k : FunctionDef} :
    u'.Placed f k ↔ u.Placed f k := by
  have both : ∀ {p q : SourceUnit}, p.Invokes = q.Invokes → (∀ g, g ∈ p.allFunctions ↔ g ∈ q.allFunctions) →
      p.Placed f k → q.Placed f k := by
    rintro p q same listed ⟨id, calls, recursive, static⟩
    rw [same] at calls recursive
    simp only [same, listed] at static
    exact ⟨id, calls, recursive, static⟩
  have same := h.invokes distinct
  have listed (g : FunctionDef) := h.allFunctions.mem_iff (a := g)
  exact ⟨both same listed, both same.symm fun g => (listed g).symm⟩

/-- The functions have the same number and the same place in the call graph. -/
structure SamePlace (f g : FunctionDef) : Prop where
  id : g.id = f.id
  calls : ∀ j, j ∈ g.facts.calls ↔ j ∈ f.facts.calls
  recursive : g.facts.recursive = f.facts.recursive
  staticBody : g.facts.staticBody = f.facts.staticBody

theorem Placed.samePlace {f k l : FunctionDef} (hk : u.Placed f k) (hl : u.Placed f l) : SamePlace k l where
  id := hl.id.trans hk.id.symm
  calls j := (hl.calls j).trans (hk.calls j).symm
  recursive := Bool.eq_iff_iff.mpr (hl.recursive.trans hk.recursive.symm)
  staticBody := Bool.eq_iff_iff.mpr (hl.staticBody.trans hk.staticBody.symm)

end Order

theorem markCalls_total (u : SourceUnit) : (∃ v, u.markCalls = .ok v) ↔ u.NamesFunctions := by
  rw [← u.markDirectCalls_succeeds.exists_iff, markCalls_eq]
  cases u.markDirectCalls with
  | error e => exact ⟨nofun, nofun⟩
  | ok w => exact ⟨fun _ => ⟨w, rfl⟩, fun _ => ⟨_, rfl⟩⟩

/-- The analysis succeeds exactly if all calls name functions. It marks every function with what it invokes, as recursive
if it invokes itself, and as static if neither it nor anything that it invokes has a loop or is recursive. In whatever
order the functions are defined, the marks are the same. -/
theorem markCalls_graph (distinct : u.numbers.Nodup) (fresh : u.Unvisited) :
    ((∃ v, u.markCalls = .ok v) ↔ u.NamesFunctions) ∧
    (∀ v, u.markCalls = .ok v → List.Forall₂ u.Placed u.allFunctions v.allFunctions) ∧
    ∀ u', u.Rearranged u' → ((∃ v', u'.markCalls = .ok v') ↔ u.NamesFunctions) ∧
      ∀ v v', u.markCalls = .ok v → u'.markCalls = .ok v' →
        ∀ f ∈ v.allFunctions, ∃ g ∈ v'.allFunctions, SamePlace f g := by
  refine ⟨u.markCalls_total, fun v h => markCalls_placed distinct fresh h, fun u' order => ⟨?_, ?_⟩⟩
  · exact u'.markCalls_total.trans (order.namesFunctions distinct)
  · intro v v' h h' k hk
    have fresh' : u'.Unvisited := fun f hf => fresh f (order.allFunctions.mem_iff.mp hf)
    obtain ⟨f, hf, placed⟩ := exists_mem_of_forall₂_right (markCalls_placed distinct fresh h) hk
    obtain ⟨l, hl, placed'⟩ := exists_mem_of_forall₂_left
      (markCalls_placed (order.numbers.nodup_iff.mpr distinct) fresh' h') (order.allFunctions.mem_iff.mpr hf)
    exact ⟨l, hl, placed.samePlace ((order.placed distinct).mp placed')⟩

end SourceUnit

/-! ## A ring of calls -/

/-- A statement that calls a function. -/
def Stmt.callAt (id : Nat) (x : String) : Stmt := .eval default (.callAt id (.nameAt (id + 1) x) [])

/-- Two functions that call each other, a function with a loop, one that calls the loop, and one that does neither. -/
def ringing : SourceUnit :=
  .sketch 100 "Ring" []
    [.sketch 101 "strike" "public" [] [.callAt 110 "answer"],
     .sketch 102 "answer" "internal" [] [.callAt 112 "strike", .callAt 114 "rest"],
     .sketch 103 "climb" "public" [] [.callAt 116 "count"],
     .sketch 104 "count" "internal" []
       [.whileLoop default (.boolLit (.numbered 118) false) (.ofStmts [.callAt 119 "rest"])],
     .sketch 105 "rest" "internal" [] []]

theorem ringing_graph : ∃ u n v, ringing.link 130 = .ok (u, n) ∧ u.numbers.Nodup ∧ u.Unvisited ∧
    u.markCalls = .ok v ∧
    (v.allFunctions.map fun f => (f.id, f.facts.calls, f.facts.recursive, f.facts.staticBody)) =
      [(101, [102, 101, 105], true, false), (102, [101, 105, 102], true, false), (103, [104, 105], false, false),
        (104, [105], false, false), (105, [], false, true)] ∧
    ((∃ v, u.markCalls = .ok v) ↔ u.NamesFunctions) ∧
    (∀ v, u.markCalls = .ok v → List.Forall₂ u.Placed u.allFunctions v.allFunctions) ∧
    ∀ u', u.Rearranged u' → ((∃ v', u'.markCalls = .ok v') ↔ u.NamesFunctions) ∧
      ∀ v v', u.markCalls = .ok v → u'.markCalls = .ok v' →
        ∀ f ∈ v.allFunctions, ∃ g ∈ v'.allFunctions, SourceUnit.SamePlace f g := by
  obtain ⟨⟨u, n⟩, link, tested⟩ := exists_ok_of_any (x := ringing.link 130)
    (p := fun r : SourceUnit × Nat => decide (r.1.numbers.Nodup ∧ r.1.Unvisited) &&
      r.1.markCalls.toOption.any fun v : SourceUnit => decide
        ((v.allFunctions.map fun f => (f.id, f.facts.calls, f.facts.recursive, f.facts.staticBody)) =
          [(101, [102, 101, 105], true, false), (102, [101, 105, 102], true, false), (103, [104, 105], false, false),
            (104, [105], false, false), (105, [], false, true)])) (by decide +kernel)
  obtain ⟨known, tested⟩ := Bool.and_eq_true_iff.mp tested
  obtain ⟨distinct, fresh⟩ := of_decide_eq_true known
  obtain ⟨v, marked, flags⟩ := exists_ok_of_any tested
  exact ⟨u, n, v, link, distinct, fresh, marked, of_decide_eq_true flags, SourceUnit.markCalls_graph distinct fresh⟩

end Shroud
