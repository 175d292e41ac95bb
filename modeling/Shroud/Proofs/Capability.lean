import Mathlib.Logic.Function.Iterate
import Shroud.Proofs.Passes
import Shroud.Proofs.Recursion
import Shroud.Privacy.Capability

/-!
# Functions that a circuit can evaluate

A function can be evaluated in a circuit if its own code can, and the code of everything that it reaches by calls.
The pass tests each function on its own, then lowers the mark of a function that calls one with a lowered mark.

**Rounds.** The marks can be lowered in rounds, function by function, each one reading the marks that the round has
lowered before, until a round lowers none (`SourceUnit.SettlesIn`). A round that changes something lowers a mark, so
there are at most as many rounds as functions, whoever calls whom. After the call analysis one round is enough, since
all calls are followed; it need not even read the marks that it lowers itself.

**Results.**

* `Block.fitsCircuit_eq`: the test of a body asks each statement and each expression outside annotations.
* `SourceUnit.settles`: in every program the rounds end.
* `SourceUnit.TypeChecked.capability`: in a checked program the marks tell exactly which functions can be evaluated in a
  circuit, rounds lead to the same marks, and the pass changes nothing when it is repeated.
-/

namespace Shroud

/-! ## The test of a body -/

mutual

/-- The expressions that are tested. Neither the callee of a call nor the new owner of a value is one of them. -/
def Expr.inspected : Expr → List Expr
  | .call i f as o k => .call i f as o k :: Expr.inspectedAll as
  | .new i as => .new i as :: Expr.inspectedAll as
  | .cast i t e b => .cast i t e b :: e.inspected
  | .arrayLit i vs k => .arrayLit i vs k :: Expr.inspectedAll vs
  | .tuple i es => .tuple i es :: Expr.inspectedAll es
  | .member i e n t => .member i e n t :: e.inspected
  | .index i e k t => .index i e k t :: (e.inspected ++ k.inspected)
  | .reclassify i m e p h => .reclassify i m e p h :: e.inspected
  | e => [e]

def Expr.inspectedAll : List Expr → List Expr
  | [] => []
  | e :: es => e.inspected ++ Expr.inspectedAll es

end

/-- The expressions that are tested, if there is one at all. -/
def Expr.inspected? (e : Option Expr) : List Expr := e.elim [] Expr.inspected

/-- The expression, apart from its parts, can be evaluated in a circuit: operators are known to circuits or evaluated
there anyway, and the values of variables have a type that circuits know. -/
def Expr.fitsItself (e : Expr) : Bool :=
  match e with
  | .call _ (.operator _ op isPrivate _ _) as _ _ => isPrivate || (op.canBePrivate && op.operandsFitCircuit as)
  | e => !e.isLocation || e.checkedType.type.canBePrivate

/-- The statement, apart from its parts, can be carried out in a circuit. -/
def Stmt.fitsItself : Stmt → Bool
  | .ifThen .. | .ret .. | .assign .. | .declare .. | .block _ | .seq .. | .comment _ | .blank => true
  | _ => false

/-- The node, apart from its parts, can be part of a circuit. -/
def Node.fitsItself : Node → Bool
  | .expr e => e.fitsItself
  | .stmt s => s.fitsItself
  | _ => true

mutual

/-- The statements and expressions that are tested. -/
def Stmt.inspected : Stmt → List Node
  | .ifThen i c t none => .stmt (.ifThen i c t none) :: (c.inspected.map Node.expr ++ t.inspected)
  | .ifThen i c t (some e) =>
    .stmt (.ifThen i c t (some e)) :: (c.inspected.map Node.expr ++ t.inspected ++ e.inspected)
  | .ret i e => .stmt (.ret i e) :: (Expr.inspected? e).map Node.expr
  | .assign i l r o x => .stmt (.assign i l r o x) :: (l.inspected ++ r.inspected).map Node.expr
  | .declare i v e => .stmt (.declare i v e) :: (Expr.inspected? e).map Node.expr
  | .block b => .stmt (.block b) :: b.inspected
  | .seq i ss x => .stmt (.seq i ss x) :: Stmt.inspectedAll ss
  | s => [.stmt s]

def Block.inspected : Block → List Node
  | ⟨_, ss, _⟩ => Stmt.inspectedAll ss

def Stmt.inspectedAll : List Stmt → List Node
  | [] => []
  | s :: ss => s.inspected ++ Stmt.inspectedAll ss

end

mutual

theorem Expr.fitsCircuit_eq : ∀ e : Expr, e.fitsCircuit = e.inspected.all Expr.fitsItself
  | .call i f as o k => by
    have parts := Expr.fitCircuit_eq as
    rw [Expr.inspected, List.all_cons, ← parts]
    cases f <;> rfl
  | .new i as => Expr.fitCircuit_eq as
  | .cast i t e b => e.fitsCircuit_eq
  | .arrayLit i vs k => Expr.fitCircuit_eq vs
  | .tuple i es => Expr.fitCircuit_eq es
  | .member i e n t => by
    rw [Expr.inspected, List.all_cons, ← e.fitsCircuit_eq]
    rfl
  | .index i e k t => by
    rw [Expr.inspected, List.all_cons, List.all_append, ← e.fitsCircuit_eq, ← k.fitsCircuit_eq, ← Bool.and_assoc]
    rfl
  | .reclassify i m e p h => e.fitsCircuit_eq
  | .ident i n t => (Bool.and_true _).symm
  | .operator .. | .boolLit .. | .numLit .. | .me _ | .all _ => rfl

theorem Expr.fitCircuit_eq : ∀ es : List Expr, Expr.fitCircuit es = (Expr.inspectedAll es).all Expr.fitsItself
  | [] => rfl
  | e :: es => by
    rw [Expr.fitCircuit, Expr.inspectedAll, List.all_append, e.fitsCircuit_eq, Expr.fitCircuit_eq es]

end

theorem Expr.fitsCircuit?_eq (e : Option Expr) :
    Expr.fitsCircuit? e = (Expr.inspected? e).all Expr.fitsItself := by
  cases e with
  | none => rfl
  | some e => exact e.fitsCircuit_eq

theorem all_fitsItself (es : List Expr) : (es.map Node.expr).all Node.fitsItself = es.all Expr.fitsItself := by
  rw [List.all_map]
  rfl

mutual

theorem Stmt.fitsCircuit_eq : ∀ s : Stmt, s.fitsCircuit = s.inspected.all Node.fitsItself
  | .ifThen i c t none => by
    rw [Stmt.inspected, List.all_cons, List.all_append, all_fitsItself, ← c.fitsCircuit_eq, ← t.fitsCircuit_eq]
    rfl
  | .ifThen i c t (some e) => by
    rw [Stmt.inspected, List.all_cons, List.all_append, List.all_append, all_fitsItself, ← c.fitsCircuit_eq,
      ← t.fitsCircuit_eq, ← e.fitsCircuit_eq]
    rfl
  | .ret i e => by
    rw [Stmt.inspected, List.all_cons, all_fitsItself, ← Expr.fitsCircuit?_eq]
    rfl
  | .assign i l r o x => by
    rw [Stmt.inspected, List.all_cons, all_fitsItself, List.all_append, ← l.fitsCircuit_eq, ← r.fitsCircuit_eq]
    rfl
  | .declare i v e => by
    rw [Stmt.inspected, List.all_cons, all_fitsItself, ← Expr.fitsCircuit?_eq]
    rfl
  | .block b => b.fitsCircuit_eq
  | .seq i ss x => Stmt.fitCircuit_eq ss
  | .comment _ | .blank | .whileLoop .. | .doWhile .. | .forLoop .. | .breakLoop _ | .continueLoop _ | .eval ..
  | .require .. | .compute .. | .enterKey .. => rfl

theorem Block.fitsCircuit_eq : ∀ b : Block, b.fitsCircuit = b.inspected.all Node.fitsItself
  | ⟨_, ss, _⟩ => Stmt.fitCircuit_eq ss

theorem Stmt.fitCircuit_eq : ∀ ss : List Stmt, Stmt.fitCircuit ss = (Stmt.inspectedAll ss).all Node.fitsItself
  | [] => rfl
  | s :: ss => by
    rw [Stmt.fitCircuit, Stmt.inspectedAll, List.all_append, s.fitsCircuit_eq, Stmt.fitCircuit_eq ss]

end

/-- The function's own code can be part of a circuit. -/
def FunctionDef.FitsCircuit (f : FunctionDef) : Prop := ∀ n ∈ f.body.inspected, n.fitsItself = true

theorem FunctionDef.fitsCircuit_iff (f : FunctionDef) : f.body.fitsCircuit = true ↔ f.FitsCircuit := by
  rw [f.body.fitsCircuit_eq, List.all_eq_true]
  rfl

/-! ## Programs that differ in their functions only -/

/-- The contracts differ in their constructors and functions only, and have equally many of them. -/
structure Contract.Rebuilt (c d : Contract) : Prop where
  contract : d = { c with constructors := d.constructors, functions := d.functions }
  constructors : d.constructors.length = c.constructors.length
  functions : d.functions.length = c.functions.length

theorem Builtin.methods_incapable {m : FunctionDef} (h : m ∈ Builtin.methods) : m.facts.canBePrivate = false := by
  simp only [Builtin.methods, List.mem_cons, List.not_mem_nil, or_false] at h
  rcases h with rfl | rfl <;> rfl

namespace SourceUnit

/-- The programs differ in their constructors and functions only. -/
structure Rebuilt (u v : SourceUnit) : Prop where
  unit : v = { u with contracts := v.contracts }
  contracts : List.Forall₂ Contract.Rebuilt u.contracts v.contracts

variable {u v w x a : SourceUnit}

theorem mapFacts_rebuilt (F : Symbols → FunctionDef → FunctionFacts) (u : SourceUnit) : u.Rebuilt (u.mapFacts F) := by
  refine ⟨rfl, ?_⟩
  refine foldl_forall₂ (fun p c => ⟨_, rfl, ⟨Eq.refl _, ?_, ?_⟩⟩) u.contracts u.symbols <;>
    exact (foldl_forall₂ (R := fun _ _ => True) (fun _ _ => ⟨_, rfl, trivial⟩) _ _).length_eq.symm

theorem Rebuilt.euclidean (hv : u.Rebuilt v) (hw : u.Rebuilt w) : v.Rebuilt w := by
  refine ⟨?_, forall₂_comp (fun d c e hd he => ⟨?_, ?_, ?_⟩) hv.contracts.flip hw.contracts⟩
  · rw [hv.unit]
    exact hw.unit
  · rw [hd.contract]
    exact he.contract
  · exact he.constructors.trans hd.constructors.symm
  · exact he.functions.trans hd.functions.symm

/-- Such programs are the same if their functions are. -/
theorem Rebuilt.eq (h : u.Rebuilt v) (same : v.allFunctions = u.allFunctions) : v = u := by
  have contracts {cs ds : List Contract} (h : List.Forall₂ Contract.Rebuilt cs ds)
      (same : ds.flatMap Contract.allFunctions = cs.flatMap Contract.allFunctions) : ds = cs := by
    induction h with
    | nil => rfl
    | @cons c d cs ds hd _ ih =>
      rw [List.flatMap_cons, List.flatMap_cons] at same
      have lengths : d.allFunctions.length = c.allFunctions.length := by
        unfold Contract.allFunctions
        rw [List.length_append, List.length_append, hd.constructors, hd.functions]
      obtain ⟨first, rest⟩ := List.append_inj same lengths
      obtain ⟨constructors, functions⟩ := List.append_inj first hd.constructors
      rw [ih rest, hd.contract, constructors, functions]
  rw [h.unit, contracts h.contracts same]

/-- A function with other marks of what a circuit can evaluate. -/
def Remarked (f g : FunctionDef) : Prop := g = { f with facts := { f.facts with canBePrivate := g.facts.canBePrivate } }

theorem Remarked.refl (f : FunctionDef) : Remarked f f := rfl

theorem Remarked.trans {f g k : FunctionDef} (hg : Remarked f g) (hk : Remarked g k) : Remarked f k := by
  unfold Remarked at hg hk ⊢
  rw [hk, hg]

theorem Remarked.id {f g : FunctionDef} (h : Remarked f g) : g.id = f.id := by rw [h]

theorem Remarked.calls {f g : FunctionDef} (h : Remarked f g) : g.facts.calls = f.facts.calls := by rw [h]

theorem Remarked.body {f g : FunctionDef} (h : Remarked f g) : g.body = f.body := by rw [h]

theorem Remarked.eq {f g k : FunctionDef} (hg : Remarked f g) (hk : Remarked f k)
    (same : g.facts.canBePrivate = k.facts.canBePrivate) : g = k := by
  rw [hg, hk, same]

/-! ## Rounds -/

/-- The facts of a function when the marks of those that it calls are looked up. -/
def loweredFacts (s : Symbols) (g : FunctionDef) : FunctionFacts :=
  { g.facts with canBePrivate := settledMark (·.facts.canBePrivate) s g }

/-- A round over all functions. It reads the marks that it has lowered before. -/
def lowerOnce (u : SourceUnit) : SourceUnit := u.mapFacts loweredFacts

/-- All functions are tested on their own. -/
def testOwn (u : SourceUnit) : SourceUnit :=
  u.mapFacts fun _ f => { f.facts with canBePrivate := f.facts.canBePrivate && f.body.fitsCircuit }

theorem markCapable_eq (u : SourceUnit) :
    u.markCapable = u.testOwn.mapFacts fun _ => loweredFacts u.testOwn.symbols := rfl

/-- So many rounds change something, and the one after them changes nothing. -/
structure SettlesIn (u : SourceUnit) (n : Nat) : Prop where
  changing : ∀ k < n, (lowerOnce^[k] u).lowerOnce ≠ lowerOnce^[k] u
  settled : (lowerOnce^[n] u).lowerOnce = lowerOnce^[n] u

theorem testOwn_pointwise (u : SourceUnit) : u.Pointwise (fun f g => Remarked f g ∧
    g.facts.canBePrivate = (f.facts.canBePrivate && f.body.fitsCircuit)) u.testOwn :=
  mapFacts_pointwise (fun _ _ => ⟨rfl, rfl⟩) u

theorem lowerOnce_pointwise (u : SourceUnit) : u.Pointwise (fun f g => Remarked f g ∧
    (g.facts.canBePrivate = true → f.facts.canBePrivate = true)) u.lowerOnce :=
  mapFacts_pointwise (fun _ _ => ⟨rfl, fun h => (Bool.and_eq_true_iff.mp h).1⟩) u

/-- How many functions are marked. -/
def capableCount (u : SourceUnit) : Nat := u.allFunctions.countP (·.facts.canBePrivate)

section Counting

variable {α : Type} {R : α → α → Prop} {p : α → Bool} {xs ys : List α}

theorem countP_le_of_forall₂ (h : List.Forall₂ (fun x y => R x y ∧ (p y = true → p x = true)) xs ys) :
    ys.countP p ≤ xs.countP p := by
  induction h with
  | nil => exact Nat.le_refl _
  | @cons x y xs ys hxy _ ih =>
    rw [List.countP_cons, List.countP_cons]
    by_cases hy : p y = true
    · rw [if_pos hy, if_pos (hxy.2 hy)]
      omega
    · rw [if_neg hy]
      omega

/-- If marks are only lowered and there are as many as before, all of them are as before. -/
theorem same_of_countP (h : List.Forall₂ (fun x y => R x y ∧ (p y = true → p x = true)) xs ys)
    (same : ys.countP p = xs.countP p) : List.Forall₂ (fun x y => R x y ∧ p y = p x) xs ys := by
  induction h with
  | nil => exact .nil
  | @cons x y xs ys hxy hs ih =>
    have fewer := countP_le_of_forall₂ hs
    rw [List.countP_cons, List.countP_cons] at same
    by_cases hy : p y = true
    · rw [if_pos hy, if_pos (hxy.2 hy)] at same
      exact .cons ⟨hxy.1, hy.trans (hxy.2 hy).symm⟩ (ih (by omega))
    · by_cases hx : p x = true
      · rw [if_neg hy, if_pos hx] at same
        omega
      · rw [if_neg hy, if_neg hx] at same
        exact .cons ⟨hxy.1, by rw [Bool.eq_false_of_not_eq_true hy, Bool.eq_false_of_not_eq_true hx]⟩ (ih (by omega))

end Counting

theorem capableCount_le (u : SourceUnit) : u.lowerOnce.capableCount ≤ u.capableCount :=
  countP_le_of_forall₂ (allFunctions_pointwise u.lowerOnce_pointwise)

/-- A round that lowers no mark changes nothing. -/
theorem lowerOnce_of_count (same : u.lowerOnce.capableCount = u.capableCount) : u.lowerOnce = u := by
  have marks := same_of_countP (allFunctions_pointwise u.lowerOnce_pointwise) same
  refine (mapFacts_rebuilt _ u).eq (List.forall₂_eq_eq_eq ▸ marks.flip.imp ?_)
  rintro g f ⟨remarked, same⟩
  rw [remarked, same]

/-- The rounds end, whoever calls whom. -/
theorem settles (u : SourceUnit) : ∃ n ≤ u.allFunctions.length, u.SettlesIn n := by
  suffices rounds : ∀ m (u : SourceUnit), u.capableCount ≤ m → ∃ n ≤ m, u.SettlesIn n by
    obtain ⟨n, few, settles⟩ := rounds u.capableCount u (Nat.le_refl _)
    exact ⟨n, few.trans List.countP_le_length, settles⟩
  intro m
  induction m with
  | zero =>
    intro u few
    exact ⟨0, Nat.le_refl 0, nofun, lowerOnce_of_count (u.capableCount_le.antisymm (few.trans (Nat.zero_le _)))⟩
  | succ m ih =>
    intro u few
    by_cases same : u.lowerOnce = u
    · exact ⟨0, Nat.zero_le _, nofun, same⟩
    · have fewer : u.lowerOnce.capableCount < u.capableCount :=
        Nat.lt_of_le_of_ne u.capableCount_le fun h => same (lowerOnce_of_count h)
      obtain ⟨n, hn, settles⟩ := ih u.lowerOnce (Nat.le_of_lt_succ (fewer.trans_le few))
      refine ⟨n + 1, Nat.succ_le_succ hn, fun k hk => ?_, settles.settled⟩
      cases k with
      | zero => exact same
      | succ k => exact settles.changing k (Nat.lt_of_succ_lt_succ hk)

/-! ## One round is enough -/

theorem Throughout.throughout {P : Nat → Prop} {i : Nat} (h : a.Throughout P i) : a.Throughout (a.Throughout P) i :=
  ⟨h, fun j hj => ⟨h.2 j hj, fun k hk => h.2 k (hj.trans hk)⟩⟩

/-- The functions of the second program are marked with the calls in the first one, and exactly where something holds. -/
structure Ready (a : SourceUnit) (P : Nat → Prop) (x : SourceUnit) : Prop where
  numbers : x.numbers = a.numbers
  places : List.Forall₂ (fun f g => g.id = f.id) a.allFunctions x.allFunctions
  calls : ∀ f ∈ x.allFunctions, ∀ j, j ∈ f.facts.calls ↔ a.Reaches f.id j
  own : ∀ f ∈ x.allFunctions, f.facts.canBePrivate = true ↔ P f.id
  methods : ∀ m ∈ Builtin.methods, ¬ P m.id

/-- The function is marked exactly if something holds of it and all that it reaches. -/
def Lowered (a : SourceUnit) (P : Nat → Prop) (f g : FunctionDef) : Prop :=
  Remarked f g ∧ (g.facts.canBePrivate = true ↔ a.Throughout P f.id)

theorem lowered_unique (a : SourceUnit) (P : Nat → Prop) : Relator.RightUnique (a.Lowered P) :=
  fun _ _ _ hg hk => hg.1.eq hk.1 (Bool.eq_iff_iff.mpr (hg.2.trans hk.2.symm))

namespace Ready

variable {P Q : Nat → Prop}

theorem flagged (distinct : a.numbers.Nodup) (h : a.Ready P x) :
    a.Flagged P (·.facts.canBePrivate) x.symbols := by
  refine .of_iff (found_of_ids distinct h.numbers h.places) fun i g hg => ?_
  obtain ⟨own | builtin, rfl⟩ := function?_found hg
  · exact h.own g own
  · exact iff_of_false (by rw [Builtin.methods_incapable builtin]; exact Bool.false_ne_true) (h.methods g builtin)

/-- A round leaves the marks of functions throughout which something holds. -/
theorem lowerOnce (distinct : a.numbers.Nodup) (h : a.Ready P x) : x.Pointwise (a.Lowered P) x.lowerOnce := by
  refine (mapFacts_keeping (I := a.Flagged P (·.facts.canBePrivate))
    (R := fun g facts => Remarked g { g with facts := facts } ∧ (facts.canBePrivate = true ↔ a.Throughout P g.id))
    (fun g hg s hs => ?_) (h.flagged distinct)).mono ?_
  · have settled := hs.settled (h.own g hg) (h.calls g hg)
    exact ⟨⟨rfl, settled⟩, hs.setFunction settled⟩
  · rintro g k ⟨same, remarked, marked⟩
    exact ⟨same ▸ remarked, marked⟩

/-- So does a round that reads the marks from before. -/
theorem sweep (distinct : a.numbers.Nodup) (h : a.Ready P x) :
    x.Pointwise (a.Lowered P) (x.mapFacts fun _ => loweredFacts x.symbols) := by
  refine (mapFacts_keeping (F := fun _ => loweredFacts x.symbols) (I := fun _ => True)
    (R := fun g facts => Remarked g { g with facts := facts } ∧ (facts.canBePrivate = true ↔ a.Throughout P g.id))
    (fun g hg s _ => ⟨⟨rfl, (h.flagged distinct).settled (h.own g hg) (h.calls g hg)⟩, trivial⟩) trivial).mono ?_
  rintro g k ⟨same, remarked, marked⟩
  exact ⟨same ▸ remarked, marked⟩

theorem sweep_eq (distinct : a.numbers.Nodup) (h : a.Ready P x) :
    x.mapFacts (fun _ => loweredFacts x.symbols) = x.lowerOnce := by
  have functions := List.right_unique_forall₂' (a.lowered_unique P) (allFunctions_pointwise (h.sweep distinct))
    (allFunctions_pointwise (h.lowerOnce distinct))
  exact ((mapFacts_rebuilt _ x).euclidean (mapFacts_rebuilt _ x)).eq functions

/-- A pass over the marks after which something else holds exactly of the marked functions. -/
theorem mapFacts (h : a.Ready P x) {F : Symbols → FunctionDef → FunctionFacts}
    (marks : List.Forall₂ (fun f g => Remarked f g ∧ (g.facts.canBePrivate = true ↔ Q f.id)) x.allFunctions
      (x.mapFacts F).allFunctions) (stronger : ∀ i, Q i → P i) : a.Ready Q (x.mapFacts F) := by
  refine ⟨(mapFacts_numbers x).numbers.trans h.numbers, ?_, fun g hg => ?_, fun g hg => ?_,
    fun m hm hQ => h.methods m hm (stronger _ hQ)⟩
  · exact forall₂_comp (fun f g k hg hk => hk.1.id.trans hg) h.places marks
  · obtain ⟨f, hf, remarked, -⟩ := exists_mem_of_forall₂_right marks hg
    rw [remarked.calls, remarked.id]
    exact h.calls f hf
  · obtain ⟨f, hf, remarked, marked⟩ := exists_mem_of_forall₂_right marks hg
    rw [remarked.id]
    exact marked

/-- What holds of each marked function before a round holds throughout what it reaches afterwards. -/
theorem next (distinct : a.numbers.Nodup) (h : a.Ready P x) : a.Ready (a.Throughout P) x.lowerOnce :=
  h.mapFacts (allFunctions_pointwise (h.lowerOnce distinct)) fun _ => And.left

/-- A second round changes nothing. -/
theorem lowerOnce_eq (distinct : a.numbers.Nodup) (h : a.Ready (a.Throughout P) x) : x.lowerOnce = x := by
  refine (mapFacts_rebuilt _ x).eq ?_
  have again := allFunctions_pointwise (h.lowerOnce distinct)
  refine List.right_unique_forall₂' (a.lowered_unique (a.Throughout P)) again (List.forall₂_same.mpr fun f hf => ?_)
  exact ⟨rfl, (h.own f hf).trans ⟨Throughout.throughout, And.left⟩⟩

end Ready

/-! ## Checked programs -/

/-- The number of a function whose own code can be part of a circuit. Built-in methods cannot. -/
def Capable (w : SourceUnit) (i : Nat) : Prop :=
  (∀ f ∈ w.allFunctions, f.id = i → f.FitsCircuit) ∧ ∀ m ∈ Builtin.methods, m.id ≠ i

/-- No function has the number of a built-in one. -/
theorem method_ne (distinct : u.numbers.Nodup) {f m : FunctionDef} (hf : f ∈ u.allFunctions)
    (hm : m ∈ Builtin.methods) : m.id ≠ f.id := by
  obtain ⟨c, hc, hf⟩ := List.mem_flatMap.mp hf
  have own : f.id ∈ (u.contracts.flatMap Contract.decls).map Prod.fst := by
    refine List.mem_map.mpr ⟨(f.id, .function f c.name), List.mem_flatMap.mpr ⟨c, hc, List.mem_append_right _ ?_⟩, rfl⟩
    exact List.mem_flatMap.mpr ⟨f, hf, List.mem_append_left _ List.mem_cons_self⟩
  have builtin : m.id ∈ Builtin.decls.map Prod.fst := by
    have listed : Builtin.methods.map (·.id) ⊆ Builtin.decls.map Prod.fst := by decide
    exact listed (List.mem_map_of_mem hm)
  rintro same
  unfold numbers symbols at distinct
  rw [List.map_append] at distinct
  exact (List.nodup_append.mp distinct).2.2 _ own _ builtin same.symm

/-- What is known of a function once its own code is tested. -/
theorem testOwn_ready (distinct : a.numbers.Nodup) (h : a.Ready (fun i => ∀ m ∈ Builtin.methods, m.id ≠ i) w) :
    a.Ready w.Capable w.testOwn := by
  refine h.mapFacts (List.Forall₂.imp ?_ ((List.forall₂_and_left _ _).mpr ⟨fun f hf => hf,
    allFunctions_pointwise w.testOwn_pointwise⟩)) fun _ => And.right
  rintro f g ⟨hf, remarked, marked⟩
  refine ⟨remarked, ?_⟩
  rw [marked, Bool.and_eq_true, f.fitsCircuit_iff, h.own f hf]
  refine ⟨fun ⟨others, fits⟩ => ⟨fun g hg same => ?_, others⟩, fun capable => ⟨capable.2, capable.1 f hf rfl⟩⟩
  rwa [eq_of_id (h.numbers ▸ distinct) hg hf same]

/-- The code of marked functions passes the test again. -/
theorem testOwn_eq (h : a.Ready (a.Throughout w.Capable) x) (bodies : List.Forall₂ Remarked w.allFunctions x.allFunctions) :
    x.testOwn = x := by
  refine (mapFacts_rebuilt _ x).eq ?_
  refine (List.forall₂_eq_eq_eq ▸ List.Forall₂.imp ?_ ((List.forall₂_and_left _ _).mpr ⟨fun f hf => hf,
    allFunctions_pointwise x.testOwn_pointwise⟩) : x.allFunctions = x.testOwn.allFunctions).symm
  rintro f g ⟨hf, remarked, marked⟩
  refine (remarked.eq (.refl f) ?_).symm
  rw [marked]
  cases own : f.facts.canBePrivate with
  | false => rfl
  | true =>
    obtain ⟨k, hk, same⟩ := exists_mem_of_forall₂_right bodies hf
    have fits : k.FitsCircuit := ((h.own f hf).mp own).1.1 k hk same.id.symm
    rw [Bool.true_and, same.body]
    exact k.fitsCircuit_iff.mpr fits

/-- The passes up to the type check accept the first program. The second one is its form when the calls are followed, the
third one is checked. -/
inductive TypeChecked (u : SourceUnit) (next : Nat) : SourceUnit → SourceUnit → Prop
  | intro {linked aliased called accessed : SourceUnit} {n : Nat}
      (link : u.link next = .ok (linked, n))
      (returns : linked.checkReturns = .ok ())
      (aliases : linked.markAliases = .ok aliased)
      (calls : aliased.markCalls = .ok called)
      (accesses : called.markAccesses = .ok accessed)
      (order : accessed.checkOrder = .ok ())
      (types : accessed.check.failure = none) :
      TypeChecked u next aliased accessed.check.unit

/-- No calls are known, and no function is known to be beyond circuits. -/
structure Unjudged (u : SourceUnit) : Prop where
  distinct : u.numbers.Nodup
  uncalled : u.Uncalled
  capable : ∀ f ∈ u.allFunctions, f.facts.canBePrivate = true

/-- The second function has the number, the calls and the mark of the first. -/
structure SameVerdict (f g : FunctionDef) : Prop extends SameCalls f g where
  canBePrivate : g.facts.canBePrivate = f.facts.canBePrivate

theorem sameVerdict_coarse : Coarse SameVerdict where
  refl _ := ⟨⟨rfl, rfl⟩, rfl⟩
  trans _ _ _ h₁ h₂ := ⟨⟨h₂.id.trans h₁.id, h₂.calls.trans h₁.calls⟩, h₂.canBePrivate.trans h₁.canBePrivate⟩
  code _ _ _ _ := ⟨⟨rfl, rfl⟩, rfl⟩
  summary _ _ _ _ := ⟨⟨rfl, rfl⟩, rfl⟩

/-- What is known of a checked program before its functions are tested. -/
theorem TypeChecked.ready {next : Nat} (fresh : u.Unjudged) (h : u.TypeChecked next a w) :
    a.numbers.Nodup ∧ a.Ready (fun i => ∀ m ∈ Builtin.methods, m.id ≠ i) w ∧
      ∀ i j, a.Reaches i j ↔ a.Invokes i j := by
  cases h with
  | @intro linked _ called accessed n link _ aliases calls accesses _ _ =>
  have distinct : a.numbers.Nodup := by
    rw [markAliases_numbers aliases, link_numbers link]
    exact fresh.distinct
  have numbers : accessed.check.unit.numbers = a.numbers := by
    rw [check_numbers, markAccesses_numbers accesses, markCalls_numbers calls]
  have before : u.Pointwise SameVerdict a := (link_pointwise sameVerdict_coarse link).trans sameVerdict_coarse.trans
    (markAliases_pointwise sameVerdict_coarse aliases)
  have follow : a.Pointwise (fun f g => g.id = f.id ∧ g.facts.canBePrivate = f.facts.canBePrivate) called :=
    markCalls_pointwise (fun _ _ _ h₁ h₂ => ⟨h₂.1.trans h₁.1, h₂.2.trans h₁.2⟩) (fun _ _ _ _ => ⟨rfl, rfl⟩) calls
  have after : called.Pointwise SameVerdict accessed.check.unit :=
    (markAccesses_pointwise sameVerdict_coarse accesses).trans sameVerdict_coarse.trans
      (check_pointwise sameVerdict_coarse _)
  have uncalled : a.Uncalled := fresh.uncalled.of_sameCalls (before.mono fun _ _ h => h.toSameCalls)
  have places : List.Forall₂ (fun f g => g.id = f.id) a.allFunctions accessed.check.unit.allFunctions :=
    allFunctions_pointwise (follow.trans (fun _ _ _ h₁ h₂ => h₂.id.trans h₁.1) after)
  refine ⟨distinct, ⟨numbers, places, fun g hg => ?_, fun g hg => ?_, fun m hm none => none m hm rfl⟩, ?_⟩
  · obtain ⟨f, hf, same⟩ := exists_mem_of_forall₂_right (allFunctions_pointwise after) hg
    rw [same.calls, same.id]
    exact markCalls_reaches distinct uncalled calls f hf
  · have marks : u.Pointwise (fun f g => g.facts.canBePrivate = f.facts.canBePrivate) accessed.check.unit :=
      (before.trans (fun _ _ _ h₁ h₂ => h₂.2.trans h₁.canBePrivate) follow).trans
        (fun _ _ _ h₁ h₂ => h₂.canBePrivate.trans h₁) after
    obtain ⟨f, hf, same⟩ := exists_mem_of_forall₂_right (allFunctions_pointwise marks) hg
    exact iff_of_true (same.trans (fresh.capable f hf)) fun m hm => method_ne (numbers ▸ distinct) hg hm
  · rw [markCalls_eq] at calls
    obtain ⟨direct, hd, -⟩ := except_map_ok calls
    exact fun i j => reaches_iff hd

/-- Only the mark of the function may change. It tells whether the code of the function and of all that it invokes can be
part of a circuit, and no built-in method is invoked. -/
structure Judged (a w : SourceUnit) (f g : FunctionDef) : Prop where
  remarked : Remarked f g
  capable : g.facts.canBePrivate = true ↔
    (∀ k ∈ w.allFunctions, k.id = f.id ∨ a.Invokes f.id k.id → k.FitsCircuit) ∧
      ∀ m ∈ Builtin.methods, ¬ a.Invokes f.id m.id

theorem Lowered.judged (distinct : w.numbers.Nodup) (reaches : ∀ i j, a.Reaches i j ↔ a.Invokes i j)
    {f g : FunctionDef} (hf : f ∈ w.allFunctions) (h : a.Lowered w.Capable f g) : a.Judged w f g := by
  refine ⟨h.1, h.2.trans ?_⟩
  unfold Throughout Capable
  simp only [reaches]
  constructor
  · rintro ⟨own, others⟩
    refine ⟨fun k hk => ?_, fun m hm hj => (others m.id hj).2 m hm rfl⟩
    rintro (same | invoked)
    · exact own.1 k hk same
    · exact (others k.id invoked).1 k hk rfl
  · rintro ⟨fits, methods⟩
    refine ⟨⟨fun k hk same => fits k hk (.inl same), fun m hm => method_ne distinct hf hm⟩, fun j hj => ⟨?_, ?_⟩⟩
    · rintro k hk rfl
      exact fits k hk (.inr hj)
    · rintro m hm rfl
      exact methods m hm hj

/-- In a checked program a function is marked exactly if its code and that of all functions that it reaches can be part
of a circuit. Lowering marks in rounds ends in every program and leads to the same marks here. When the pass is
repeated, it changes nothing. -/
theorem TypeChecked.capability {next : Nat} (fresh : u.Unjudged) (h : u.TypeChecked next a w) :
    List.Forall₂ (a.Judged w) w.allFunctions w.markCapable.allFunctions ∧
    (∀ v : SourceUnit, ∃ n ≤ v.allFunctions.length, v.SettlesIn n) ∧
    (∃ n, w.testOwn.SettlesIn n ∧ lowerOnce^[n] w.testOwn = w.markCapable) ∧
    w.markCapable.markCapable = w.markCapable := by
  obtain ⟨distinct, ready, reaches⟩ := h.ready fresh
  have own := testOwn_ready distinct ready
  have once : w.markCapable = w.testOwn.lowerOnce := own.sweep_eq distinct
  have lowered := own.next distinct
  have settled : w.testOwn.lowerOnce.lowerOnce = w.testOwn.lowerOnce := lowered.lowerOnce_eq distinct
  have marks : List.Forall₂ (a.Lowered w.Capable) w.allFunctions w.testOwn.lowerOnce.allFunctions :=
    forall₂_comp (fun _ _ _ hk hg => ⟨hk.1.trans hg.1, hk.1.id ▸ hg.2⟩) (allFunctions_pointwise w.testOwn_pointwise)
      (allFunctions_pointwise (own.lowerOnce distinct))
  refine ⟨?_, settles, ?_, ?_⟩
  · rw [once]
    refine List.Forall₂.imp ?_ ((List.forall₂_and_left _ _).mpr ⟨fun f hf => hf, marks⟩)
    exact fun f g hg => hg.2.judged (ready.numbers ▸ distinct) reaches hg.1
  · by_cases same : w.testOwn.lowerOnce = w.testOwn
    · exact ⟨0, ⟨nofun, same⟩, (once.trans same).symm⟩
    · refine ⟨1, ⟨fun k hk => ?_, settled⟩, once.symm⟩
      rw [Nat.lt_one_iff.mp hk]
      exact same
  · have again : w.testOwn.lowerOnce.testOwn = w.testOwn.lowerOnce :=
      testOwn_eq lowered (marks.imp fun _ _ h => h.1)
    rw [once, markCapable_eq, again, lowered.sweep_eq distinct, settled]

end SourceUnit

/-- A function with a loop, one that calls it, one that only adds to a private number, and one that sends money. -/
def counting : SourceUnit :=
  .sketch 100 "Count" []
    [.yielding 101 "count" [.whileLoop default (.boolLit (.numbered 120) false) (.ofStmts []),
      .ret default (some (.literalAt 121 0))],
    .yielding 103 "start" [.ret default (some (.callAt 122 (.nameAt 123 "count") []))],
    .sketch 105 "add" "public" [.sketch 106 AnnTy.uint.mine "x"]
      [.declareAt 107 AnnTy.uint.mine "y" (.applyAt 124 .add [.nameAt 126 "x", .literalAt 127 1])],
    .sketch 108 "pay" "internal" [] [.declareAt 109 .publicBool "done" (.callAt 128
      (.member (.numbered 129) (.member (.numbered 130) (.nameAt 131 "msg") (.plain "sender") none) (.plain "send") none)
      [.literalAt 132 1])]]

theorem counting_capability : ∃ a w, counting.Unjudged ∧ counting.TypeChecked 140 a w ∧
    (w.markCapable.allFunctions.map fun f => (f.id, f.facts.canBePrivate)) =
      [(101, false), (103, false), (105, true), (108, false)] ∧
    List.Forall₂ (a.Judged w) w.allFunctions w.markCapable.allFunctions ∧
    (∀ v : SourceUnit, ∃ n ≤ v.allFunctions.length, v.SettlesIn n) ∧
    (∃ n, w.testOwn.SettlesIn n ∧ SourceUnit.lowerOnce^[n] w.testOwn = w.markCapable) ∧
    w.markCapable.markCapable = w.markCapable := by
  obtain ⟨accessed, h, tested⟩ := exists_ok_of_any
    (x := do
      let linked ← counting.link 140
      linked.1.checkReturns
      let aliased ← linked.1.markAliases
      let called ← aliased.markCalls
      let accessed ← called.markAccesses
      accessed.checkOrder
      return accessed)
    (p := fun v : SourceUnit => decide (v.check.failure.isNone = true ∧
      (v.check.unit.markCapable.allFunctions.map fun f => (f.id, f.facts.canBePrivate)) =
        [(101, false), (103, false), (105, true), (108, false)])) (by decide +kernel)
  obtain ⟨⟨linked, n⟩, link, h⟩ := except_bind_ok h
  obtain ⟨⟨⟩, returns, h⟩ := except_bind_ok h
  obtain ⟨aliased, aliases, h⟩ := except_bind_ok h
  obtain ⟨called, calls, h⟩ := except_bind_ok h
  obtain ⟨_, accesses, h⟩ := except_bind_ok h
  obtain ⟨⟨⟩, order, h⟩ := except_bind_ok h
  cases h
  obtain ⟨types, marks⟩ := of_decide_eq_true tested
  have fresh : counting.Unjudged := ⟨by decide +kernel, by decide, by decide⟩
  have checked : counting.TypeChecked 140 aliased accessed.check.unit :=
    .intro link returns aliases calls accesses order (Option.isNone_iff_eq_none.mp types)
  exact ⟨aliased, _, fresh, checked, marks, checked.capability fresh⟩

end Shroud
