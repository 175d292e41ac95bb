import Shroud.Proofs.Behaviour

/-!
# Variables that executions use

An execution is seen here as the list of what it does to variables: it reads and writes them, and it looks up places
that are assigned to.

**Evaluation.** An expression may be evaluated in part and in any order: a condition may decide early, and the order of
operands is left open. What is done is that every node of it is visited at most once.

**Called functions.** A call does what the body of the function does, marked as done by a called function. Calls are
nested to a finite depth; what is called beyond it does nothing, so that every execution is followed as far as one
likes.

**Places.** The parts of the left-hand side of an assignment are looked up, but a variable that is assigned as a whole
is not.
-/

namespace Shroud

/-! ## Uses -/

/-- What is done to a variable. A variable is located where it stands in a place that is assigned to. -/
inductive UseKind where
  | read
  | locate
  | write
  deriving DecidableEq

/-- A use of the variable with a number; a remote one happens in a called function. -/
structure Use where
  kind : UseKind
  number : Nat
  remote : Bool
  deriving DecidableEq

namespace Use

def writes (x : Nat) (a : Use) : Bool := a.kind == .write && a.number == x

/-- The variable is read by the code itself, for a value. -/
def reads (x : Nat) (a : Use) : Bool := a.kind == .read && a.number == x && !a.remote

/-- The use as the caller sees it. -/
def away (a : Use) : Use := { a with remote := true }

/-- The use where a place is looked up. -/
def placed (a : Use) : Use := if a.remote then a else { a with kind := .locate }

end Use

/-! ## Executions -/

/-- The outcomes of executions, with the uses on the way. -/
abbrev Course := Outcome → List Use → Prop

namespace Course

/-- Nothing is used. -/
def idle : Course := fun o t => o = .normal ∧ t = []

/-- Control goes elsewhere. -/
def jump (way : Outcome) : Course := fun o t => o = way ∧ t = []

/-- Something is done, after which execution may be cut off. -/
def perform (E : List Use → Prop) : Course := fun o t => (o = .normal ∨ o = .cut) ∧ E t

/-- One after the other, unless the first one does not end normally. -/
inductive andThen (B C : Course) : Course
  | both {o : Outcome} {t u : List Use} : B .normal t → C o u → andThen B C o (t ++ u)
  | first {o : Outcome} {t : List Use} : o ≠ .normal → B o t → andThen B C o t

/-- One of the two. -/
def either (B C : Course) : Course := fun o t => B o t ∨ C o t

/-- Jumps of one kind end here. -/
def catching (jump : Outcome) (B : Course) : Course := fun o t => (B o t ∧ o ≠ jump) ∨ (B jump t ∧ o = .normal)

/-- Rounds for as long as they end normally, and then the end. -/
inductive rounds (round done : Course) : Course
  | done {o : Outcome} {t : List Use} : done o t → rounds round done o t
  | again {o : Outcome} {t u : List Use} : round .normal t → rounds round done o u → rounds round done o (t ++ u)
  | exit {o : Outcome} {t : List Use} : o ≠ .normal → round o t → rounds round done o t

end Course

/-- What called functions may do. -/
abbrev Calling := FunctionDef → List Use → Prop

section Executions

variable (symbols : Symbols) (calls : Calling)

/-- What visiting a node may do: nothing, a read of the variable, or a call. -/
inductive Node.Visited : Node → List Use → Prop
  | skipped (n : Node) : n.Visited []
  | read (i : Info) (n : Ident) (r : Ref) : Node.Visited (.expr (.ident i n (some r))) [⟨.read, r.id, false⟩]
  | call {i : Info} {f : Expr} {as : List Expr} {o : Int} {k : Option CircuitVar} {g : FunctionDef} {t : List Use} :
      symbols.callee? f = some g → g.isConstructor = false → calls g t →
      Node.Visited (.expr (.call i f as o k)) (t.map Use.away)

/-- Every node is visited at most once. -/
def Node.Evaluated (ns : List Node) (t : List Use) : Prop :=
  ∃ ms us, ms.Perm ns ∧ List.Forall₂ (Node.Visited symbols calls) ms us ∧ t = us.flatten

/-- The references that an assignment to the expression replaces. -/
def Expr.replaced : Expr → List Ref
  | .tuple _ es => replacedAll es
  | .ident _ _ (some r) => [r]
  | _ => []
where
  replacedAll : List Expr → List Ref
    | [] => []
    | e :: es => e.replaced ++ replacedAll es

/-- The nodes that are visited to find the places of an assignment. -/
def Expr.places : Expr → List Node
  | .tuple _ es => placesAll es
  | .ident .. => []
  | e => e.nodes
where
  placesAll : List Expr → List Node
    | [] => []
    | e :: es => e.places ++ placesAll es

/-- The value is found, then the places, then they are written. -/
def Expr.Stored (l r : Expr) (t : List Use) : Prop :=
  ∃ value places, Node.Evaluated symbols calls r.nodes value ∧ Node.Evaluated symbols calls l.places places ∧
    t = value ++ places.map Use.placed ++ l.replaced.map fun r => ⟨.write, r.id, false⟩

open Course

/-- The nodes are evaluated. -/
def Node.evaluation (ns : List Node) : Course := perform (Node.Evaluated symbols calls ns)

/-- A loop that tests its condition before every round. -/
def Expr.coursing (c : Expr) (round : Course) : Course :=
  ((Node.evaluation symbols calls c.nodes).andThen round).rounds (Node.evaluation symbols calls c.nodes)

mutual

/-- The executions of a statement. -/
def Stmt.course : Stmt → Course
  | .ifThen _ c t none => (Node.evaluation symbols calls c.nodes).andThen (t.course.either idle)
  | .ifThen _ c t (some e) => (Node.evaluation symbols calls c.nodes).andThen (t.course.either e.course)
  | .whileLoop _ c b => catching .broken (c.coursing symbols calls (catching .continued b.course))
  | .doWhile _ b c => catching .broken
    ((catching .continued b.course).andThen (c.coursing symbols calls (catching .continued b.course)))
  | .forLoop _ a c u b =>
    let first := match a with
      | none => idle
      | some s => s.course
    let last := match u with
      | none => idle
      | some s => s.course
    first.andThen (catching .broken (c.coursing symbols calls ((catching .continued b.course).andThen last)))
  | .breakLoop _ => jump .broken
  | .continueLoop _ => jump .continued
  | .ret i e => (Node.evaluation symbols calls (Stmt.ret i e).nodes).andThen (jump .returned)
  | .assign _ l r _ _ => perform (l.Stored symbols calls r)
  | .block b => b.course
  | .seq _ ss _ => Stmt.courseAll ss
  | s => Node.evaluation symbols calls s.nodes

def Block.course : Block → Course
  | ⟨_, ss, _⟩ => Stmt.courseAll ss

def Stmt.courseAll : List Stmt → Course
  | [] => idle
  | s :: ss => s.course.andThen (Stmt.courseAll ss)

end

/-- The executions of a part that may be missing. -/
def Stmt.course? (a : Option Stmt) : Course := (a.map (Stmt.course symbols calls)).getD idle

theorem Stmt.course_forLoop (i : StmtInfo) (a : Option Stmt) (c : Expr) (u : Option Stmt) (b : Block) :
    (Stmt.forLoop i a c u b).course symbols calls =
      (course? symbols calls a).andThen (catching .broken (c.coursing symbols calls
        ((catching .continued (b.course symbols calls)).andThen (course? symbols calls u)))) := by
  cases a <;> cases u <;> rfl

end Executions

/-- What functions do when calls are nested at most so deep. -/
def Symbols.calling (symbols : Symbols) : Nat → Calling
  | 0 => fun _ t => t = []
  | n + 1 => fun g t => ∃ o, g.body.course symbols (symbols.calling n) o t

/-- The function may be executed with this outcome and these uses. -/
def FunctionDef.Executes (symbols : Symbols) (f : FunctionDef) (o : Outcome) (t : List Use) : Prop :=
  ∃ n, f.body.course symbols (symbols.calling n) o t

/-! ## What is assigned -/

/-- The references that a statement itself replaces. -/
def Stmt.replaced : Stmt → List Ref
  | .assign _ l _ _ _ => l.replaced
  | _ => []

/-- The references that the statements among the nodes replace. -/
def Node.replaced (ns : List Node) : List Ref := (Node.stmts ns).flatMap Stmt.replaced

namespace Node

variable {n : Node} {s : Stmt} {ns ms : List Node}

@[simp]
theorem replaced_append : replaced (ns ++ ms) = replaced ns ++ replaced ms := by
  unfold replaced
  rw [stmts_append, List.flatMap_append]

@[simp]
theorem replaced_stmt : replaced (.stmt s :: ns) = s.replaced ++ replaced ns := by
  cases s <;> rfl

@[simp]
theorem replaced_expr (e : Expr) : replaced e.nodes = [] := by
  unfold replaced
  rw [e.stmts_nodes]
  rfl

theorem stmts_subset (h : ns ⊆ ms) : stmts ns ⊆ stmts ms := List.filterMap_subset _ h

theorem replaced_subset (h : ns ⊆ ms) : replaced ns ⊆ replaced ms := by
  intro r hr
  obtain ⟨s, hs, hr⟩ := List.mem_flatMap.mp hr
  exact List.mem_flatMap.mpr ⟨s, stmts_subset h hs, hr⟩

end Node

/-! ## Uses with a property -/

namespace Course

/-- All uses on the way have the property. -/
def Only (P : Use → Prop) (C : Course) : Prop := ∀ o t, C o t → ∀ a ∈ t, P a

variable {P : Use → Prop} {B C : Course}

theorem only_idle : Only P idle := by
  rintro _ _ ⟨-, rfl⟩
  exact nofun

theorem only_jump {way : Outcome} : Only P (jump way) := by
  rintro _ _ ⟨-, rfl⟩
  exact nofun

theorem only_perform {E : List Use → Prop} (h : ∀ t, E t → ∀ a ∈ t, P a) : Only P (perform E) :=
  fun _ t ht => h t ht.2

theorem Only.andThen (hB : Only P B) (hC : Only P C) : Only P (B.andThen C) := by
  rintro o t (⟨b, c⟩ | ⟨-, b⟩)
  · exact List.forall_mem_append.mpr ⟨hB _ _ b, hC _ _ c⟩
  · exact hB _ _ b

theorem Only.either (hB : Only P B) (hC : Only P C) : Only P (B.either C) := by
  rintro o t (h | h)
  · exact hB o t h
  · exact hC o t h

theorem Only.catching (hB : Only P B) (j : Outcome) : Only P (catching j B) := by
  rintro o t (⟨h, -⟩ | ⟨h, -⟩)
  · exact hB _ t h
  · exact hB _ t h

theorem Only.rounds (hB : Only P B) (hC : Only P C) : Only P (B.rounds C) := by
  intro o t h
  induction h with
  | done c => exact hC _ _ c
  | again b _ ih => exact List.forall_mem_append.mpr ⟨hB _ _ b, ih⟩
  | exit _ b => exact hB _ _ b

end Course

section Only

open Course

variable {symbols : Symbols} {calls : Calling} {P : Use → Prop}

/-- Evaluation reads names and does what called functions do. -/
theorem Node.Evaluated.forall {ns : List Node} {t : List Use} (h : Node.Evaluated symbols calls ns t)
    (read : ∀ i n r, .expr (.ident i n (some r)) ∈ ns → P ⟨.read, r.id, false⟩)
    (call : ∀ f g u, symbols.callee? f = some g → g.isConstructor = false → calls g u → ∀ a ∈ u, P a.away) :
    ∀ a ∈ t, P a := by
  obtain ⟨ms, us, perm, visits, rfl⟩ := h
  replace read : ∀ i n r, .expr (.ident i n (some r)) ∈ ms → P ⟨.read, r.id, false⟩ :=
    fun i n r h => read i n r (perm.subset h)
  clear perm
  induction visits with
  | nil => exact nofun
  | cons visit _ ih =>
    rw [List.flatten_cons]
    refine List.forall_mem_append.mpr ⟨?_, ih fun i n r h => read i n r (List.mem_cons_of_mem _ h)⟩
    cases visit with
    | skipped => exact nofun
    | read i n r => exact List.forall_mem_singleton.mpr (read i n r List.mem_cons_self)
    | call callee func does => exact List.forall_mem_map.mpr (call _ _ _ callee func does)

/-- Everything that the code reads, locates or writes, and what the functions do that it calls, has the property. -/
structure Use.Allowed (symbols : Symbols) (calls : Calling) (P : Use → Prop) (ns : List Node) : Prop where
  read : ∀ x, P ⟨.read, x, false⟩
  locate : ∀ x, P ⟨.locate, x, false⟩
  write : ∀ r ∈ Node.replaced ns, P ⟨.write, r.id, false⟩
  call : ∀ f g u, symbols.callee? f = some g → g.isConstructor = false → calls g u → ∀ a ∈ u, P a.away

namespace Use.Allowed

variable {ns ms : List Node}

theorem mono (h : Use.Allowed symbols calls P ns) (sub : ms ⊆ ns) : Use.Allowed symbols calls P ms :=
  ⟨h.read, h.locate, fun r hr => h.write r (Node.replaced_subset sub hr), h.call⟩

theorem evaluated (h : Use.Allowed symbols calls P ns) {t : List Use} (ht : Node.Evaluated symbols calls ms t) :
    ∀ a ∈ t, P a :=
  ht.forall (fun _ _ r _ => h.read r.id) h.call

theorem placed (h : Use.Allowed symbols calls P ns) {t : List Use} (ht : Node.Evaluated symbols calls ms t) :
    ∀ a ∈ t.map Use.placed, P a := by
  refine List.forall_mem_map.mpr (ht.forall (fun _ _ r _ => h.locate r.id) fun f g u callee func does a ha => ?_)
  exact h.call f g u callee func does a ha

/-- Whatever a statement does is allowed if its assignments are. -/
theorem course {s : Stmt} (h : Use.Allowed symbols calls P s.nodes) : Only P (s.course symbols calls) := by
  have evaluation (ns ms : List Node) (h : Use.Allowed symbols calls P ns) :
      Only P (Node.evaluation symbols calls ms) := only_perform fun _ => h.evaluated
  have all (ss : List Stmt) (ih : ∀ s ∈ ss, Use.Allowed symbols calls P s.nodes → Only P (s.course symbols calls))
      (h : Use.Allowed symbols calls P (Stmt.nodesAll ss)) : Only P (Stmt.courseAll symbols calls ss) := by
    induction ss with
    | nil => exact only_idle
    | cons s ss hss =>
      have first : Use.Allowed symbols calls P s.nodes := h.mono fun n hn => by simp [Stmt.nodesAll, hn]
      have rest : Use.Allowed symbols calls P (Stmt.nodesAll ss) := h.mono fun n hn => by simp [Stmt.nodesAll, hn]
      exact (ih s List.mem_cons_self first).andThen (hss (fun t ht => ih t (List.mem_cons_of_mem _ ht)) rest)
  have body (b : Block)
      (ih : ∀ s ∈ b.stmts, Use.Allowed symbols calls P s.nodes → Only P (s.course symbols calls))
      (h : Use.Allowed symbols calls P b.nodes) : Only P (b.course symbols calls) := by
    obtain ⟨i, ss, x⟩ := b
    exact all ss ih (h.mono fun n hn => by simp [Block.nodes, hn])
  have part (a : Option Stmt)
      (ih : ∀ s, a = some s → Use.Allowed symbols calls P s.nodes → Only P (s.course symbols calls))
      (h : Use.Allowed symbols calls P ((a.map Stmt.nodes).getD [])) : Only P (Stmt.course? symbols calls a) := by
    cases a with
    | none => exact only_idle
    | some s => exact ih s rfl h
  have loop (ns : List Node) (c : Expr) {B : Course} (h : Use.Allowed symbols calls P ns) (hB : Only P B) :
      Only P (c.coursing symbols calls B) :=
    ((evaluation ns _ h).andThen hB).rounds (evaluation ns _ h)
  induction s using Stmt.inductOn with
  | ifThen i c t e ht he =>
    cases e with
    | none =>
      have branch := body t ht (h.mono fun n hn => by simp [Stmt.nodes, hn])
      exact (evaluation _ _ h).andThen (branch.either only_idle)
    | some e =>
      have branch := body t ht (h.mono fun n hn => by simp [Stmt.nodes, hn])
      have other := body e (he e rfl) (h.mono fun n hn => by simp [Stmt.nodes, hn])
      exact (evaluation _ _ h).andThen (branch.either other)
  | whileLoop i c b hb =>
    exact (loop _ c h ((body b hb (h.mono fun n hn => by simp [Stmt.nodes, hn])).catching _)).catching _
  | doWhile i b c hb =>
    have round := (body b hb (h.mono fun n hn => by simp [Stmt.nodes, hn])).catching .continued
    exact (round.andThen (loop _ c h round)).catching _
  | forLoop i a c u b ha hu hb =>
    have round := (body b hb (h.mono fun n hn => by simp [Stmt.nodes_forLoop, hn])).catching .continued
    have first := part a ha (h.mono fun n hn => by simp [Stmt.nodes_forLoop, hn])
    have last := part u hu (h.mono fun n hn => by simp [Stmt.nodes_forLoop, hn])
    rw [Stmt.course_forLoop]
    exact first.andThen ((loop _ c h (round.andThen last)).catching _)
  | block b hb => exact body b hb h
  | seq i ss x hss => exact all ss hss (h.mono fun n hn => by simp [Stmt.nodes, hn])
  | simple s hs =>
    cases s with
    | breakLoop | continueLoop => exact only_jump
    | ret => exact (evaluation _ _ h).andThen only_jump
    | assign i l r o x =>
      refine only_perform ?_
      rintro _ ⟨value, places, found, located, rfl⟩
      refine List.forall_mem_append.mpr ⟨List.forall_mem_append.mpr ⟨h.evaluated found, h.placed located⟩, ?_⟩
      exact List.forall_mem_map.mpr fun r hr => h.write r (by simp [Stmt.nodes, Stmt.replaced, hr])
    | eval | require | declare | compute | enterKey | comment | blank => exact evaluation _ _ h
    | ifThen | whileLoop | doWhile | forLoop | block | seq => cases hs

end Use.Allowed

/-- Called functions do only what is allowed if this holds of the assignments of all functions they may call. -/
theorem Symbols.calling_only (away : ∀ a, P a → P a.away) (read : ∀ x, P ⟨.read, x, false⟩)
    (locate : ∀ x, P ⟨.locate, x, false⟩) (write : ∀ f g, symbols.callee? f = some g → g.isConstructor = false →
      ∀ r ∈ Node.replaced g.body.nodes, P ⟨.write, r.id, false⟩) (n : Nat) :
    ∀ f g u, symbols.callee? f = some g → g.isConstructor = false → symbols.calling n g u → ∀ a ∈ u, P a.away := by
  induction n with
  | zero =>
    rintro f g _ - - rfl
    exact nofun
  | succ n ih =>
    rintro f g u callee func ⟨o, does⟩ a ha
    have allowed : Use.Allowed symbols (symbols.calling n) P (Stmt.block g.body).nodes :=
      ⟨read, locate, write f g callee func, ih⟩
    exact away a (allowed.course o u does a ha)

end Only

/-! ## Executions that return -/

namespace Course

/-- Control never leaves by returning. -/
def Stays (C : Course) : Prop := ∀ t, ¬ C .returned t

variable {B C : Course}

theorem stays_idle : Stays idle := by
  rintro _ ⟨⟨⟩, -⟩

theorem stays_perform {E : List Use → Prop} : Stays (perform E) := by
  rintro _ ⟨⟨⟨⟩⟩ | ⟨⟨⟩⟩, -⟩

theorem Stays.andThen (hB : Stays B) (hC : Stays C) : Stays (B.andThen C) := by
  rintro _ (⟨-, c⟩ | ⟨-, b⟩)
  · exact hC _ c
  · exact hB _ b

theorem Stays.either (hB : Stays B) (hC : Stays C) : Stays (B.either C) := by
  rintro t (h | h)
  · exact hB t h
  · exact hC t h

theorem Stays.catching (hB : Stays B) (j : Outcome) : Stays (catching j B) := by
  rintro t (⟨h, -⟩ | ⟨-, ⟨⟩⟩)
  exact hB t h

theorem Stays.rounds (hB : Stays B) (hC : Stays C) : Stays (B.rounds C) := by
  have all (o : Outcome) (t : List Use) (h : B.rounds C o t) : o ≠ .returned := by
    induction h with
    | done c => exact fun returned => hC _ (returned ▸ c)
    | again _ _ ih => exact ih
    | exit _ b => exact fun returned => hB _ (returned ▸ b)
  exact fun t h => all .returned t h rfl

end Course

section Returning

open Course

variable {symbols : Symbols} {calls : Calling}

/-- No statement among the nodes returns. -/
def Node.Returnless (ns : List Node) : Prop := ∀ s ∈ Node.stmts ns, (s matches .ret ..) = false

theorem Node.Returnless.part {ns ms : List Node} (h : Node.Returnless ns) (sub : ms ⊆ ns) : Node.Returnless ms :=
  fun s hs => h s (Node.stmts_subset sub hs)

/-- Code without return statements does not return. -/
theorem Stmt.course_stays (s : Stmt) (h : Node.Returnless s.nodes) : Stays (s.course symbols calls) := by
  have evaluation (ns : List Node) : Stays (Node.evaluation symbols calls ns) := stays_perform
  have loop (c : Expr) {B : Course} (hB : Stays B) : Stays (c.coursing symbols calls B) :=
    ((evaluation _).andThen hB).rounds (evaluation _)
  have all (ss : List Stmt)
      (ih : ∀ s ∈ ss, Node.Returnless s.nodes → Stays (s.course symbols calls))
      (h : Node.Returnless (nodesAll ss)) : Stays (courseAll symbols calls ss) := by
    induction ss with
    | nil => exact stays_idle
    | cons s ss hss =>
      have first := ih s List.mem_cons_self (h.part fun n hn => by simp [nodesAll, hn])
      have rest := hss (fun t ht => ih t (List.mem_cons_of_mem _ ht)) (h.part fun n hn => by simp [nodesAll, hn])
      exact first.andThen rest
  have body (b : Block)
      (ih : ∀ s ∈ b.stmts, Node.Returnless s.nodes → Stays (s.course symbols calls))
      (h : Node.Returnless b.nodes) : Stays (b.course symbols calls) := by
    obtain ⟨i, ss, x⟩ := b
    exact all ss ih (h.part fun n hn => by simp [Block.nodes, hn])
  have part (a : Option Stmt)
      (ih : ∀ s, a = some s → Node.Returnless s.nodes → Stays (s.course symbols calls))
      (h : Node.Returnless ((a.map nodes).getD [])) : Stays (course? symbols calls a) := by
    cases a with
    | none => exact stays_idle
    | some s => exact ih s rfl h
  induction s using Stmt.inductOn with
  | ifThen i c t e ht he =>
    have branch := body t ht (h.part fun n hn => by cases e <;> simp [nodes, hn])
    cases e with
    | none => exact (evaluation _).andThen (branch.either stays_idle)
    | some e =>
      have other := body e (he e rfl) (h.part fun n hn => by simp [nodes, hn])
      exact (evaluation _).andThen (branch.either other)
  | whileLoop i c b hb =>
    exact (loop c ((body b hb (h.part fun n hn => by simp [nodes, hn])).catching _)).catching _
  | doWhile i b c hb =>
    have round := (body b hb (h.part fun n hn => by simp [nodes, hn])).catching .continued
    exact (round.andThen (loop c round)).catching _
  | forLoop i a c u b ha hu hb =>
    have round := (body b hb (h.part fun n hn => by simp [nodes_forLoop, hn])).catching .continued
    have first := part a ha (h.part fun n hn => by simp [nodes_forLoop, hn])
    have last := part u hu (h.part fun n hn => by simp [nodes_forLoop, hn])
    rw [course_forLoop]
    exact first.andThen ((loop c (round.andThen last)).catching _)
  | block b hb => exact body b hb h
  | seq i ss x hss => exact all ss hss (h.part fun n hn => by simp [nodes, hn])
  | simple s hs =>
    cases s with
    | breakLoop | continueLoop =>
      rintro _ ⟨⟨⟩, -⟩
    | ret i e => cases h (.ret i e) List.mem_cons_self
    | assign => exact stays_perform
    | eval | require | declare | compute | enterKey | comment | blank => exact evaluation _
    | ifThen | whileLoop | doWhile | forLoop | block | seq => cases hs

end Returning

end Shroud
