import Shroud.Proofs.Numbers
import Shroud.Proofs.Stores

/-!
# Executions of marked statements

How a function body may be executed, seen from what its statements are marked with. An execution ends with an outcome
and notes the stores in which a statement's own expressions are evaluated and those in which control leaves a statement,
each with what the statement claims to be known there.

**Unfinished executions.** An execution may be cut off wherever something is evaluated. What holds of all executions
therefore holds at every moment of one that goes on forever.

**Simple statements.** Their effect on the store is a parameter; `Lawful` says what is expected of it.

**Triples.** `Behaviour.Ensures` relates a condition on the first store to one for every outcome. The rules for the
combinators are those of a logic with jumps.
-/

namespace Shroud

/-! ## Ways to execute -/

/-- How control leaves a piece of code; `cut` if it has not left it yet. -/
inductive Outcome where
  | normal
  | broken
  | continued
  | returned
  | cut
  deriving DecidableEq

/-- A store in which something is claimed to be known. -/
structure Visit (α : Type) where
  known : Option Knowledge
  store : Store α

/-- The claim is right. -/
def Visit.Good {α : Type} (v : Visit α) : Prop := ∀ k, v.known = some k → v.store.Meets k

/-- The executions from one store to another, with their outcomes and visits. -/
abbrev Behaviour (α : Type) := Store α → Outcome → Store α → List (Visit α) → Prop

namespace Behaviour

variable {α : Type}

/-- Nothing happens. -/
def idle : Behaviour α := fun σ o τ t => o = .normal ∧ τ = σ ∧ t = []

/-- The store is looked at. -/
def look (k : Option Knowledge) : Behaviour α := fun σ o τ t => o = .normal ∧ τ = σ ∧ t = [⟨k, σ⟩]

/-- The store changes, unless execution is cut off before. -/
def change (R : Store α → Store α → Prop) : Behaviour α :=
  fun σ o τ t => t = [] ∧ ((o = .normal ∧ R σ τ) ∨ (o = .cut ∧ τ = σ))

/-- Control goes elsewhere. -/
def jump (way : Outcome) : Behaviour α := fun σ o τ t => o = way ∧ τ = σ ∧ t = []

/-- One after the other, unless the first one does not end normally. -/
inductive andThen (B C : Behaviour α) : Behaviour α
  | both {σ ρ τ : Store α} {o : Outcome} {t u : List (Visit α)} :
      B σ .normal ρ t → C ρ o τ u → andThen B C σ o τ (t ++ u)
  | first {σ τ : Store α} {o : Outcome} {t : List (Visit α)} : o ≠ .normal → B σ o τ t → andThen B C σ o τ t

/-- One of the two. -/
def either (B C : Behaviour α) : Behaviour α := fun σ o τ t => B σ o τ t ∨ C σ o τ t

/-- Jumps of one kind end here. -/
def catching (jump : Outcome) (B : Behaviour α) : Behaviour α :=
  fun σ o τ t => (B σ o τ t ∧ o ≠ jump) ∨ (B σ jump τ t ∧ o = .normal)

/-- Rounds for as long as they end normally, and then the end. -/
inductive rounds (round done : Behaviour α) : Behaviour α
  | done {σ τ : Store α} {o : Outcome} {t : List (Visit α)} : done σ o τ t → rounds round done σ o τ t
  | again {σ ρ τ : Store α} {o : Outcome} {t u : List (Visit α)} :
      round σ .normal ρ t → rounds round done ρ o τ u → rounds round done σ o τ (t ++ u)
  | exit {σ τ : Store α} {o : Outcome} {t : List (Visit α)} :
      o ≠ .normal → round σ o τ t → rounds round done σ o τ t

/-! ### Triples -/

/-- What holds when control leaves in one of three ways. Nothing is asked of the others. -/
structure Post (α : Type) where
  normal : Store α → Prop
  broken : Store α → Prop
  continued : Store α → Prop

def Post.Holds (Q : Post α) : Outcome → Store α → Prop
  | .normal, τ => Q.normal τ
  | .broken, τ => Q.broken τ
  | .continued, τ => Q.continued τ
  | .returned, _ | .cut, _ => True

/-- From a store with the first property all claims on the way are right, and the outcome is as said. -/
def Ensures (P : Store α → Prop) (B : Behaviour α) (Q : Post α) : Prop :=
  ∀ σ o τ t, P σ → B σ o τ t → Q.Holds o τ ∧ ∀ v ∈ t, v.Good

/-- All executions relate the stores this way. -/
def Within (R : Store α → Store α → Prop) (B : Behaviour α) : Prop := ∀ σ o τ t, B σ o τ t → R σ τ

section Rules

variable {P P' M : Store α → Prop} {Q Q' : Post α} {B C : Behaviour α} {R : Store α → Store α → Prop}

theorem Ensures.imp (h : Ensures P B Q) (hP : ∀ σ, P' σ → P σ) (hQ : ∀ o τ, Q.Holds o τ → Q'.Holds o τ) :
    Ensures P' B Q' := by
  intro σ o τ t hσ hB
  obtain ⟨post, good⟩ := h σ o τ t (hP σ hσ) hB
  exact ⟨hQ o τ post, good⟩

theorem ensures_idle (h : ∀ σ, P σ → Q.normal σ) : Ensures P idle Q := by
  rintro σ _ _ _ hσ ⟨rfl, rfl, rfl⟩
  exact ⟨h _ hσ, nofun⟩

theorem ensures_look {k : Option Knowledge} (known : ∀ σ, P σ → Visit.Good ⟨k, σ⟩) (h : ∀ σ, P σ → Q.normal σ) :
    Ensures P (look k) Q := by
  rintro σ _ _ _ hσ ⟨rfl, rfl, rfl⟩
  refine ⟨h _ hσ, fun v hv => ?_⟩
  rw [List.mem_singleton.mp hv]
  exact known _ hσ

theorem ensures_change (h : ∀ σ τ, P σ → R σ τ → Q.normal τ) : Ensures P (change R) Q := by
  rintro σ _ τ _ hσ ⟨rfl, ⟨rfl, hR⟩ | ⟨rfl, rfl⟩⟩
  · exact ⟨h σ τ hσ hR, nofun⟩
  · exact ⟨trivial, nofun⟩

theorem ensures_jump {way : Outcome} (h : ∀ σ, P σ → Q.Holds way σ) : Ensures P (jump way) Q := by
  rintro σ _ _ _ hσ ⟨rfl, rfl, rfl⟩
  exact ⟨h _ hσ, nofun⟩

theorem Ensures.andThen (hB : Ensures P B { Q with normal := M }) (hC : Ensures M C Q) : Ensures P (B.andThen C) Q := by
  intro σ o τ t hσ h
  cases h with
  | both b c =>
    obtain ⟨mid, good⟩ := hB _ _ _ _ hσ b
    obtain ⟨post, good'⟩ := hC _ _ _ _ mid c
    refine ⟨post, fun v hv => ?_⟩
    rcases List.mem_append.mp hv with hv | hv
    · exact good v hv
    · exact good' v hv
  | first abrupt b =>
    obtain ⟨post, good⟩ := hB _ _ _ _ hσ b
    refine ⟨?_, good⟩
    cases o with
    | normal => exact absurd rfl abrupt
    | _ => exact post

theorem Ensures.either (hB : Ensures P B Q) (hC : Ensures P C Q) : Ensures P (B.either C) Q := by
  rintro σ o τ t hσ (h | h)
  · exact hB σ o τ t hσ h
  · exact hC σ o τ t hσ h

theorem Ensures.catchBreak (hB : Ensures P B { Q with broken := Q.normal }) : Ensures P (catching .broken B) Q := by
  rintro σ o τ t hσ (⟨h, other⟩ | ⟨h, rfl⟩)
  · obtain ⟨post, good⟩ := hB σ o τ t hσ h
    refine ⟨?_, good⟩
    cases o with
    | broken => exact absurd rfl other
    | _ => exact post
  · exact hB σ .broken τ t hσ h

theorem Ensures.catchContinue (hB : Ensures P B { Q with continued := Q.normal }) :
    Ensures P (catching .continued B) Q := by
  rintro σ o τ t hσ (⟨h, other⟩ | ⟨h, rfl⟩)
  · obtain ⟨post, good⟩ := hB σ o τ t hσ h
    refine ⟨?_, good⟩
    cases o with
    | continued => exact absurd rfl other
    | _ => exact post
  · exact hB σ .continued τ t hσ h

/-- What a round keeps holds before every round. -/
theorem Ensures.rounds (hB : Ensures M B { Q with normal := M }) (hC : Ensures M C Q) : Ensures M (B.rounds C) Q := by
  intro σ o τ t hσ h
  induction h with
  | done c => exact hC _ _ _ _ hσ c
  | again b _ ih =>
    obtain ⟨kept, good⟩ := hB _ _ _ _ hσ b
    obtain ⟨post, good'⟩ := ih kept
    refine ⟨post, fun v hv => ?_⟩
    rcases List.mem_append.mp hv with hv | hv
    · exact good v hv
    · exact good' v hv
  | @exit _ _ o _ abrupt b =>
    obtain ⟨post, good⟩ := hB _ _ _ _ hσ b
    refine ⟨?_, good⟩
    cases o with
    | normal => exact absurd rfl abrupt
    | _ => exact post

/-- What follows from the relation between first and last store holds on normal ends too. -/
theorem Ensures.withinNormal (hB : Ensures P B Q) (hR : B.Within R) (h : ∀ σ τ, P σ → R σ τ → M τ) :
    Ensures P B { Q with normal := fun τ => Q.normal τ ∧ M τ } := by
  intro σ o τ t hσ hb
  obtain ⟨post, good⟩ := hB σ o τ t hσ hb
  refine ⟨?_, good⟩
  cases o with
  | normal => exact ⟨post, h σ τ hσ (hR σ .normal τ t hb)⟩
  | _ => exact post

end Rules

section Within

variable {B C : Behaviour α} {R S : Store α → Store α → Prop}

theorem within_idle (refl : ∀ σ, R σ σ) : Within R idle := by
  rintro σ _ _ _ ⟨-, rfl, -⟩
  exact refl _

theorem within_look (refl : ∀ σ, R σ σ) (k : Option Knowledge) : Within R (look k) := by
  rintro σ _ _ _ ⟨-, rfl, -⟩
  exact refl _

theorem within_jump (refl : ∀ σ, R σ σ) (way : Outcome) : Within R (jump way) := by
  rintro σ _ _ _ ⟨-, rfl, -⟩
  exact refl _

theorem within_change (refl : ∀ σ, R σ σ) (h : ∀ σ τ, S σ τ → R σ τ) : Within R (change S) := by
  rintro σ _ τ _ ⟨-, ⟨-, hS⟩ | ⟨-, rfl⟩⟩
  · exact h σ τ hS
  · exact refl _

theorem Within.andThen (trans : ∀ σ ρ τ, R σ ρ → R ρ τ → R σ τ) (hB : Within R B) (hC : Within R C) :
    Within R (B.andThen C) := by
  intro σ o τ t h
  cases h with
  | both b c => exact trans _ _ _ (hB _ _ _ _ b) (hC _ _ _ _ c)
  | first _ b => exact hB _ _ _ _ b

theorem Within.either (hB : Within R B) (hC : Within R C) : Within R (B.either C) := by
  rintro σ o τ t (h | h)
  · exact hB σ o τ t h
  · exact hC σ o τ t h

theorem Within.catching (hB : Within R B) (j : Outcome) : Within R (catching j B) := by
  rintro σ o τ t (⟨h, -⟩ | ⟨h, -⟩)
  · exact hB σ o τ t h
  · exact hB σ j τ t h

theorem Within.rounds (trans : ∀ σ ρ τ, R σ ρ → R ρ τ → R σ τ) (hB : Within R B) (hC : Within R C) :
    Within R (B.rounds C) := by
  intro σ o τ t h
  induction h with
  | done c => exact hC _ _ _ _ c
  | again b _ ih => exact trans _ _ _ (hB _ _ _ _ b) ih
  | exit _ b => exact hB _ _ _ _ b

end Within

end Behaviour

/-! ## Executions of statements -/

section Executions

variable {α : Type}

/-- What a simple statement does to a store. -/
abbrev Steps (α : Type) := Stmt → Store α → Store α → Prop

open Behaviour

/-- A condition is evaluated where the statement is entered. -/
def Expr.tested (symbols : Symbols) (i : StmtInfo) (c : Expr) (result : Bool) : Behaviour α :=
  (look i.before).andThen (change (c.Evaluates symbols result))

/-- A loop that tests its condition before every round. -/
def Expr.repeating (symbols : Symbols) (i : StmtInfo) (c : Expr) (round : Behaviour α) : Behaviour α :=
  ((c.tested symbols i true).andThen round).rounds (c.tested symbols i false)

mutual

/-- The executions of a statement. -/
def Stmt.behaviour (symbols : Symbols) (step : Steps α) : Stmt → Behaviour α
  | .ifThen i c t none =>
    (((c.tested symbols i true).andThen (t.behaviour symbols step)).either (c.tested symbols i false)).andThen
      (look i.after)
  | .ifThen i c t (some e) =>
    (((c.tested symbols i true).andThen (t.behaviour symbols step)).either
      ((c.tested symbols i false).andThen (e.behaviour symbols step))).andThen (look i.after)
  | .whileLoop i c b =>
    (catching .broken (c.repeating symbols i (catching .continued (b.behaviour symbols step)))).andThen (look i.after)
  | .doWhile i b c =>
    (catching .broken ((catching .continued (b.behaviour symbols step)).andThen
      (c.repeating symbols i (catching .continued (b.behaviour symbols step))))).andThen (look i.after)
  | .forLoop i a c u b =>
    let first := match a with
      | none => idle
      | some s => s.behaviour symbols step
    let last := match u with
      | none => idle
      | some s => s.behaviour symbols step
    (first.andThen (catching .broken (c.repeating symbols i
      ((catching .continued (b.behaviour symbols step)).andThen last)))).andThen (look i.after)
  | .breakLoop i => ((look i.before).andThen (look i.after)).andThen (jump .broken)
  | .continueLoop i => ((look i.before).andThen (look i.after)).andThen (jump .continued)
  | .ret i _ => ((look i.before).andThen (look i.after)).andThen (jump .returned)
  | .block b => b.behaviour symbols step
  | .seq i ss _ => ((look i.before).andThen (Stmt.behaviourAll symbols step ss)).andThen (look i.after)
  | .comment _ | .blank => idle
  | s => ((look s.info.before).andThen (change (step s))).andThen (look s.info.after)

def Block.behaviour (symbols : Symbols) (step : Steps α) : Block → Behaviour α
  | ⟨i, ss, _⟩ => ((look i.before).andThen (Stmt.behaviourAll symbols step ss)).andThen (look i.after)

def Stmt.behaviourAll (symbols : Symbols) (step : Steps α) : List Stmt → Behaviour α
  | [] => idle
  | s :: ss => (s.behaviour symbols step).andThen (Stmt.behaviourAll symbols step ss)

end

/-- The executions of a part that may be missing. -/
def Stmt.behaviour? (symbols : Symbols) (step : Steps α) (a : Option Stmt) : Behaviour α :=
  (a.map (Stmt.behaviour symbols step)).getD idle

theorem Stmt.behaviour_forLoop (symbols : Symbols) (step : Steps α) (i : StmtInfo) (a : Option Stmt) (c : Expr)
    (u : Option Stmt) (b : Block) :
    (Stmt.forLoop i a c u b).behaviour symbols step =
      ((behaviour? symbols step a).andThen (catching .broken (c.repeating symbols i
        ((catching .continued (b.behaviour symbols step)).andThen (behaviour? symbols step u))))).andThen
      (look i.after) := by
  cases a <;> cases u <;> rfl

/-! ### What executions leave alone -/

variable {symbols : Symbols} {step : Steps α} {R : Store α → Store α → Prop} {P : Node → Prop}

/-- What simple statements and conditions do to the store, all executions do. `P` tells apart the nodes that matter. -/
theorem Stmt.behaviour_within (refl : ∀ σ, R σ σ) (trans : ∀ σ ρ τ, R σ ρ → R ρ τ → R σ τ)
    (simple : ∀ s : Stmt, (∀ n ∈ s.nodes, P n) → ∀ σ τ, step s σ τ → R σ τ)
    (condition : ∀ c : Expr, (∀ n ∈ c.nodes, P n) → ∀ r σ τ, c.Evaluates symbols r σ τ → R σ τ)
    (s : Stmt) (hs : ∀ n ∈ s.nodes, P n) : Within R (s.behaviour symbols step) := by
  have all (ss : List Stmt) (ih : ∀ s ∈ ss, (∀ n ∈ s.nodes, P n) → Within R (s.behaviour symbols step))
      (hss : ∀ n ∈ Stmt.nodesAll ss, P n) : Within R (Stmt.behaviourAll symbols step ss) := by
    induction ss with
    | nil => exact within_idle refl
    | cons s ss hind =>
      rw [Stmt.nodesAll] at hss
      refine .andThen trans (ih s List.mem_cons_self fun n hn => hss n (List.mem_append_left _ hn)) ?_
      exact hind (fun t ht => ih t (List.mem_cons_of_mem _ ht)) fun n hn => hss n (List.mem_append_right _ hn)
  have body (b : Block) (ih : ∀ s ∈ b.stmts, (∀ n ∈ s.nodes, P n) → Within R (s.behaviour symbols step))
      (hb : ∀ n ∈ b.nodes, P n) : Within R (b.behaviour symbols step) := by
    obtain ⟨i, ss, x⟩ := b
    rw [Block.nodes] at hb
    refine .andThen trans (.andThen trans (within_look refl _) (all ss ih fun n hn => ?_)) (within_look refl _)
    exact hb n (List.mem_cons_of_mem _ hn)
  have part (a : Option Stmt)
      (ih : ∀ s, a = some s → (∀ n ∈ s.nodes, P n) → Within R (s.behaviour symbols step))
      (ha : ∀ n ∈ (a.map Stmt.nodes).getD [], P n) : Within R (Stmt.behaviour? symbols step a) := by
    cases a with
    | none => exact within_idle refl
    | some s => exact ih s rfl ha
  have test (i : StmtInfo) (c : Expr) (r : Bool) (hc : ∀ n ∈ c.nodes, P n) : Within R (c.tested symbols i r) :=
    .andThen trans (within_look refl _) (within_change refl (condition c hc r))
  have loop (i : StmtInfo) (c : Expr) {B : Behaviour α} (hc : ∀ n ∈ c.nodes, P n) (hB : Within R B) :
      Within R (c.repeating symbols i B) :=
    .rounds trans (.andThen trans (test i c true hc) hB) (test i c false hc)
  have final {B : Behaviour α} (i : StmtInfo) (hB : Within R B) : Within R (B.andThen (look i.after)) :=
    .andThen trans hB (within_look refl _)
  induction s using Stmt.inductOn with
  | ifThen i c t e ht he =>
    cases e with
    | none =>
      simp only [Stmt.nodes, List.mem_cons, List.mem_append] at hs
      exact final i (.either (.andThen trans (test i c true (by grind)) (body t ht (by grind)))
        (test i c false (by grind)))
    | some e =>
      simp only [Stmt.nodes, List.mem_cons, List.mem_append] at hs
      exact final i (.either (.andThen trans (test i c true (by grind)) (body t ht (by grind)))
        (.andThen trans (test i c false (by grind)) (body e (he e rfl) (by grind))))
  | whileLoop i c b hb =>
    simp only [Stmt.nodes, List.mem_cons, List.mem_append] at hs
    exact final i (.catching (loop i c (by grind) (.catching (body b hb (by grind)) _)) _)
  | doWhile i b c hb =>
    simp only [Stmt.nodes, List.mem_cons, List.mem_append] at hs
    have hB := (body b hb (by grind)).catching .continued
    exact final i (.catching (.andThen trans hB (loop i c (by grind) hB)) _)
  | forLoop i a c u b ha hu hb =>
    simp only [Stmt.nodes_forLoop, List.mem_cons, List.mem_append] at hs
    have hB := (body b hb (by grind)).catching .continued
    rw [Stmt.behaviour_forLoop]
    exact final i (.andThen trans (part a ha (by grind))
      (.catching (loop i c (by grind) (.andThen trans hB (part u hu (by grind)))) _))
  | block b hb => exact body b hb hs
  | seq i ss x hss =>
    simp only [Stmt.nodes, List.mem_cons] at hs
    exact final i (.andThen trans (within_look refl _) (all ss hss (by grind)))
  | simple s h =>
    cases s with
    | breakLoop i | continueLoop i | ret i =>
      exact .andThen trans (.andThen trans (within_look refl _) (within_look refl _)) (within_jump refl _)
    | comment | blank => exact within_idle refl
    | eval i | require i | assign i | declare i | compute i | enterKey i =>
      exact .andThen trans (.andThen trans (within_look refl _) (within_change refl (simple _ hs))) (within_look refl _)
    | ifThen | whileLoop | doWhile | forLoop | block | seq => cases h

/-! ### Code without side effects -/

/-- The node itself has no side effects. -/
def Node.Quiet (symbols : Symbols) : Node → Prop
  | .stmt (.assign ..) => False
  | .expr e => symbols.callHasEffects e = .ok (some false)
  | _ => True

theorem Symbols.haveEffects_of_quiet {n : Node} (ns : List Node) (hn : n.Quiet symbols) :
    symbols.haveEffects (n :: ns) = symbols.haveEffects ns := by
  have rest : (do let here ← .ok false; let rest ← symbols.haveEffects ns; return here || rest) =
      symbols.haveEffects ns := by
    cases symbols.haveEffects ns <;> rfl
  rw [haveEffects.eq_def]
  cases n with
  | stmt s =>
    cases s with
    | assign => cases hn
    | _ => exact rest
  | expr e =>
    have hn : symbols.callHasEffects e = .ok (some false) := hn
    simp only [hn]
    exact rest
  | _ => exact rest

theorem Symbols.quiet_of_haveEffects {n : Node} {ns : List Node} (h : symbols.haveEffects (n :: ns) = .ok false) :
    n.Quiet symbols := by
  rw [haveEffects.eq_def] at h
  obtain ⟨here, hn, h⟩ := except_bind_ok h
  obtain ⟨rest, -, h⟩ := except_bind_ok h
  have nothing : here = false := by
    cases here with
    | true => cases h
    | false => rfl
  subst nothing
  cases n with
  | stmt s =>
    cases s with
    | assign => cases hn
    | _ => trivial
  | expr e =>
    obtain ⟨found, hf, hn⟩ := except_bind_ok hn
    cases found with
    | some b =>
      cases hn
      exact hf
    | none =>
      -- A call of unknown effect counts only together with effects in its parts.
      obtain ⟨parts, -, hn⟩ := except_bind_ok hn
      cases parts <;> cases hn
  | _ => trivial

/-- Code has no side effects if none of its nodes has. -/
theorem Symbols.haveEffects_false {ns : List Node} :
    symbols.haveEffects ns = .ok false ↔ ∀ n ∈ ns, n.Quiet symbols := by
  induction ns with
  | nil =>
    rw [haveEffects]
    exact ⟨fun _ _ hn => (List.not_mem_nil hn).elim, fun _ => rfl⟩
  | cons n ns ih =>
    rw [List.forall_mem_cons, ← ih]
    constructor
    · intro h
      have hn := quiet_of_haveEffects h
      rw [haveEffects_of_quiet ns hn] at h
      exact ⟨hn, h⟩
    · rintro ⟨hn, h⟩
      rw [haveEffects_of_quiet ns hn, h]

/-- What is expected of the simple statements among the nodes: the fixed labels that hold something keep it; without
side effects only the declared variable changes; what is known before leads to what is known after. -/
structure Lawful (symbols : Symbols) (step : Steps α) (ns : List Node) : Prop where
  keeps : ∀ s, .stmt s ∈ ns → ∀ σ τ, step s σ τ → σ.Keeps symbols τ
  framed : ∀ s, .stmt s ∈ ns → s.hasEffects symbols = .ok false → ∀ σ τ, step s σ τ → σ.Framed s.numbers τ
  sound : ∀ s, .stmt s ∈ ns → ∀ p q, s.info.before = some p → s.info.after = some q → ∀ σ τ, step s σ τ →
    σ.Meets p → τ.Meets q

theorem Stmt.mem_nodes (s : Stmt) : .stmt s ∈ s.nodes := by
  cases s with
  | ifThen _ _ _ e => cases e <;> simp [Stmt.nodes]
  | forLoop => simp [Stmt.nodes_forLoop]
  | block b =>
    obtain ⟨i, ss, x⟩ := b
    simp [Stmt.nodes, Block.nodes]
  | _ => simp [Stmt.nodes]

theorem Stmt.mem_numbers {s : Stmt} {i : Nat} : i ∈ s.numbers ↔ ∃ v, .localVar v ∈ s.nodes ∧ v.id = i := by
  unfold Stmt.numbers Node.locals
  simp only [List.mem_map, List.mem_filterMap]
  constructor
  · rintro ⟨v, ⟨n, hn, hv⟩, rfl⟩
    split at hv
    · cases hv
      exact ⟨v, hn, rfl⟩
    · cases hv
  · rintro ⟨v, hv, rfl⟩
    exact ⟨v, ⟨_, hv, rfl⟩, rfl⟩

/-- Nothing is known about the variables with these numbers. -/
def Knowledge.SilentOn (k : Knowledge) (ids : List Nat) : Prop :=
  ∀ x y, k.Linked x y → x = y ∨ ∀ i ∈ ids, Store.localId? x ≠ some i

/-- Simple statements and conditions that consist of these nodes keep what is known. -/
structure Knowledge.StaysIn (symbols : Symbols) (step : Steps α) (k : Knowledge) (ns : List Node) : Prop where
  simple : ∀ s : Stmt, (∀ n ∈ s.nodes, n ∈ ns) → ∀ σ τ, step s σ τ → σ.Meets k → τ.Meets k
  condition : ∀ c : Expr, (∀ n ∈ c.nodes, n ∈ ns) → ∀ r (σ τ : Store α), c.Evaluates symbols r σ τ → σ.Meets k →
    τ.Meets k

/-- The second list has no side effects if the first has none, and its local variables have these numbers. -/
structure Node.Follow (symbols : Symbols) (ns ns' : List Node) (ids : List Nat) : Prop where
  quiet : (∀ n ∈ ns, n.Quiet symbols) → ∀ n ∈ ns', n.Quiet symbols
  own : ∀ v, .localVar v ∈ ns' → v.id ∈ ids

theorem Node.Follow.append {ns ns' ms ms' : List Node} {ids ids' : List Nat} (h : Node.Follow symbols ns ns' ids)
    (h' : Node.Follow symbols ms ms' ids') : Node.Follow symbols (ns ++ ms) (ns' ++ ms') (ids ++ ids') := by
  refine ⟨fun quiet n hn => ?_, fun v hv => ?_⟩
  · rcases List.mem_append.mp hn with hn | hn
    · exact h.quiet (fun n hn => quiet n (List.mem_append_left _ hn)) n hn
    · exact h'.quiet (fun n hn => quiet n (List.mem_append_right _ hn)) n hn
  · rcases List.mem_append.mp hv with hv | hv
    · exact List.mem_append_left _ (h.own v hv)
    · exact List.mem_append_right _ (h'.own v hv)

theorem Node.follow_expr (c : Expr) : Node.Follow symbols c.nodes c.nodes [] := by
  refine ⟨fun h => h, fun v hv => ?_⟩
  have found : v ∈ Node.locals c.nodes := List.mem_filterMap.mpr ⟨_, hv, rfl⟩
  rw [Expr.locals_nodes] at found
  cases found

/-- What is known past the side effects of some code stays known in it: either it is about fixed labels, or the code
changes only variables of its own. -/
theorem Knowledge.past_stays {k k' : Knowledge} {parts : List (List Node)} {ns : List Node} {ids : List Nat}
    (h : k.past symbols parts = .ok k') (lawful : Lawful symbols step ns)
    (follow : Node.Follow symbols parts.flatten ns ids) (silent : k'.SilentOn ids) : k'.StaysIn symbols step ns := by
  rcases Knowledge.past_cases h with rfl | ⟨rfl, none⟩
  · refine ⟨fun s hs σ τ hστ hσ => ?_, fun c _ r σ τ hστ hσ => hσ.kept hστ.keeps⟩
    exact hσ.kept (lawful.keeps s (hs _ s.mem_nodes) σ τ hστ)
  · have quiet : ∀ n ∈ ns, n.Quiet symbols := by
      refine follow.quiet fun n hn => ?_
      obtain ⟨p, hp, hn⟩ := List.mem_flatten.mp hn
      exact Symbols.haveEffects_false.mp (none p hp) n hn
    constructor
    · intro s hs σ τ hστ hσ
      have effects := Symbols.haveEffects_false.mpr fun n hn => quiet n (hs n hn)
      refine hσ.framed (lawful.framed s (hs _ s.mem_nodes) effects σ τ hστ) fun x y hl => ?_
      refine (silent x y hl).imp_right fun apart i hi => apart i ?_
      obtain ⟨v, hv, rfl⟩ := Stmt.mem_numbers.mp hi
      exact follow.own v (hs _ hv)
    · intro c hc r σ τ hστ hσ
      rcases hστ with ⟨-, rfl, -⟩ | ⟨effects, -⟩
      · exact hσ
      · exact absurd (Symbols.haveEffects_false.mpr fun n hn => quiet n (hc n hn)) effects

/-- What stays known in the code of a statement is known wherever control leaves it. -/
theorem Knowledge.StaysIn.behaviour {k : Knowledge} {ns : List Node} (h : k.StaysIn symbols step ns) (s : Stmt)
    (hs : ∀ n ∈ s.nodes, n ∈ ns) : Within (fun σ τ => σ.Meets k → τ.Meets k) (s.behaviour symbols step) :=
  s.behaviour_within (fun _ h => h) (fun _ _ _ h h' hσ => h' (h hσ)) h.simple h.condition hs

theorem Knowledge.StaysIn.behaviour? {k : Knowledge} {ns : List Node} (h : k.StaysIn symbols step ns)
    (a : Option Stmt) (ha : ∀ n ∈ (a.map Stmt.nodes).getD [], n ∈ ns) :
    Within (fun σ τ => σ.Meets k → τ.Meets k) (Stmt.behaviour? symbols step a) := by
  cases a with
  | none => exact within_idle fun _ h => h
  | some s => exact h.behaviour s ha

end Executions

end Shroud
