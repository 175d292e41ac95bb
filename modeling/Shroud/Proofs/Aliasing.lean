import Mathlib.Data.List.Nodup
import Shroud.Proofs.AliasMarks
import Shroud.Proofs.CallGraph
import Shroud.Proofs.Sketch

/-!
# What statements claim to be known

Every statement is marked with what is known before and after it about labels that hold the same address. The claims
are checked against all executions (`Block.Upheld`).

**Loops.** There is one pass and no fixed point. Before a loop with side effects all that they may change is forgotten,
so that what is left holds before every round; a loop without side effects changes only variables of its own body.

**Where the claims are wrong.** A break leaves a loop although its condition is true, while the loop claims that it is
false (`leaving_not_upheld`). A jump to the end of a body skips what the last statements of the body establish. A branch
that is skipped leaves the side effects of its condition behind. If the marks account for these three
(`Stmt.isFaithful`), all claims are right (`SourceUnit.markAliases_upheld`).
-/

namespace Shroud

/-! ## Marks that account for jumps -/

mutual

/-- What is known where control leaves the statement by a jump of this kind. -/
def Stmt.jumps (way : Outcome) : Stmt → List Knowledge
  | .ifThen _ _ t none => t.jumps way
  | .ifThen _ _ t (some e) => t.jumps way ++ e.jumps way
  | .breakLoop i => if way = .broken then i.before.toList else []
  | .continueLoop i => if way = .continued then i.before.toList else []
  | .block b => b.jumps way
  | .seq _ ss _ => Stmt.jumpsAll way ss
  | _ => []

def Block.jumps (way : Outcome) : Block → List Knowledge
  | ⟨_, ss, _⟩ => Stmt.jumpsAll way ss

def Stmt.jumpsAll (way : Outcome) : List Stmt → List Knowledge
  | [] => []
  | s :: ss => s.jumps way ++ Stmt.jumpsAll way ss

end

/-- All that is claimed follows from what is known. -/
def Knowledge.covers (k : Knowledge) (claimed : Option Knowledge) : Bool := claimed.all fun q => k.entails q

/-- Nothing is known about the variables with these numbers. -/
def Knowledge.isSilentOn (k : Knowledge) (ids : List Nat) : Bool :=
  k.classes.all fun c => c.all fun x => c.all fun y => x == y || !(ids.any fun i => Store.localId? x == some i)

/-- A condition that is found to have no side effects. -/
def Expr.isQuiet (symbols : Symbols) (c : Expr) : Bool := (c.hasEffects symbols).toOption == some false

mutual

/-- The marks account for all ways through the statement: a jump leads to where no more is claimed than was known at
the jump, and a branch that is skipped claims nothing that the side effects of its condition may have changed. The head
of a loop is made of simple statements, and nothing is known about what its update declares. -/
def Stmt.isFaithful (symbols : Symbols) : Stmt → Bool
  | .ifThen i c t none =>
    t.isFaithful symbols && (c.isQuiet symbols || i.before.all fun k : Knowledge => (k.havoc symbols).covers i.after)
  | .ifThen _ _ t (some e) => t.isFaithful symbols && e.isFaithful symbols
  | .whileLoop i _ b => b.isFaithful symbols && (b.jumps .broken).all (·.covers i.after)
  | .doWhile i b _ =>
    b.isFaithful symbols && (b.jumps .broken).all (·.covers i.after) && (b.jumps .continued).all (·.covers b.info.after)
  | .forLoop i a _ u b =>
    b.isFaithful symbols && (b.jumps .broken).all (·.covers i.after) &&
      (b.jumps .continued).all (·.covers b.info.after) &&
      a.all Stmt.isSimple && u.all Stmt.isSimple && i.before.all fun k : Knowledge => k.isSilentOn (Stmt.numbers? u)
  | .block b => b.isFaithful symbols
  | .seq _ ss _ => Stmt.areFaithful symbols ss
  | _ => true

def Block.isFaithful (symbols : Symbols) : Block → Bool
  | ⟨_, ss, _⟩ => Stmt.areFaithful symbols ss

def Stmt.areFaithful (symbols : Symbols) : List Stmt → Bool
  | [] => true
  | s :: ss => s.isFaithful symbols && Stmt.areFaithful symbols ss

end

theorem Knowledge.isSilentOn_iff {k : Knowledge} {ids : List Nat} : k.isSilentOn ids = true ↔ k.SilentOn ids := by
  simp only [isSilentOn, SilentOn, Partition.Linked, List.all_eq_true, Bool.or_eq_true, beq_iff_eq, Bool.not_eq_true',
    List.any_eq_false]
  constructor
  · rintro h x y ⟨c, hc, hx, hy⟩
    exact h c hc x hx y hy
  · intro h c hc x hx y hy
    exact h x y ⟨c, hc, hx, hy⟩

theorem Knowledge.covers_some {k claimed : Knowledge} (h : k.covers (some claimed) = true) : claimed.Finer k :=
  Partition.finer_of_entails h

/-- Nothing is known about variables that are not listed. -/
theorem Knowledge.silentOn_of_members {k : Knowledge} {ids : List Nat}
    (h : ∀ x ∈ k.members, ∀ i ∈ ids, Store.localId? x ≠ some i) : k.SilentOn ids := by
  rintro x y ⟨c, hc, hx, -⟩
  exact .inr (h x (Partition.mem_members.mpr ⟨c, hc, hx⟩))

theorem Knowledge.SilentOn.append {k : Knowledge} {ids ids' : List Nat} (h : k.SilentOn ids) (h' : k.SilentOn ids') :
    k.SilentOn (ids ++ ids') := by
  intro x y hl
  rcases h x y hl with heq | hx
  · exact .inl heq
  · rcases h' x y hl with heq | hx'
    · exact .inl heq
    · refine .inr fun i hi => ?_
      rcases List.mem_append.mp hi with hi | hi
      · exact hx i hi
      · exact hx' i hi

/-! ## Executions of marked statements -/

section Sound

open Behaviour

variable {α : Type} {symbols : Symbols} {step : Steps α}

/-- Control ends a piece of code where `after` is known, or jumps from where one of `jumps` is. -/
def Behaviour.Post.known (after : Knowledge) (jumps : Outcome → List Knowledge) : Post α where
  normal τ := τ.Meets after
  broken τ := ∃ q ∈ jumps .broken, τ.Meets q
  continued τ := ∃ q ∈ jumps .continued, τ.Meets q

theorem Behaviour.Ensures.weaken {P : Store α → Prop} {B : Behaviour α} {k k' : Knowledge}
    {jumps jumps' : Outcome → List Knowledge} (h : Ensures P B (.known k jumps)) (hk : k'.Finer k)
    (hj : ∀ way, jumps way ⊆ jumps' way) : Ensures P B (.known k' jumps') := by
  refine h.imp (fun _ h => h) fun o τ hτ => ?_
  cases o with
  | normal => exact Store.Meets.finer hτ hk
  | broken =>
    obtain ⟨q, hq, hτ⟩ := hτ
    exact ⟨q, hj _ hq, hτ⟩
  | continued =>
    obtain ⟨q, hq, hτ⟩ := hτ
    exact ⟨q, hj _ hq, hτ⟩
  | returned | cut => trivial

theorem Behaviour.Ensures.followed {P : Store α → Prop} {B C : Behaviour α} {k k' : Knowledge}
    {jumps jumps' : Outcome → List Knowledge} (hB : Ensures P B (.known k jumps))
    (hC : Ensures (·.Meets k) C (.known k' jumps')) :
    Ensures P (B.andThen C) (.known k' fun way => jumps way ++ jumps' way) := by
  have hB : Ensures P B (.known k fun way => jumps way ++ jumps' way) :=
    hB.weaken (.refl k) fun way => List.subset_append_left _ _
  have hC : Ensures (·.Meets k) C (.known k' fun way => jumps way ++ jumps' way) :=
    hC.weaken (.refl k') fun way => List.subset_append_right _ _
  exact .andThen hB hC

theorem Behaviour.ensures_tested {P : Store α → Prop} {Q : Post α} {i : StmtInfo} {c : Expr} {r : Bool}
    (known : ∀ σ, P σ → Visit.Good ⟨i.before, σ⟩) (h : ∀ σ τ, P σ → c.Evaluates symbols r σ τ → Q.normal τ) :
    Ensures P (c.tested symbols i r) Q :=
  .andThen (ensures_look known fun _ h => h) (ensures_change h)

/-- The claim is the one that was made. -/
theorem Visit.good_some {σ : Store α} {k : Knowledge} (h : σ.Meets k) : Visit.Good ⟨some k, σ⟩ := by
  rintro _ ⟨⟩
  exact h

/-- Executions of marked code end where what is claimed afterwards holds. -/
theorem Behaviour.ensures_left {P : Store α → Prop} {B : Behaviour α} {after : Knowledge}
    {jumps : Outcome → List Knowledge} {i : StmtInfo} (h : Ensures P B (.known after jumps))
    (hi : i.after = some after) : Ensures P (B.andThen (look i.after)) (.known after jumps) := by
  rw [hi]
  exact .andThen h (ensures_look (fun _ h => Visit.good_some h) fun _ h => h)

/-! ### Loops -/

/-- Control ends a round as said or leaves the loop where `after` is known. -/
def Behaviour.Post.inLoop (inside : Store α → Prop) (after : Knowledge) : Post α where
  normal := inside
  broken τ := τ.Meets after
  continued _ := False

variable {P I : Store α → Prop} {B : Behaviour α} {i : StmtInfo} {c : Expr} {after : Knowledge}

/-- The body of a loop: a break is covered by what is claimed after the loop. -/
theorem Behaviour.Ensures.inLoop {k : Knowledge} {jumps : Outcome → List Knowledge} (h : Ensures P B (.known k jumps))
    (breaks : ∀ q ∈ jumps .broken, after.Finer q) (continues : ∀ q ∈ jumps .continued, ∀ τ : Store α, τ.Meets q → I τ)
    (normal : ∀ τ : Store α, τ.Meets k → I τ) : Ensures P (catching .continued B) (.inLoop I after) := by
  refine .catchContinue (h.imp (fun _ h => h) fun o τ hτ => ?_)
  cases o with
  | normal => exact normal τ hτ
  | broken =>
    obtain ⟨q, hq, hτ⟩ := hτ
    exact hτ.finer (breaks q hq)
  | continued =>
    obtain ⟨q, hq, hτ⟩ := hτ
    exact continues q hq τ hτ
  | returned | cut => trivial

/-- A loop: the invariant holds wherever the condition is evaluated. -/
theorem Behaviour.Ensures.repeating (known : ∀ σ, I σ → Visit.Good ⟨i.before, σ⟩)
    (test : ∀ σ τ, I σ → c.Evaluates symbols true σ τ → P τ)
    (done : ∀ σ τ, I σ → c.Evaluates symbols false σ τ → τ.Meets after) (round : Ensures P B (.inLoop I after)) :
    Ensures I (c.repeating symbols i B) (.inLoop (·.Meets after) after) :=
  .rounds (.andThen (ensures_tested known test) round) (ensures_tested known done)

/-- Breaks end a loop. -/
theorem Behaviour.Ensures.caught (h : Ensures P B (.inLoop (·.Meets after) after)) :
    Ensures P (catching .broken B) (.known after fun _ => []) := by
  refine .catchBreak (h.imp (fun _ h => h) fun o τ hτ => ?_)
  cases o with
  | continued => cases hτ
  | _ => exact hτ

/-! ### All statements -/

theorem Lawful.mono {ns ms : List Node} (h : Lawful symbols step ns) (sub : ∀ n ∈ ms, n ∈ ns) :
    Lawful symbols step ms where
  keeps s hs := h.keeps s (sub _ hs)
  framed s hs := h.framed s (sub _ hs)
  sound s hs := h.sound s (sub _ hs)

/-- The variables of the statement have different numbers, and only those that it declares for the block around it may
be listed already. -/
structure Stmt.Apart (k : Knowledge) (s : Stmt) : Prop where
  distinct : s.numbers.Nodup
  fresh : ∀ x ∈ k.members, ∀ i ∈ s.numbers, Store.localId? x = some i → i ∈ s.declared.map (·.id)

structure Block.Apart (k : Knowledge) (b : Block) : Prop where
  distinct : b.numbers.Nodup
  fresh : ∀ x ∈ k.members, ∀ i ∈ b.numbers, Store.localId? x ≠ some i

theorem Block.Apart.mono {b : Block} {k k' : Knowledge} (h : b.Apart k) (sub : k'.members ⊆ k.members) : b.Apart k' :=
  ⟨h.distinct, fun x hx => h.fresh x (sub hx)⟩

theorem Block.Apart.silent {b : Block} {k : Knowledge} (h : b.Apart k) : k.SilentOn b.numbers :=
  Knowledge.silentOn_of_members h.fresh

/-- Executions of a marked statement are as claimed. -/
abbrev Stmt.IsSound (symbols : Symbols) (step : Steps α) (s : Stmt) : Prop :=
  ∀ k s', s.markAliases symbols k = .ok s' → s.Apart k → s'.isFaithful symbols = true → Lawful symbols step s'.nodes →
    Ensures (·.Meets k) (s'.behaviour symbols step) (.known (s'.info.after.getD k) (s'.jumps ·))

theorem Stmt.markAliasesAll_ensures {ss : List Stmt} (ih : ∀ s ∈ ss, s.IsSound symbols step) {k : Knowledge}
    {ss' : List Stmt} {after : Knowledge} (h : Stmt.markAliasesAll symbols k ss = .ok (ss', after))
    (distinct : (ss.flatMap Stmt.numbers).Nodup)
    (fresh : ∀ x ∈ k.members, ∀ i ∈ ss.flatMap Stmt.numbers, Store.localId? x = some i →
      i ∈ (Stmt.declaredAll ss).map (·.id))
    (faithful : Stmt.areFaithful symbols ss' = true) (lawful : Lawful symbols step (Stmt.nodesAll ss')) :
    Ensures (·.Meets k) (Stmt.behaviourAll symbols step ss') (.known after (Stmt.jumpsAll · ss')) := by
  induction ss generalizing k ss' with
  | nil =>
    cases h
    exact ensures_idle fun _ h => h
  | cons s ss hss =>
    obtain ⟨s', rest, hs, hr, rfl⟩ := Stmt.markAliasesAll_cons h
    rw [List.flatMap_cons] at distinct fresh
    obtain ⟨distinctFirst, distinctRest, disjoint⟩ := List.nodup_append.mp distinct
    simp only [Stmt.areFaithful, Bool.and_eq_true] at faithful
    simp only [Stmt.declaredAll, List.map_append, List.mem_append] at fresh
    have marked := Stmt.markAliases_marked s k s' hs
    have declaredHere := s.declared_numbers
    have declaredLater := Stmt.declaredAll_numbers ss
    have first : Ensures (·.Meets k) (s'.behaviour symbols step) (.known (s'.info.after.getD k) (s'.jumps ·)) := by
      refine ih s List.mem_cons_self k s' hs ⟨distinctFirst, fun x hx i hi hid => ?_⟩ faithful.1
        (lawful.mono fun n hn => List.mem_append_left _ hn)
      rcases fresh x hx i (.inl hi) hid with hd | hd
      · exact hd
      · exact absurd rfl (disjoint i hi i (declaredLater hd))
    have later : Ensures (·.Meets (s'.info.after.getD k)) (Stmt.behaviourAll symbols step rest)
        (.known after (Stmt.jumpsAll · rest)) := by
      refine hss (fun t ht => ih t (List.mem_cons_of_mem _ ht)) hr distinctRest ?_ faithful.2
        (lawful.mono fun n hn => List.mem_append_right _ hn)
      intro x hx i hi hid
      rcases marked.grows x hx with hx | ⟨j, hj, hjd⟩
      · rcases fresh x hx i (.inr hi) hid with hd | hd
        · exact absurd rfl (disjoint i (declaredHere hd) i hi)
        · exact hd
      · rw [hid] at hjd
        cases hjd
        exact absurd rfl (disjoint _ hj _ hi)
    exact first.followed later

theorem Block.markAliases_ensures {b : Block} (ih : ∀ s ∈ b.stmts, s.IsSound symbols step) {k : Knowledge} {b' : Block}
    (h : b.markAliases symbols k = .ok b') (apart : b.Apart k) (faithful : b'.isFaithful symbols = true)
    (lawful : Lawful symbols step b'.nodes) :
    ∃ after : Knowledge, b'.info.after = some after ∧
      Ensures (·.Meets k) (b'.behaviour symbols step) (.known after (b'.jumps ·)) := by
  obtain ⟨i, ss, x⟩ := b
  obtain ⟨ss', after, after', hs, ha, rfl⟩ := Block.markAliases_mk h
  have ⟨distinct, fresh⟩ := apart
  rw [Block.numbers_mk] at distinct fresh
  have inside := Stmt.markAliasesAll_ensures ih hs distinct (fun x hx i hi hid => ?_) faithful
    (lawful.mono fun n hn => List.mem_cons_of_mem _ hn)
  · refine ⟨after', rfl, ensures_left ?_ rfl⟩
    refine .andThen (ensures_look (fun _ h => Visit.good_some h) fun _ h => h) ?_
    exact (inside.weaken (Knowledge.leave_finer ha) fun way => List.Subset.refl _).imp
      (fun σ hσ => Store.Meets.finer hσ (Knowledge.enter_finer k _)) fun _ _ h => h
  · rcases Knowledge.enter_members hx with hx | ⟨v, hv, rfl⟩
    · exact absurd hid (fresh x hx i hi)
    · cases hid
      exact List.mem_map_of_mem hv

/-- A round keeps what is known at the head of the loop. -/
theorem Behaviour.Ensures.round {p head : Knowledge} (h : Ensures (·.Meets p) B (.inLoop I after))
    (stays : Within (fun σ τ => σ.Meets head → τ.Meets head) B) :
    Ensures (fun σ => σ.Meets p ∧ σ.Meets head) B (.inLoop (fun τ => I τ ∧ τ.Meets head) after) := by
  have h : Ensures (fun σ => σ.Meets p ∧ σ.Meets head) B (.inLoop I after) := h.imp (fun _ h => h.1) fun _ _ h => h
  exact h.withinNormal stays fun _ _ hσ hστ => hστ hσ.2

theorem Stmt.markAliases_follow {s s' : Stmt} {k : Knowledge} (h : s.markAliases symbols k = .ok s') :
    Node.Follow symbols s.nodes s'.nodes s.numbers := by
  refine ⟨(s.markAliases_marked k s' h).quiet, fun v hv => ?_⟩
  rw [← s.markAliases_numbers symbols k s' h]
  exact Stmt.mem_numbers.mpr ⟨v, hv, rfl⟩

theorem Block.markAliases_follow {b b' : Block} {k : Knowledge} (h : b.markAliases symbols k = .ok b') :
    Node.Follow symbols b.nodes b'.nodes b.numbers := by
  have h : (Stmt.block b).markAliases symbols k = .ok (.block b') := by
    rw [Stmt.markAliases, h]
    rfl
  exact Stmt.markAliases_follow h

theorem Block.markAliases_grows {b b' : Block} {k after : Knowledge} (h : b.markAliases symbols k = .ok b')
    (ha : b'.info.after = some after) : after.Within k b.numbers := by
  have h : (Stmt.block b).markAliases symbols k = .ok (.block b') := by
    rw [Stmt.markAliases, h]
    rfl
  have grows := (Stmt.markAliases_marked _ _ _ h).grows
  rw [show (Stmt.block b').info = b'.info from rfl, ha] at grows
  exact grows

attribute [local simp] Stmt.isFaithful Stmt.nodes

theorem Stmt.whileLoop_isSound (i : StmtInfo) (c : Expr) (b : Block) (hb : ∀ s ∈ b.stmts, s.IsSound symbols step) :
    (Stmt.whileLoop i c b).IsSound symbols step := by
  intro k s' h apart faithful lawful
  obtain ⟨head, p, b', after, hh, hp, hmb, ha, rfl⟩ := Stmt.markAliases_whileLoop h
  have ⟨distinct, fresh⟩ := apart
  rw [Stmt.numbers_whileLoop] at distinct fresh
  simp only [Stmt.isFaithful, Bool.and_eq_true, List.all_eq_true] at faithful
  obtain ⟨faithful, breaks⟩ := faithful
  have headApart : b.Apart head := by
    refine ⟨distinct, fun x hx i hi hid => ?_⟩
    cases fresh x (Knowledge.past_members hh hx) i hi hid
  have lawful : Lawful symbols step (c.nodes ++ b'.nodes) := by
    refine lawful.mono fun n hn => ?_
    rw [Stmt.nodes]
    exact List.mem_cons_of_mem _ hn
  have stays : head.StaysIn symbols step (c.nodes ++ b'.nodes) :=
    Knowledge.past_stays hh lawful (by simpa using (Node.follow_expr c).append (Block.markAliases_follow hmb))
      headApart.silent
  obtain ⟨afterBody, hab, body⟩ := Block.markAliases_ensures hb hmb
    (headApart.mono (Knowledge.assuming_members hp)) faithful (lawful.mono fun n hn => List.mem_append_right _ hn)
  have body : Ensures (·.Meets p) (catching .continued (b'.behaviour symbols step)) (.inLoop (fun _ => True) after) :=
    body.inLoop (fun q hq => Knowledge.covers_some (breaks q hq)) (fun _ _ _ _ => trivial) fun _ _ => trivial
  have round := body.round ((stays.behaviour (.block b') fun n hn => List.mem_append_right _ hn).catching .continued)
  refine ensures_left (.caught (.imp (.repeating ?_ ?_ ?_ round) ?_ fun _ _ h => h)) rfl
  · rintro σ ⟨-, hσ⟩
    exact Visit.good_some hσ
  · rintro σ τ ⟨-, hσ⟩ hc
    exact ⟨Knowledge.assuming_meets hp hc hσ, stays.condition c (fun n hn => List.mem_append_left _ hn) true σ τ hc hσ⟩
  · rintro σ τ ⟨-, hσ⟩ hc
    exact Knowledge.afterLoop_meets ha hc (.inl hσ)
  · intro σ hσ
    exact ⟨trivial, Knowledge.past_meets hh hσ⟩

theorem Stmt.doWhile_isSound (i : StmtInfo) (b : Block) (c : Expr) (hb : ∀ s ∈ b.stmts, s.IsSound symbols step) :
    (Stmt.doWhile i b c).IsSound symbols step := by
  intro k s' h apart faithful lawful
  obtain ⟨head, b', after, hh, hmb, ha, rfl⟩ := Stmt.markAliases_doWhile h
  have ⟨distinct, fresh⟩ := apart
  rw [Stmt.numbers_doWhile] at distinct fresh
  simp only [Stmt.isFaithful, Bool.and_eq_true, List.all_eq_true] at faithful
  obtain ⟨⟨faithful, breaks⟩, continues⟩ := faithful
  have headApart : b.Apart head := by
    refine ⟨distinct, fun x hx i hi hid => ?_⟩
    cases fresh x (Knowledge.past_members hh hx) i hi hid
  have lawful : Lawful symbols step (c.nodes ++ b'.nodes) := by
    refine lawful.mono fun n hn => ?_
    simp only [Stmt.nodes, List.mem_cons, List.mem_append] at hn ⊢
    tauto
  have stays : head.StaysIn symbols step (c.nodes ++ b'.nodes) :=
    Knowledge.past_stays hh lawful (by simpa using (Node.follow_expr c).append (Block.markAliases_follow hmb))
      headApart.silent
  obtain ⟨afterBody, hab, body⟩ := Block.markAliases_ensures hb hmb headApart faithful
    (lawful.mono fun n hn => List.mem_append_right _ hn)
  rw [hab, Option.getD_some] at ha breaks ⊢
  rw [hab] at continues
  have body : Ensures (·.Meets head) (catching .continued (b'.behaviour symbols step))
      (.inLoop (·.Meets afterBody) after) :=
    body.inLoop (fun q hq => Knowledge.covers_some (breaks q hq))
      (fun q hq τ hτ => hτ.finer (Knowledge.covers_some (continues q hq))) fun _ h => h
  have stayed := (stays.behaviour (.block b') fun n hn => List.mem_append_right _ hn).catching .continued
  have round : Ensures (·.Meets head) (catching .continued (b'.behaviour symbols step))
      (.inLoop (fun τ => τ.Meets afterBody ∧ τ.Meets head) after) :=
    (body.round stayed).imp (fun _ h => ⟨h, h⟩) fun _ _ h => h
  have loop : Ensures (fun σ => σ.Meets afterBody ∧ σ.Meets head)
      (c.repeating symbols (i.known afterBody after) (catching .continued (b'.behaviour symbols step)))
      (.inLoop (·.Meets after) after) := by
    refine .repeating ?_ ?_ ?_ round
    · rintro σ ⟨hσ, -⟩
      exact Visit.good_some hσ
    · rintro σ τ ⟨-, hσ⟩ hc
      exact stays.condition c (fun n hn => List.mem_append_left _ hn) true σ τ hc hσ
    · rintro σ τ ⟨hσ, -⟩ hc
      exact Knowledge.assuming_meets ha hc hσ
  exact ensures_left (.caught (.imp (.andThen round loop) (fun _ h => Knowledge.past_meets hh h) fun _ _ h => h)) rfl

/-- Code that does not jump. -/
theorem Behaviour.Ensures.unjumping {k : Knowledge} (h : Ensures P B (.known k fun _ => []))
    (broken continued : Store α → Prop) :
    Ensures P B ⟨(·.Meets k), broken, continued⟩ := by
  refine h.imp (fun _ h => h) fun o τ hτ => ?_
  cases o with
  | broken | continued =>
    obtain ⟨q, hq, -⟩ := hτ
    cases hq
  | _ => exact hτ

/-- A part of a loop's head is a simple statement, if it is there. -/
theorem Stmt.behaviour?_ensures {a a' : Option Stmt} {k state : Knowledge}
    (ih : ∀ s, a = some s → s.IsSound symbols step)
    (h : Stmt.MarksAliases? symbols k a a' state) (simple : a'.all Stmt.isSimple = true)
    (apart : ∀ s, a = some s → s.Apart k) (lawful : Lawful symbols step ((a'.map Stmt.nodes).getD [])) :
    Ensures (·.Meets k) (Stmt.behaviour? symbols step a') (.known state fun _ => []) := by
  cases a with
  | none =>
    obtain ⟨rfl, rfl⟩ := h
    exact ensures_idle fun _ h => h
  | some s =>
    obtain ⟨s', hs, rfl, rfl⟩ := h
    have plain : s'.isFaithful symbols = true ∧ ∀ way, s'.jumps way = [] := by
      cases s' with
      | eval | require | assign | declare => exact ⟨rfl, fun _ => rfl⟩
      | _ => cases simple
    have sound := ih s rfl k s' hs (apart s rfl) plain.1 lawful
    simp only [plain.2] at sound
    exact sound

/-- What the parts of a loop's head are made of. -/
theorem Stmt.MarksAliases?.follow {a a' : Option Stmt} {k state : Knowledge}
    (h : Stmt.MarksAliases? symbols k a a' state) :
    Node.Follow symbols ((a.map Stmt.nodes).getD []) ((a'.map Stmt.nodes).getD []) (Stmt.numbers? a) := by
  cases a with
  | none =>
    obtain ⟨rfl, rfl⟩ := h
    exact ⟨fun h => h, nofun⟩
  | some s =>
    obtain ⟨s', hs, rfl, rfl⟩ := h
    exact Stmt.markAliases_follow hs

theorem Stmt.MarksAliases?.grows {a a' : Option Stmt} {k state : Knowledge}
    (h : Stmt.MarksAliases? symbols k a a' state) : state.Within k (Stmt.numbers? a) := by
  cases a with
  | none =>
    obtain ⟨rfl, rfl⟩ := h
    exact .of_subset (List.Subset.refl _)
  | some s =>
    obtain ⟨s', hs, rfl, rfl⟩ := h
    exact (s.markAliases_marked k s' hs).grows

theorem Stmt.MarksAliases?.numbers {a a' : Option Stmt} {k state : Knowledge}
    (h : Stmt.MarksAliases? symbols k a a' state) : Stmt.numbers? a' = Stmt.numbers? a := by
  cases a with
  | none =>
    obtain ⟨rfl, rfl⟩ := h
    rfl
  | some s =>
    obtain ⟨s', hs, rfl, rfl⟩ := h
    exact s.markAliases_numbers symbols k s' hs

theorem Stmt.declared?_numbers (a : Option Stmt) : (Stmt.declared? a).map (·.id) ⊆ Stmt.numbers? a := by
  cases a with
  | none => exact List.nil_subset _
  | some s => exact s.declared_numbers

section Head

variable {a a' u : Option Stmt} {b : Block} {k state : Knowledge}

/-- In the scope of a loop with a head, only variables that the head declares are listed. -/
theorem Stmt.Apart.entered (h : (Stmt.forLoop i a c u b).Apart k) {x : Label}
    (hx : x ∈ (k.enter (Stmt.declared? a ++ Stmt.declared? u)).members) {j : Nat} (hid : Store.localId? x = some j)
    (hj : j ∈ Stmt.numbers? a ++ (Stmt.numbers? u ++ b.numbers)) :
    j ∈ (Stmt.declared? a).map (·.id) ∨ j ∈ (Stmt.declared? u).map (·.id) := by
  rcases Knowledge.enter_members hx with hx | ⟨v, hv, rfl⟩
  · rw [← Stmt.numbers_forLoop i a u c b] at hj
    cases h.fresh x hx j hj hid
  · cases hid
    rw [← List.mem_append, ← List.map_append]
    exact List.mem_map_of_mem hv

theorem Stmt.Apart.head (h : (Stmt.forLoop i a c u b).Apart k) {s : Stmt} (hs : a = some s) :
    s.Apart (k.enter (Stmt.declared? a ++ Stmt.declared? u)) := by
  have distinct := h.distinct
  rw [Stmt.numbers_forLoop] at distinct
  obtain ⟨distinctInit, -, apartInit⟩ := List.nodup_append.mp distinct
  subst hs
  refine ⟨distinctInit, fun x hx j hj hid => ?_⟩
  rcases h.entered hx hid (List.mem_append_left _ hj) with hd | hd
  · exact hd
  · exact absurd rfl (apartInit j hj j (List.mem_append_left _ (Stmt.declared?_numbers u hd)))

/-- Before the loop, of the variables in its body and its update only the declared ones of the update are listed. -/
theorem Stmt.Apart.listed (h : (Stmt.forLoop i a c u b).Apart k)
    (ha : Stmt.MarksAliases? symbols (k.enter (Stmt.declared? a ++ Stmt.declared? u)) a a' state) {x : Label}
    (hx : x ∈ state.members) {j : Nat} (hid : Store.localId? x = some j) (hj : j ∈ Stmt.numbers? u ++ b.numbers) :
    j ∈ (Stmt.declared? u).map (·.id) := by
  have distinct := h.distinct
  rw [Stmt.numbers_forLoop] at distinct
  obtain ⟨-, -, apartInit⟩ := List.nodup_append.mp distinct
  rcases ha.grows x hx with hx | ⟨j', hj', hid'⟩
  · rcases h.entered hx hid (List.mem_append_right _ hj) with hd | hd
    · exact absurd rfl (apartInit j (Stmt.declared?_numbers a hd) j hj)
    · exact hd
  · rw [hid] at hid'
    cases hid'
    exact absurd rfl (apartInit _ hj' _ hj)

theorem Stmt.Apart.body (h : (Stmt.forLoop i a c u b).Apart k)
    (ha : Stmt.MarksAliases? symbols (k.enter (Stmt.declared? a ++ Stmt.declared? u)) a a' state) : b.Apart state := by
  have distinct := h.distinct
  rw [Stmt.numbers_forLoop] at distinct
  obtain ⟨-, distinctBody, apartUpdate⟩ := List.nodup_append.mp (List.nodup_append.mp distinct).2.1
  refine ⟨distinctBody, fun x hx j hj hid => ?_⟩
  have hd := h.listed ha hx hid (List.mem_append_right _ hj)
  exact apartUpdate j (Stmt.declared?_numbers u hd) j hj rfl

theorem Stmt.Apart.update (h : (Stmt.forLoop i a c u b).Apart k)
    (ha : Stmt.MarksAliases? symbols (k.enter (Stmt.declared? a ++ Stmt.declared? u)) a a' state)
    (grows : after.Within state b.numbers) {s : Stmt} (hs : u = some s) : s.Apart after := by
  have distinct := h.distinct
  rw [Stmt.numbers_forLoop] at distinct
  obtain ⟨distinctUpdate, -, apartUpdate⟩ := List.nodup_append.mp (List.nodup_append.mp distinct).2.1
  subst hs
  refine ⟨distinctUpdate, fun x hx j hj hid => ?_⟩
  rcases grows x hx with hx | ⟨j', hj', hid'⟩
  · exact h.listed ha hx hid (List.mem_append_left _ hj)
  · rw [hid] at hid'
    cases hid'
    exact absurd rfl (apartUpdate _ hj _ hj')

end Head

theorem Stmt.forLoop_isSound (i : StmtInfo) (a : Option Stmt) (c : Expr) (u : Option Stmt) (b : Block)
    (hsa : ∀ s, a = some s → s.IsSound symbols step) (hsu : ∀ s, u = some s → s.IsSound symbols step)
    (hb : ∀ s ∈ b.stmts, s.IsSound symbols step) : (Stmt.forLoop i a c u b).IsSound symbols step := by
  intro k s' h apart faithful lawful
  obtain ⟨a', state, head, p, b', u', last, after, after', hma, hh, hp, hmb, hmu, hl, hr, rfl⟩ :=
    Stmt.markAliases_forLoop h
  simp only [Stmt.isFaithful, Bool.and_eq_true, List.all_eq_true] at faithful
  obtain ⟨⟨⟨⟨⟨faithful, breaks⟩, continues⟩, simpleInit⟩, simpleUpdate⟩, silent⟩ := faithful
  have headApart : b.Apart head := (apart.body hma).mono (Knowledge.past_members hh)
  have lawfulInit : Lawful symbols step ((a'.map Stmt.nodes).getD []) := by
    refine lawful.mono fun n hn => ?_
    simp only [Stmt.nodes_forLoop, List.mem_cons, List.mem_append]
    tauto
  have lawful : Lawful symbols step (c.nodes ++ (b'.nodes ++ (u'.map Stmt.nodes).getD [])) := by
    refine lawful.mono fun n hn => ?_
    simp only [Stmt.nodes_forLoop, List.mem_cons, List.mem_append] at hn ⊢
    tauto
  have stays : head.StaysIn symbols step (c.nodes ++ (b'.nodes ++ (u'.map Stmt.nodes).getD [])) := by
    have silent : head.SilentOn (Stmt.numbers? u) := by
      rw [← hmu.numbers]
      exact Knowledge.isSilentOn_iff.mp silent
    have condition : Node.Follow symbols c.nodes c.nodes [] := Node.follow_expr c
    have follow := condition.append ((Block.markAliases_follow hmb).append hmu.follow)
    exact Knowledge.past_stays hh lawful (by simpa using follow) (headApart.silent.append silent)
  obtain ⟨afterBody, hab, body⟩ := Block.markAliases_ensures hb hmb
    (headApart.mono (Knowledge.assuming_members hp)) faithful (lawful.mono fun n hn => by simp [hn])
  rw [hab, Option.getD_some] at hmu
  rw [hab] at continues
  have init : Ensures (·.Meets k) (Stmt.behaviour? symbols step a') (.known state fun _ => []) :=
    (Stmt.behaviour?_ensures hsa hma simpleInit (fun s hs => apart.head hs) lawfulInit).imp
      (fun _ h => Store.Meets.finer h (Knowledge.enter_finer k _)) fun _ _ h => h
  have grows : Knowledge.Within afterBody state b.numbers := (Block.markAliases_grows hmb hab).trans
    (.of_subset (List.Subset.trans (Knowledge.assuming_members hp) (Knowledge.past_members hh)))
  have update : Ensures (·.Meets afterBody) (Stmt.behaviour? symbols step u') (.known last fun _ => []) :=
    Stmt.behaviour?_ensures hsu hmu simpleUpdate (fun s hs => apart.update hma grows hs)
      (lawful.mono fun n hn => by simp [hn])
  have round : Ensures (·.Meets p) ((catching .continued (b'.behaviour symbols step)).andThen
      (Stmt.behaviour? symbols step u')) (.inLoop (·.Meets last) after') := by
    refine .andThen (M := (·.Meets afterBody)) ?_ (update.unjumping _ _)
    exact body.inLoop (fun q hq => Knowledge.covers_some (breaks q hq))
      (fun q hq τ hτ => hτ.finer (Knowledge.covers_some (continues q hq))) fun _ h => h
  have stayed : Within (fun σ τ => σ.Meets head → τ.Meets head)
      ((catching .continued (b'.behaviour symbols step)).andThen (Stmt.behaviour? symbols step u')) :=
    .andThen (fun _ _ _ h h' hσ => h' (h hσ))
      ((stays.behaviour (.block b') fun n hn => by simpa using .inr (.inl hn)).catching .continued)
      (stays.behaviour? u' fun n hn => by simp [hn])
  -- Without any round the store is as the head left it, else as the last round did.
  have invariant : Ensures (fun σ => σ.Meets p ∧ σ.Meets head) ((catching .continued (b'.behaviour symbols step)).andThen
      (Stmt.behaviour? symbols step u')) (.inLoop (fun τ => (τ.Meets state ∨ τ.Meets last) ∧ τ.Meets head) after') := by
    refine (round.round stayed).imp (fun _ h => h) fun o τ hτ => ?_
    cases o with
    | normal => exact ⟨.inr hτ.1, hτ.2⟩
    | _ => exact hτ
  have loop : Ensures (·.Meets state) (c.repeating symbols (i.known head after')
      ((catching .continued (b'.behaviour symbols step)).andThen (Stmt.behaviour? symbols step u')))
      (.inLoop (·.Meets after') after') := by
    refine .imp (.repeating ?_ ?_ ?_ invariant) (fun σ hσ => ⟨.inl hσ, Knowledge.past_meets hh hσ⟩) fun _ _ h => h
    · rintro σ ⟨-, hσ⟩
      exact Visit.good_some hσ
    · rintro σ τ ⟨-, hσ⟩ hc
      exact ⟨Knowledge.assuming_meets hp hc hσ, stays.condition c (fun n hn => List.mem_append_left _ hn) true σ τ hc hσ⟩
    · rintro σ τ ⟨hσ, -⟩ hc
      exact (Knowledge.afterLoop_meets hl hc hσ).finer (Knowledge.leave_finer hr)
  rw [Stmt.behaviour_forLoop]
  exact ensures_left (.andThen (init.unjumping _ _) loop.caught) rfl

/-- A branch starts with what its condition implies. -/
theorem Behaviour.Ensures.branch {k p : Knowledge} {r : Bool} {Q : Post α} (hp : k.assuming symbols c (!r) = .ok p)
    (hB : Ensures (·.Meets p) B Q) (hi : i.before = some k) :
    Ensures (·.Meets k) ((c.tested symbols i r).andThen B) Q := by
  refine .andThen (ensures_tested (fun σ hσ => ?_) fun σ τ hσ hc => Knowledge.assuming_meets hp hc hσ) hB
  rw [hi]
  exact Visit.good_some hσ

theorem Expr.hasEffects_of_isQuiet (h : c.isQuiet symbols = true) : c.hasEffects symbols = .ok false := by
  unfold Expr.isQuiet at h
  cases he : c.hasEffects symbols with
  | error e =>
    rw [he] at h
    cases h
  | ok b =>
    rw [he] at h
    cases b with
    | true => cases h
    | false => rfl

theorem Stmt.ifThen_isSound (i : StmtInfo) (c : Expr) (t : Block) (ht : ∀ s ∈ t.stmts, s.IsSound symbols step) :
    (Stmt.ifThen i c t none).IsSound symbols step := by
  intro k s' h apart faithful lawful
  obtain ⟨p, t', after, hp, hmt, hj, rfl⟩ := Stmt.markAliases_ifThen h
  have ⟨distinct, fresh⟩ := apart
  rw [Stmt.numbers_ifThen] at distinct fresh
  simp only [Stmt.isFaithful, Bool.and_eq_true, Bool.or_eq_true] at faithful
  obtain ⟨faithful, skipped⟩ := faithful
  obtain ⟨afterThen, hat, body⟩ := Block.markAliases_ensures ht hmt
    ⟨(List.nodup_append.mp distinct).1, fun x hx j hj hid => by
      cases fresh x (Knowledge.assuming_members hp hx) j (List.mem_append_left _ hj) hid⟩ faithful
    (lawful.mono fun n hn => by simp [Stmt.nodes, hn])
  rw [hat, Option.getD_some] at hj
  have body := body.weaken (Partition.join_finer_left hj) fun way => List.Subset.refl _
  refine ensures_left (.either (.branch hp body rfl) (ensures_tested (fun _ h => Visit.good_some h) ?_)) rfl
  -- Without side effects the store is the one before; else nothing is claimed that they may have changed.
  intro σ τ hσ hc
  rcases hc with ⟨-, rfl, -⟩ | ⟨effects, hc⟩
  · exact hσ.finer (Partition.join_finer_right hj)
  · rcases skipped with quiet | skipped
    · exact absurd (Expr.hasEffects_of_isQuiet quiet) effects
    · exact ((hσ.havoc symbols).kept hc).finer (Knowledge.covers_some skipped)

theorem Stmt.ifElse_isSound (i : StmtInfo) (c : Expr) (t e : Block) (ht : ∀ s ∈ t.stmts, s.IsSound symbols step)
    (he : ∀ s ∈ e.stmts, s.IsSound symbols step) : (Stmt.ifThen i c t (some e)).IsSound symbols step := by
  intro k s' h apart faithful lawful
  obtain ⟨p, t', q, e', after, hp, hmt, hq, hme, hj, rfl⟩ := Stmt.markAliases_ifElse h
  have ⟨distinct, fresh⟩ := apart
  rw [Stmt.numbers_ifThen] at distinct fresh
  obtain ⟨distinctThen, distinctElse, -⟩ := List.nodup_append.mp distinct
  simp only [Stmt.isFaithful, Bool.and_eq_true] at faithful
  obtain ⟨afterThen, hat, bodyThen⟩ := Block.markAliases_ensures ht hmt
    ⟨distinctThen, fun x hx j hj hid => by
      cases fresh x (Knowledge.assuming_members hp hx) j (List.mem_append_left _ hj) hid⟩ faithful.1
    (lawful.mono fun n hn => by simp [Stmt.nodes, hn])
  obtain ⟨afterElse, hae, bodyElse⟩ := Block.markAliases_ensures he hme
    ⟨distinctElse, fun x hx j hj hid => by
      cases fresh x (Knowledge.assuming_members hq hx) j (List.mem_append_right _ hj) hid⟩ faithful.2
    (lawful.mono fun n hn => by simp [Stmt.nodes, hn])
  rw [hat, hae, Option.getD_some, Option.getD_some] at hj
  refine ensures_left (.either (.branch hp ?_ rfl) (.branch hq ?_ rfl)) rfl
  · exact bodyThen.weaken (Partition.join_finer_left hj) fun way => List.subset_append_left _ _
  · exact bodyElse.weaken (Partition.join_finer_right hj) fun way => List.subset_append_right _ _

/-- A simple statement does what is expected of it. -/
theorem Stmt.simple_isSound {s : Stmt} (simple : s.isSimple = true) : s.IsSound symbols step := by
  intro k s' h _ _ lawful
  obtain ⟨parts, before, after, hb, -, hib, hia, simple', -, -⟩ := Stmt.markAliases_simple simple h
  have behaviour : s'.behaviour symbols step =
      ((look s'.info.before).andThen (change (step s'))).andThen (look s'.info.after) := by
    cases s' with
    | eval | require | assign | declare => rfl
    | _ => cases simple'
  have last : s'.info.after.getD k = after := by rw [hia, Option.getD_some]
  rw [behaviour, last]
  refine ensures_left ?_ hia
  refine .andThen (M := (·.Meets before)) (ensures_look (fun σ hσ => ?_) fun σ hσ => Knowledge.past_meets hb hσ)
    (ensures_change fun σ τ hσ hστ => lawful.sound s' s'.mem_nodes before after hib hia σ τ hστ hσ)
  rw [hib]
  exact Visit.good_some (Knowledge.past_meets hb hσ)

/-- Jumps leave the store alone. -/
theorem Behaviour.ensures_jumping {k : Knowledge} {jumps : Outcome → List Knowledge} {way : Outcome}
    (hw : ∀ σ : Store α, σ.Meets k → (Post.known k jumps).Holds way σ) (hb : i.before = some k) (ha : i.after = some k) :
    Ensures (α := α) (·.Meets k) (((look i.before).andThen (look i.after)).andThen (jump way)) (.known k jumps) := by
  rw [hb, ha]
  have looked : ∀ Q : Post α, Ensures (·.Meets k) (look (some k)) { Q with normal := (·.Meets k) } :=
    fun _ => ensures_look (fun _ h => Visit.good_some h) fun _ h => h
  exact .andThen (.andThen (looked _) (looked _)) (ensures_jump hw)

/-- Executions of marked statements are as claimed. -/
theorem Stmt.markAliases_isSound (s : Stmt) : s.IsSound symbols step := by
  induction s using Stmt.inductOn with
  | ifThen i c t e ht he =>
    cases e with
    | none => exact Stmt.ifThen_isSound i c t ht
    | some e => exact Stmt.ifElse_isSound i c t e ht (he e rfl)
  | whileLoop i c b hb => exact Stmt.whileLoop_isSound i c b hb
  | doWhile i b c hb => exact Stmt.doWhile_isSound i b c hb
  | forLoop i a c u b ha hu hb => exact Stmt.forLoop_isSound i a c u b ha hu hb
  | block b hb =>
    intro k s' h apart faithful lawful
    obtain ⟨b', hmb, h⟩ := except_bind_ok h
    cases h
    obtain ⟨after, ha, body⟩ := Block.markAliases_ensures hb hmb
      ⟨apart.distinct, fun x hx j hj hid => by cases apart.fresh x hx j hj hid⟩ faithful lawful
    rw [show (Stmt.block b').info = b'.info from rfl, ha]
    exact body
  | seq i ss x hs =>
    intro k s' h apart faithful lawful
    obtain ⟨ss', after, hms, rfl⟩ := Stmt.markAliases_seq h
    have ⟨distinct, fresh⟩ := apart
    rw [Stmt.numbers_seq] at distinct fresh
    have inside := Stmt.markAliasesAll_ensures hs hms distinct fresh faithful
      (lawful.mono fun n hn => List.mem_cons_of_mem _ hn)
    exact ensures_left (.andThen (ensures_look (fun _ h => Visit.good_some h) fun _ h => h) inside) rfl
  | simple s hs =>
    cases s with
    | breakLoop i =>
      intro k s' h _ _ _
      cases h
      exact ensures_jumping (fun σ hσ => ⟨k, List.mem_singleton.mpr rfl, hσ⟩) rfl rfl
    | continueLoop i =>
      intro k s' h _ _ _
      cases h
      exact ensures_jumping (fun σ hσ => ⟨k, List.mem_singleton.mpr rfl, hσ⟩) rfl rfl
    | ret i e =>
      intro k s' h _ _ _
      cases h
      exact ensures_jumping (fun σ hσ => trivial) rfl rfl
    | comment | blank =>
      intro k s' h _ _ _
      cases h
      exact ensures_idle fun _ h => h
    | compute | enterKey =>
      intro k s' h
      cases h
    | eval | require | assign | declare => exact Stmt.simple_isSound rfl
    | ifThen | whileLoop | doWhile | forLoop | block | seq => cases hs

end Sound

/-! ## Functions -/

/-- In all executions of the marked body that start where what is known at its beginning holds, whatever a statement
claims holds where its own expressions are evaluated and where control leaves it. -/
def Block.Upheld {α : Type} (symbols : Symbols) (step : Steps α) (b : Block) : Prop :=
  ∀ σ o τ t, (∀ k, b.info.before = some k → σ.Meets k) → b.behaviour symbols step σ o τ t → ∀ v ∈ t, v.Good

/-- At the start of a function no local variable is listed. -/
theorem Contract.initialKnowledge_members (c : Contract) (f : FunctionDef) :
    ∀ x ∈ (c.initialKnowledge f).members, Store.localId? x = none := by
  have inserted (labels : List Label) (k : Knowledge) (hk : ∀ x ∈ k.members, Store.localId? x = none)
      (hl : ∀ x ∈ labels, Store.localId? x = none) :
      ∀ x ∈ (labels.foldl (fun k l => k.insert l) k).members, Store.localId? x = none := by
    induction labels generalizing k with
    | nil => exact hk
    | cons l labels ih =>
      refine ih (k.insert l) (fun x hx => ?_) fun x hx => hl x (List.mem_cons_of_mem _ hx)
      rw [Partition.members_insert] at hx
      rcases List.mem_append.mp hx with hx | hx
      · exact hk x hx
      · rw [List.mem_singleton.mp hx]
        exact hl l List.mem_cons_self
  refine inserted _ _ nofun fun x hx => ?_
  simp only [List.mem_append, List.mem_cons, List.mem_map, List.not_mem_nil, or_false] at hx
  rcases hx with ((rfl | rfl) | ⟨v, -, rfl⟩) | ⟨p, -, rfl⟩
  · rfl
  · rfl
  · rfl
  · split <;> rfl

/-- Whatever statements claim to be known is right, unless the marks do not account for a jump or for the side effects
of a condition. -/
theorem SourceUnit.markAliases_upheld {u v : SourceUnit} (distinct : u.numbers.Nodup) (h : u.markAliases = .ok v)
    {f : FunctionDef} (hf : f ∈ v.allFunctions) (faithful : f.body.isFaithful u.symbols = true) {α : Type}
    {step : Steps α} (lawful : Lawful u.symbols step f.body.nodes) : f.body.Upheld u.symbols step := by
  have marked : u.Pointwise (fun f g => ∃ c : Contract,
      f.body.markAliases u.symbols (c.initialKnowledge f) = .ok g.body) v := by
    obtain ⟨contracts, hm, hv⟩ := except_bind_ok h
    cases hv
    refine visit_pointwise (fun c f g hg => ?_) hm
    obtain ⟨body, hb, hg⟩ := except_bind_ok hg
    cases hg
    exact ⟨c, hb⟩
  obtain ⟨g, hg, c, hb⟩ := exists_mem_of_forall₂_right (allFunctions_pointwise marked) hf
  have before : f.body.info.before = some (c.initialKnowledge g) := by
    revert hb
    obtain ⟨i, ss, x⟩ := g.body
    intro hb
    obtain ⟨ss', after, after', -, -, hf⟩ := Block.markAliases_mk hb
    rw [hf]
    rfl
  obtain ⟨after, -, sound⟩ := Block.markAliases_ensures (fun s _ => s.markAliases_isSound) hb
    ⟨body_numbers distinct hg, fun x hx i _ hid => by
      rw [c.initialKnowledge_members g x hx] at hid
      cases hid⟩ faithful lawful
  intro σ o τ t hσ run
  exact (sound σ o τ t (hσ _ before) run).2

/-- Owners are compared until they are the same, in a loop that goes on early. -/
def comparing : SourceUnit :=
  let owner := AnnTy.plain (.address false)
  let differ := Expr.applyAt 110 .ne [.nameAt 112 "a", .nameAt 113 "b"]
  let equal := Expr.applyAt 114 .eq [.nameAt 116 "b", .nameAt 117 "c"]
  .sketch 100 "Owners" [] [.sketch 101 "run" "public"
    [.sketch 102 owner "a", .sketch 103 owner "b", .sketch 104 owner "c"]
    [.whileLoop default differ (.ofStmts [.require default equal, .continueLoop default])]]

/-- Simple statements that change nothing and are left only where what they claim holds. -/
def checking : Steps Nat := fun s σ τ => τ = σ ∧ ∀ k, s.info.after = some k → σ.Meets k

theorem comparing_upheld : ∃ u n v, comparing.link 120 = .ok (u, n) ∧ u.markAliases = .ok v ∧ u.numbers.Nodup ∧
    ∃ f ∈ v.allFunctions, f.body.isFaithful u.symbols = true ∧ Lawful u.symbols checking f.body.nodes ∧
      f.body.Upheld u.symbols checking := by
  obtain ⟨_, h, tested⟩ := exists_ok_of_any
    (x := do let l ← comparing.link 120; let v ← l.1.markAliases; return (l.1, l.2, v))
    (p := fun r => decide (r.1.numbers.Nodup ∧
      ∃ f ∈ r.2.2.allFunctions, f.body.isFaithful r.1.symbols = true))
    (by decide +kernel)
  obtain ⟨⟨u, n⟩, link, h⟩ := except_bind_ok h
  obtain ⟨v, aliases, h⟩ := except_bind_ok h
  cases h
  obtain ⟨distinct, f, hf, faithful⟩ := of_decide_eq_true tested
  have lawful : Lawful u.symbols checking f.body.nodes := by
    refine ⟨fun s _ σ τ h => ?_, fun s _ _ σ τ h x _ => ?_, fun s _ p q _ hq σ τ h _ => ?_⟩
    · rw [h.1]
      exact .refl _ σ
    · rw [h.1]
    · rw [h.1]
      exact h.2 q hq
  exact ⟨u, n, v, link, aliases, distinct, f, hf, faithful, lawful,
    SourceUnit.markAliases_upheld distinct aliases hf faithful lawful⟩

/-! ## A loop that is left early -/

section Leaving

open Behaviour

variable {α : Type} {symbols : Symbols} {step : Steps α} {i j l m : StmtInfo} {c : Expr} {x y : Bool} {σ : Store α}

/-- A loop whose body is a break is left while its condition is true. -/
theorem Stmt.leaves_loop (hc : c.Evaluates symbols true σ σ) :
    ∃ t, (Stmt.whileLoop i c ⟨j, [.breakLoop l], x⟩).behaviour symbols step σ .normal σ (t ++ [⟨i.after, σ⟩]) := by
  have look (k : Option Knowledge) : look k σ .normal σ [⟨k, σ⟩] := ⟨rfl, rfl, rfl⟩
  have tested : c.tested symbols i true σ .normal σ _ := .both (look _) ⟨rfl, .inl ⟨rfl, hc⟩⟩
  have jump : (Stmt.breakLoop l).behaviour symbols step σ .broken σ _ := .both (.both (look _) (look _)) ⟨rfl, rfl, rfl⟩
  have body : (⟨j, [.breakLoop l], x⟩ : Block).behaviour symbols step σ .broken σ _ :=
    .first nofun (.both (look _) (.first nofun jump))
  have caught : catching .continued ((⟨j, [.breakLoop l], x⟩ : Block).behaviour symbols step) σ .broken σ _ :=
    .inl ⟨body, nofun⟩
  exact ⟨_, .both (.inr ⟨.exit nofun (.both tested caught), rfl⟩) (look _)⟩

/-- The condition is that two values differ. -/
def Expr.isDifference : Expr → Bool
  | .call _ (.operator _ .ne _ _ _) (_ :: _ :: _) _ _ => true
  | _ => false

theorem Expr.mayBe_of_isDifference (h : c.isDifference = true) : c.MayBe σ true := by
  unfold Expr.isDifference at h
  split at h
  · trivial
  · cases h

/-- The body is a loop that is left at once, and then it is claimed that two labels hold the same although nothing was
known before. -/
def Block.claimsEqual (symbols : Symbols) (a b : Label) : Block → Bool
  | ⟨m, [.whileLoop i c ⟨_, [.breakLoop _], _⟩], _⟩ =>
    c.isDifference && c.isQuiet symbols && m.before.all (fun k : Knowledge => Partition.entails .empty k) &&
      i.after.any fun k => decide (k.Linked a b)
  | _ => false

/-- In a store in which the two labels differ the claim is wrong. -/
theorem Block.not_upheld {step : Steps Bool} {body : Block} {a b : Label} (h : body.claimsEqual symbols a b = true)
    (hab : a ≠ b) : ¬ body.Upheld symbols step := by
  unfold Block.claimsEqual at h
  split at h
  case h_2 => cases h
  rename_i m i c j l x y
  simp only [Bool.and_eq_true, Option.any_eq_true, decide_eq_true_eq] at h
  obtain ⟨⟨⟨difference, quiet⟩, unknown⟩, k, hk, linked⟩ := h
  let σ : Store Bool := fun z => some (decide (z = a))
  have hc : c.Evaluates symbols true σ σ :=
    .inl ⟨Expr.hasEffects_of_isQuiet quiet, rfl, Expr.mayBe_of_isDifference difference⟩
  have start : ∀ k, m.before = some k → σ.Meets k := by
    intro k hk x y hl
    rw [hk] at unknown
    rcases Partition.finer_of_entails unknown x y hl with heq | ⟨c, hc, -⟩
    · exact .inl heq
    · cases hc
  intro upheld
  obtain ⟨t, run⟩ : ∃ t, (Stmt.whileLoop i c ⟨j, [.breakLoop l], x⟩).behaviour symbols step σ .normal σ
      (t ++ [⟨i.after, σ⟩]) := Stmt.leaves_loop hc
  have whole : (⟨m, [.whileLoop i c ⟨j, [.breakLoop l], x⟩], y⟩ : Block).behaviour symbols step σ .normal σ _ :=
    .both (.both ⟨rfl, rfl, rfl⟩ (.both run ⟨rfl, rfl, rfl⟩)) ⟨rfl, rfl, rfl⟩
  have good := upheld σ .normal σ _ start whole ⟨i.after, σ⟩ (by simp)
  rcases good k hk a b linked with heq | ⟨v, ha, hb⟩
  · exact hab heq
  · simp only [σ, Option.some.injEq, decide_true] at ha hb
    rw [← ha, decide_eq_true_eq] at hb
    exact hab hb.symm

end Leaving

/-- A loop that is left at once, although its condition still holds. -/
def leaving : SourceUnit :=
  let owner := AnnTy.plain (.address false)
  .sketch 100 "Owners" [] [.sketch 101 "run" "public" [.sketch 102 owner "a", .sketch 103 owner "b"]
    [.whileLoop default (.applyAt 110 .ne [.nameAt 112 "a", .nameAt 113 "b"]) (.ofStmts [.breakLoop default])]]

/-- After the loop the two owners are claimed to be the same, which they need not be. -/
theorem leaving_not_upheld : ∃ u n v, leaving.link 120 = .ok (u, n) ∧ u.markAliases = .ok v ∧ u.numbers.Nodup ∧
    ∃ f ∈ v.allFunctions, ∃ step : Steps Bool, Lawful u.symbols step f.body.nodes ∧
      ¬ f.body.Upheld u.symbols step := by
  obtain ⟨_, h, tested⟩ := exists_ok_of_any
    (x := do let l ← leaving.link 120; let v ← l.1.markAliases; return (l.1, l.2, v))
    (p := fun r => decide (r.1.numbers.Nodup ∧ ∃ f ∈ r.2.2.allFunctions,
      f.body.claimsEqual r.1.symbols (.var .parameter 102 "a") (.var .parameter 103 "b") = true))
    (by decide +kernel)
  obtain ⟨⟨u, n⟩, link, h⟩ := except_bind_ok h
  obtain ⟨v, aliases, h⟩ := except_bind_ok h
  cases h
  obtain ⟨distinct, f, hf, claims⟩ := of_decide_eq_true tested
  exact ⟨u, n, v, link, aliases, distinct, f, hf, fun _ _ _ => False,
    ⟨fun _ _ _ _ h => h.elim, fun _ _ _ _ _ h => h.elim, fun _ _ _ _ _ _ _ _ h => h.elim⟩,
    Block.not_upheld claims (by decide)⟩

end Shroud
