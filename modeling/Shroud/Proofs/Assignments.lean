import Shroud.Analysis.Finality
import Shroud.Proofs.Uses

/-!
# Assignments of final variables

The analysis keeps for every final variable whether it has been assigned. Executions are compared with it one variable
at a time: `Use.follow` goes from "not yet" to "assigned" and gets stuck at a second assignment or at an early read.

**Triples.** `Course.Leads x p q` says that executions never get stuck from `p` on and that normal ones arrive at `q`.
Code that leaves the variable as it was keeps it so in every execution, whatever its outcome. This is what makes loops
harmless that do not assign the variable: every round starts from the same.

**Result.** `Stmt.tracked`: where no loop assigns the variable, executions go from what the analysis has before to what it
has afterwards.
-/

namespace Shroud

/-! ## Following a variable -/

namespace Use

/-- What a use makes of a variable that has been assigned or not; nothing if the use is not allowed. Called functions
may read it at any time. -/
def step (x : Nat) (done : Bool) (a : Use) : Option Bool :=
  if a.writes x then (if done then none else some true)
  else if a.reads x then (if done then some true else none)
  else some done

def follow (x : Nat) (done : Bool) (t : List Use) : Option Bool := t.foldlM (step x) done

variable {x : Nat} {p q : Bool} {t u : List Use}

@[simp]
theorem follow_nil : follow x p [] = some p := rfl

theorem follow_cons {a : Use} : follow x p (a :: t) = (step x p a).bind fun q => follow x q t := rfl

theorem follow_append : follow x p (t ++ u) = (follow x p t).bind fun q => follow x q u := List.foldlM_append

theorem follow_steady (h : ∀ a ∈ t, step x p a = some p) : follow x p t = some p := by
  induction t with
  | nil => rfl
  | cons a t ih =>
    obtain ⟨first, rest⟩ := List.forall_mem_cons.mp h
    rw [follow_cons, first]
    exact ih rest

theorem step_writes {a : Use} (h : a.writes x = true) : step x p a = if p then none else some true := if_pos h

theorem step_reads {a : Use} (h : a.reads x = true) : step x p a = if p then some true else none := by
  simp only [reads, Bool.and_eq_true, beq_iff_eq] at h
  simp [step, writes, reads, h]

theorem step_other {a : Use} (writes : a.writes x = false) (reads : a.reads x = false) : step x p a = some p := by
  simp [step, writes, reads]

/-- An execution that is followed to the end has assigned the variable as often as it says. -/
theorem count_of_follow (h : follow x p t = some q) : p.toNat + t.countP (·.writes x) = q.toNat := by
  induction t generalizing p with
  | nil =>
    cases h
    rfl
  | cons a t ih =>
    rw [follow_cons] at h
    obtain ⟨r, hr, h⟩ := Option.bind_eq_some_iff.mp h
    have rest := ih h
    rw [List.countP_cons]
    cases writes : a.writes x with
    | true =>
      rw [step_writes writes] at hr
      cases p <;> cases hr
      simpa [Nat.add_comm] using rest
    | false =>
      have same : r = p := by
        cases reads : a.reads x with
        | true =>
          rw [step_reads reads] at hr
          cases p <;> cases hr
          rfl
        | false =>
          rw [step_other writes reads] at hr
          exact (Option.some.inj hr).symm
      rw [same] at rest
      exact rest

/-- No read comes before the assignment. -/
theorem write_before_read (h : follow x false t = some q) (before : List Use) (a : Use) (after : List Use)
    (split : t = before ++ a :: after) (reads : a.reads x = true) : ∃ w ∈ before, w.writes x = true := by
  rw [split, follow_append] at h
  obtain ⟨r, hr, h⟩ := Option.bind_eq_some_iff.mp h
  rw [follow_cons, step_reads reads] at h
  have count := count_of_follow hr
  cases r with
  | false => cases h
  | true =>
    have written : 0 < before.countP (·.writes x) := by
      simp only [Bool.toNat_false, Bool.toNat_true] at count
      omega
    exact List.countP_pos_iff.mp written

end Use

/-! ## Triples -/

namespace Course

/-- Executions never get stuck, normal ones arrive at `q`, and where nothing is to happen nothing happens. -/
structure Leads (x : Nat) (p q : Bool) (C : Course) : Prop where
  mono : p = true → q = true
  follows : ∀ o t, C o t → ∃ r, Use.follow x p t = some r ∧ (o = .normal → r = q) ∧ (p = q → r = p)

variable {x : Nat} {p q r : Bool} {B C : Course}

theorem leads_idle : Leads x p p idle := by
  refine ⟨id, ?_⟩
  rintro _ _ ⟨-, rfl⟩
  exact ⟨p, rfl, fun _ => rfl, fun _ => rfl⟩

theorem leads_jump {way : Outcome} : Leads x p p (jump way) := by
  refine ⟨id, ?_⟩
  rintro _ _ ⟨-, rfl⟩
  exact ⟨p, rfl, fun _ => rfl, fun _ => rfl⟩

theorem leads_perform {E : List Use → Prop} (mono : p = true → q = true)
    (h : ∀ t, E t → Use.follow x p t = some q) : Leads x p q (perform E) := by
  refine ⟨mono, ?_⟩
  rintro o t ⟨-, ht⟩
  exact ⟨q, h t ht, fun _ => rfl, fun same => same.symm⟩

theorem Leads.andThen (hB : Leads x p q B) (hC : Leads x q r C) : Leads x p r (B.andThen C) := by
  refine ⟨fun h => hC.mono (hB.mono h), ?_⟩
  -- what stays as it was in the whole stays as it was in both parts
  have between (same : p = r) : p = q ∧ q = r := by
    have first := hB.mono
    have second := hC.mono
    subst same
    cases p <;> cases q <;> simp_all
  rintro o _ (⟨b, c⟩ | ⟨abrupt, b⟩)
  · obtain ⟨m, hm, normal, -⟩ := hB.follows _ _ b
    obtain ⟨n, hn, normal', steady⟩ := hC.follows _ _ c
    cases normal rfl
    refine ⟨n, by rw [Use.follow_append, hm]; exact hn, normal', fun same => ?_⟩
    obtain ⟨first, second⟩ := between same
    exact (steady second).trans first.symm
  · obtain ⟨m, hm, -, steady⟩ := hB.follows _ _ b
    exact ⟨m, hm, fun normal => absurd normal abrupt, fun same => steady (between same).1⟩

theorem Leads.either (hB : Leads x p q B) (hC : Leads x p q C) : Leads x p q (B.either C) := by
  refine ⟨hB.mono, ?_⟩
  rintro o t (h | h)
  · exact hB.follows o t h
  · exact hC.follows o t h

theorem Leads.catching (hB : Leads x p p B) (j : Outcome) : Leads x p p (catching j B) := by
  refine ⟨id, ?_⟩
  rintro o t (⟨h, -⟩ | ⟨h, -⟩)
  · exact hB.follows o t h
  · obtain ⟨r, hr, -, steady⟩ := hB.follows _ t h
    exact ⟨r, hr, fun _ => steady rfl, steady⟩

/-- Every round starts from the same. -/
theorem Leads.rounds (hB : Leads x p p B) (hC : Leads x p p C) : Leads x p p (B.rounds C) := by
  refine ⟨id, fun o t h => ?_⟩
  induction h with
  | done c => exact hC.follows _ _ c
  | again b _ ih =>
    obtain ⟨m, hm, normal, -⟩ := hB.follows _ _ b
    obtain ⟨n, hn, rest⟩ := ih
    cases normal rfl
    exact ⟨n, by rw [Use.follow_append, hm]; exact hn, rest⟩
  | exit _ b => exact hB.follows _ _ b

end Course

/-! ## What the analysis records -/

namespace Assigned

variable {a b : Assigned} {x : Nat} {p : Bool}

theorem lookup_mark (i : Nat) (h : a.lookup x = some p) :
    (a.map fun (j, b) => (j, b || j == i)).lookup x = some (p || x == i) := by
  induction a with
  | nil => cases h
  | cons e a ih =>
    obtain ⟨j, b⟩ := e
    rw [List.map_cons, List.lookup_cons]
    rw [List.lookup_cons] at h
    split
    · rename_i same
      rw [same] at h
      cases h
      rw [eq_of_beq same]
    · rename_i other
      rw [other] at h
      exact ih h

end Assigned

section Recording

variable {x : Nat} {p : Bool} {a b : Assigned} {complain : Error}

/-- The uses that write the places that are replaced. -/
def Use.replacing (rs : List Ref) : List Use := rs.map fun r => ⟨.write, r.id, false⟩

theorem Use.follow_replacing_append {rs ss : List Ref} :
    follow x p (replacing (rs ++ ss)) = (follow x p (replacing rs)).bind fun q => follow x q (replacing ss) := by
  rw [replacing, List.map_append, follow_append]
  rfl

/-- What replaces the variable makes it an assigned one, and it must not have been one. -/
structure Records (x : Nat) (p : Bool) (b : Assigned) (rs : List Ref) (q : Bool) : Prop where
  lookup : b.lookup x = some q
  follow : Use.follow x p (Use.replacing rs) = some q
  mono : p = true → q = true
  same : x ∉ rs.map Ref.id → q = p

theorem Records.nothing (h : a.lookup x = some p) : Records x p a [] p := ⟨h, rfl, fun h => h, fun _ => rfl⟩

mutual

theorem Expr.markAssigned_records : ∀ (e : Expr) (p : Bool) (a b : Assigned), e.markAssigned complain a = .ok b →
    a.lookup x = some p → ∃ q, Records x p b e.replaced q
  | .tuple _ es, p, a, b, h, hp => Expr.markAll_records es p a b h hp
  | .ident _ _ (some r), p, a, b, h, hp => by
    unfold Expr.markAssigned at h
    dsimp only at h
    by_cases here : r.id = x
    · rw [here, hp] at h
      cases p with
      | true => cases h
      | false =>
        cases h
        refine ⟨true, ?_, ?_, fun _ => rfl, fun absent => absurd (by simp [Expr.replaced, here]) absent⟩
        · rw [Assigned.lookup_mark x hp, beq_self_eq_true]
          rfl
        · simp [Expr.replaced, Use.replacing, Use.follow_cons, Use.step, Use.writes, here]
    · have elsewhere : Use.follow x p (Use.replacing [r]) = some p := by
        simp [Use.replacing, Use.follow_cons, Use.step, Use.writes, Use.reads, here]
      split at h
      · cases h
        exact ⟨p, hp, elsewhere, fun h => h, fun _ => rfl⟩
      · cases h
      · cases h
        refine ⟨p, ?_, elsewhere, fun h => h, fun _ => rfl⟩
        have other : (x == r.id) = false := beq_false_of_ne fun same => here same.symm
        rw [Assigned.lookup_mark r.id hp, other, Bool.or_false]
  | .ident _ _ none, p, a, b, h, hp | .operator .., p, a, b, h, hp | .call .., p, a, b, h, hp
  | .new .., p, a, b, h, hp | .cast .., p, a, b, h, hp | .boolLit .., p, a, b, h, hp | .numLit .., p, a, b, h, hp
  | .arrayLit .., p, a, b, h, hp | .member .., p, a, b, h, hp | .index .., p, a, b, h, hp | .me _, p, a, b, h, hp
  | .all _, p, a, b, h, hp | .reclassify .., p, a, b, h, hp => by
    cases h
    exact ⟨p, .nothing hp⟩

theorem Expr.markAll_records : ∀ (es : List Expr) (p : Bool) (a b : Assigned),
    Expr.markAssigned.markAll complain es a = .ok b → a.lookup x = some p →
      ∃ q, Records x p b (Expr.replaced.replacedAll es) q
  | [], p, a, b, h, hp => by
    cases h
    exact ⟨p, .nothing hp⟩
  | e :: es, p, a, b, h, hp => by
    obtain ⟨c, first, rest⟩ := except_bind_ok h
    obtain ⟨m, hm⟩ := e.markAssigned_records p a c first hp
    obtain ⟨q, hq⟩ := Expr.markAll_records es m c b rest hm.lookup
    refine ⟨q, hq.lookup, ?_, fun h => hq.mono (hm.mono h), fun absent => ?_⟩
    · rw [Expr.replaced.replacedAll, Use.follow_replacing_append, hm.follow]
      exact hq.follow
    · rw [Expr.replaced.replacedAll, List.map_append, List.mem_append, not_or] at absent
      exact (hq.same absent.2).trans (hm.same absent.1)

end

/-- Only what has been assigned is read. -/
theorem Node.checkReads_ok {site : Site} {ns : List Node} (h : Node.checkReads site a ns = .ok ())
    (hp : a.lookup x = some p) : ∀ i n r, .expr (.ident i n (some r)) ∈ ns → r.id = x → p = true := by
  induction ns with
  | nil => exact fun _ _ _ h => nomatch h
  | cons m ns ih =>
    intro i n r hr same
    by_cases name : ∃ j k s, m = .expr (.ident j k (some s))
    · obtain ⟨j, k, s, rfl⟩ := name
      unfold Node.checkReads at h
      split at h
      · cases h
      · rename_i late
        rcases List.mem_cons.mp hr with eq | hr
        · cases eq
          rw [same, hp] at late
          cases p with
          | true => rfl
          | false => exact absurd rfl late
        · exact ih h i n r hr same
    · have skip : Node.checkReads site a (m :: ns) = Node.checkReads site a ns := by
        rw [Node.checkReads.eq_def]
        split
        · rename_i eq
          cases eq
        · rename_i eq
          cases eq
          exact absurd ⟨_, _, _, rfl⟩ name
        · rename_i eq
          cases eq
          rfl
      rw [skip] at h
      rcases List.mem_cons.mp hr with rfl | hr
      · exact absurd ⟨_, _, _, rfl⟩ name
      · exact ih h i n r hr same

end Recording

/-! ## Statements -/

/-- Follow the assignments of a part that may be missing. -/
def Stmt.assigns? (site : Site) : Option Stmt → Assigned → Except Error Assigned
  | none, a => .ok a
  | some s, a => s.assigns site a

theorem Stmt.assigns_forLoop (site : Site) (i : StmtInfo) (o : Option Stmt) (c : Expr) (u : Option Stmt) (b : Block)
    (a : Assigned) : (Stmt.forLoop i o c u b).assigns site a = (do
      let d ← assigns? site o a
      Node.checkReads { site with stmt := some (.forLoop i o c u b) } d c.nodes
      let e ← assigns? site u d
      b.assigns site e) := by
  cases o <;> cases u <;> rfl

/-- Some loop among the nodes repeats an assignment of the variable. -/
def Node.Repeats (x : Nat) (ns : List Node) : Prop :=
  ∃ s ∈ Node.stmts ns, ∃ r, s.repeated? = some r ∧ x ∈ (Node.replaced r.2).map Ref.id

theorem Node.not_repeats_part {x : Nat} {ns ms : List Node} (h : ¬ Node.Repeats x ns) (part : ms ⊆ ns) :
    ¬ Node.Repeats x ms := by
  rintro ⟨s, hs, r, hr⟩
  exact h ⟨s, Node.stmts_subset part hs, r, hr⟩

/-- Executions take the variable from one state to another one, which is the recorded one. -/
structure Tracks (x : Nat) (p : Bool) (b : Assigned) (ns : List Node) (C : Course) (q : Bool) : Prop where
  lookup : b.lookup x = some q
  leads : C.Leads x p q
  same : x ∉ (Node.replaced ns).map Ref.id → q = p

/-- What is recorded for the variable is what executions do, unless a loop assigns it. -/
def Tracked (x : Nat) (record : Assigned → Except Error Assigned) (ns : List Node) (C : Course) : Prop :=
  ∀ p a b, record a = .ok b → a.lookup x = some p → ¬ Node.Repeats x ns → ∃ q, Tracks x p b ns C q

namespace Tracked

variable {x : Nat} {f g : Assigned → Except Error Assigned} {ns ms : List Node} {B C : Course}

theorem idle : Tracked x .ok [] Course.idle := by
  rintro p a _ ⟨⟩ hp -
  exact ⟨p, hp, Course.leads_idle, fun _ => rfl⟩

theorem mono (h : Tracked x f ns C) (part : ns ⊆ ms) : Tracked x f ms C := by
  intro p a b hb hp once
  obtain ⟨q, hq⟩ := h p a b hb hp (Node.not_repeats_part once part)
  exact ⟨q, hq.lookup, hq.leads, fun absent => hq.same fun here =>
    absent (List.map_subset _ (Node.replaced_subset part) here)⟩

theorem andThen (hB : Tracked x f ns B) (hC : Tracked x g ms C) :
    Tracked x (fun a => f a >>= g) (ns ++ ms) (B.andThen C) := by
  intro p a b h hp once
  obtain ⟨c, first, rest⟩ := except_bind_ok h
  obtain ⟨m, hm⟩ := hB p a c first hp (Node.not_repeats_part once (List.subset_append_left ns ms))
  obtain ⟨q, hq⟩ := hC m c b rest hm.lookup (Node.not_repeats_part once (List.subset_append_right ns ms))
  refine ⟨q, hq.lookup, hm.leads.andThen hq.leads, fun absent => ?_⟩
  rw [Node.replaced_append, List.map_append, List.mem_append, not_or] at absent
  exact (hq.same absent.2).trans (hm.same absent.1)

/-- Code that does not assign the variable leaves it alone. -/
theorem steady (h : Tracked x f ns C) {p : Bool} {a b : Assigned} (hb : f a = .ok b) (hp : a.lookup x = some p)
    (once : ¬ Node.Repeats x ns) (absent : x ∉ (Node.replaced ns).map Ref.id) :
    b.lookup x = some p ∧ C.Leads x p p := by
  obtain ⟨q, hq⟩ := h p a b hb hp once
  cases hq.same absent
  exact ⟨hq.lookup, hq.leads⟩

end Tracked

section Statements

open Course

variable {symbols : Symbols} {calls : Calling} {x : Nat} {site : Site}

/-- Called functions do not write the variable. -/
def Calling.Spares (symbols : Symbols) (calls : Calling) (x : Nat) : Prop :=
  ∀ f g u, symbols.callee? f = some g → g.isConstructor = false → calls g u → ∀ a ∈ u, a.writes x = false

variable (spares : calls.Spares symbols x)

include spares

theorem Node.Evaluated.steady {ns : List Node} {p : Bool} {t : List Use}
    (reads : ∀ i n r, .expr (.ident i n (some r)) ∈ ns → r.id = x → p = true)
    (h : Node.Evaluated symbols calls ns t) : Use.follow x p t = some p := by
  refine Use.follow_steady (h.forall (fun i n r hr => ?_) fun f g u callee func does a ha => ?_)
  · by_cases here : r.id = x
    · rw [Use.step_reads (by simp [Use.reads, here]), reads i n r hr here]
      rfl
    · exact Use.step_other (by simp [Use.writes]) (by simp [Use.reads, here])
  · exact Use.step_other (spares f g u callee func does a ha) (by simp [Use.reads, Use.away])

theorem Node.Evaluated.steady_placed {ns : List Node} {p : Bool} {t : List Use}
    (h : Node.Evaluated symbols calls ns t) : Use.follow x p (t.map Use.placed) = some p := by
  refine Use.follow_steady (List.forall_mem_map.mpr (h.forall (fun i n r _ => ?_) fun f g u callee func does a ha => ?_))
  · exact Use.step_other rfl rfl
  · exact Use.step_other (spares f g u callee func does a ha) (by simp [Use.reads, Use.away, Use.placed])

theorem leads_evaluation {a : Assigned} {p : Bool} {ns : List Node}
    (reads : Node.checkReads site a ns = .ok ()) (hp : a.lookup x = some p) :
    (Node.evaluation symbols calls ns).Leads x p p :=
  leads_perform id fun _ ht => ht.steady spares (Node.checkReads_ok reads hp)

/-- A loop whose rounds leave the variable alone. -/
theorem leads_coursing {a : Assigned} {p : Bool} {c : Expr} {B : Course}
    (reads : Node.checkReads site a c.nodes = .ok ()) (hp : a.lookup x = some p) (hB : B.Leads x p p) :
    (c.coursing symbols calls B).Leads x p p :=
  have condition := leads_evaluation spares reads hp
  (condition.andThen hB).rounds condition

omit spares in
/-- Nothing that a loop repeats assigns the variable. -/
theorem Stmt.absent_of_repeated {s : Stmt} {r : Expr × List Node} (once : ¬ Node.Repeats x s.nodes)
    (hr : s.repeated? = some r) : x ∉ (Node.replaced r.2).map Ref.id := by
  intro again
  have own : s ∈ Node.stmts s.nodes := by
    cases s with
    | whileLoop | doWhile | forLoop => exact List.mem_filterMap.mpr ⟨_, Stmt.mem_nodes _, rfl⟩
    | _ => cases hr
  exact once ⟨s, own, r, hr, again⟩

/-- Executions of a statement follow what is recorded for a variable that no loop assigns. -/
theorem Stmt.tracked (s : Stmt) : Tracked x (s.assigns site) s.nodes (s.course symbols calls) := by
  have all (ss : List Stmt) (ih : ∀ s ∈ ss, Tracked x (s.assigns site) s.nodes (s.course symbols calls)) :
      Tracked x (Stmt.assignsAll site ss) (Stmt.nodesAll ss) (Stmt.courseAll symbols calls ss) := by
    induction ss with
    | nil => exact .idle
    | cons s ss hss => exact (ih s List.mem_cons_self).andThen (hss fun t ht => ih t (List.mem_cons_of_mem _ ht))
  have body (b : Block) (ih : ∀ s ∈ b.stmts, Tracked x (s.assigns site) s.nodes (s.course symbols calls)) :
      Tracked x (b.assigns site) b.nodes (b.course symbols calls) := by
    obtain ⟨i, ss, y⟩ := b
    exact (all ss ih).mono fun n hn => List.mem_cons_of_mem _ hn
  have part (a : Option Stmt) (ih : ∀ s, a = some s → Tracked x (s.assigns site) s.nodes (s.course symbols calls)) :
      Tracked x (assigns? site a) ((a.map nodes).getD []) (course? symbols calls a) := by
    cases a with
    | none => exact .idle
    | some s => exact ih s rfl
  induction s using Stmt.inductOn with
  | ifThen i c t e ht he =>
    cases e with
    | none =>
      intro p a d h hp once
      obtain ⟨_, reads, h⟩ := except_bind_ok h
      obtain ⟨b, then_, h⟩ := except_bind_ok h
      split at h
      · rename_i same
        cases h
        cases eq_of_beq same
        obtain ⟨q, hq⟩ := body t ht p a a then_ hp (Node.not_repeats_part once fun n hn => by simp [nodes, hn])
        cases Option.some.inj (hp.symm.trans hq.lookup)
        exact ⟨p, hp, (leads_evaluation spares reads hp).andThen (hq.leads.either leads_idle), fun _ => rfl⟩
      · cases h
    | some e =>
      intro p a d h hp once
      obtain ⟨_, reads, h⟩ := except_bind_ok h
      obtain ⟨b, then_, h⟩ := except_bind_ok h
      obtain ⟨b', else_, h⟩ := except_bind_ok h
      split at h
      · rename_i same
        cases h
        cases eq_of_beq same
        obtain ⟨q, hq⟩ := body t ht p a d then_ hp (Node.not_repeats_part once fun n hn => by simp [nodes, hn])
        obtain ⟨r, hr⟩ := body e (he e rfl) p a d else_ hp
          (Node.not_repeats_part once fun n hn => by simp [nodes, hn])
        cases Option.some.inj (hq.lookup.symm.trans hr.lookup)
        refine ⟨q, hq.lookup, (leads_evaluation spares reads hp).andThen (hq.leads.either hr.leads), fun absent => ?_⟩
        exact hq.same fun here => absent (by simp [nodes, here])
      · cases h
  | whileLoop i c b hb =>
    intro p a d h hp once
    obtain ⟨_, reads, h⟩ := except_bind_ok h
    have absent := absent_of_repeated once rfl
    obtain ⟨kept, round⟩ := (body b hb).steady h hp (Node.not_repeats_part once fun n hn => by simp [nodes, hn])
      fun here => absent (by simp [here])
    exact ⟨p, kept, (leads_coursing spares reads hp (round.catching _)).catching _, fun _ => rfl⟩
  | doWhile i b c hb =>
    intro p a d h hp once
    obtain ⟨e, h, later⟩ := except_bind_ok h
    obtain ⟨_, reads, later⟩ := except_bind_ok later
    cases later
    have absent := absent_of_repeated once rfl
    obtain ⟨kept, round⟩ := (body b hb).steady h hp (Node.not_repeats_part once fun n hn => by simp [nodes, hn])
      fun here => absent (by simp [here])
    have loop := leads_coursing spares reads kept (round.catching .continued)
    exact ⟨p, kept, ((round.catching _).andThen loop).catching _, fun _ => rfl⟩
  | forLoop i a c u b ha hu hb =>
    intro p o d h hp once
    rw [assigns_forLoop] at h
    obtain ⟨e, hinit, h⟩ := except_bind_ok h
    obtain ⟨_, reads, h⟩ := except_bind_ok h
    obtain ⟨e', hupdate, h⟩ := except_bind_ok h
    obtain ⟨q, hq⟩ := part a ha p o e hinit hp (Node.not_repeats_part once fun n hn => by simp [nodes_forLoop, hn])
    have absent : x ∉ (Node.replaced b.nodes).map Ref.id ∧ x ∉ (Node.replaced ((u.map nodes).getD [])).map Ref.id := by
      cases u with
      | none =>
        have absent := absent_of_repeated once rfl
        exact ⟨fun here => absent (by simp [here]), List.not_mem_nil⟩
      | some u =>
        have absent := absent_of_repeated once rfl
        exact ⟨fun here => absent (by simp [here]), fun here => absent (by simp at here; simp [here])⟩
    obtain ⟨kept, update⟩ := (part u hu).steady hupdate hq.lookup
      (Node.not_repeats_part once fun n hn => by simp [nodes_forLoop, hn]) absent.2
    obtain ⟨kept, round⟩ := (body b hb).steady h kept
      (Node.not_repeats_part once fun n hn => by simp [nodes_forLoop, hn]) absent.1
    have loop := leads_coursing spares reads hq.lookup ((round.catching .continued).andThen update)
    rw [course_forLoop]
    refine ⟨q, kept, hq.leads.andThen (loop.catching _), fun absent => hq.same fun here => absent ?_⟩
    rw [nodes_forLoop]
    simp [here]
  | block b hb => exact body b hb
  | seq i ss y hss => exact (all ss hss).mono fun n hn => List.mem_cons_of_mem _ hn
  | simple s hs =>
    intro p a b h hp once
    have plain (h : (do Node.checkReads { site with stmt := some s } a s.nodes; return a) = .ok b) :
        b.lookup x = some p ∧ (Node.evaluation symbols calls s.nodes).Leads x p p := by
      obtain ⟨_, reads, h⟩ := except_bind_ok h
      cases h
      exact ⟨hp, leads_evaluation spares reads hp⟩
    cases s with
    | assign i l r o y =>
      obtain ⟨_, reads, h⟩ := except_bind_ok h
      obtain ⟨q, hq⟩ := l.markAssigned_records p a b h hp
      refine ⟨q, hq.lookup, leads_perform hq.mono ?_, fun absent => hq.same ?_⟩
      · rintro _ ⟨value, places, found, located, rfl⟩
        rw [Use.follow_append, Use.follow_append, found.steady spares (Node.checkReads_ok reads hp), Option.bind_some,
          located.steady_placed spares, Option.bind_some]
        exact hq.follow
      · simpa [nodes, replaced] using absent
    | breakLoop | continueLoop => exact ⟨p, (plain h).1, leads_jump, fun _ => rfl⟩
    | ret => exact ⟨p, (plain h).1, (plain h).2.andThen leads_jump, fun _ => rfl⟩
    | eval | require | declare | compute | enterKey | comment | blank =>
      exact ⟨p, (plain h).1, (plain h).2, fun _ => rfl⟩
    | ifThen | whileLoop | doWhile | forLoop | block | seq => cases hs

end Statements

end Shroud
