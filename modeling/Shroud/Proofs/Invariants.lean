import Shroud.Proofs.Operators
import Shroud.Report.Functions

/-!
# Invariants of the check of types

The check changes the table of declarations as it goes on: a type is put there once it has been checked. An activity
upholds a property of such tables if it goes from a table that has it to another one, unless the check fails.

**Failure.** After a failure unchecked types get into the table. So nothing is claimed about what happens then, and what
an activity tells about its result is only used if the rest of the check does not fail either. This is why facts about
earlier results are passed on as an assumption `H` of the triple.
-/

namespace Shroud

/-- Given `H`, the activity keeps the property `I` of the declarations, and its result has the property `P`, unless the
checker fails. -/
structure Upholds {α : Type} (I : Symbols → Prop) (H : Prop) (P : α → Prop) (x : CheckM α) : Prop where
  ends : Ends (fun _ => True) x
  holds : H → ∀ s, I s.symbols → (x s).2.failure = none → I (x s).2.symbols ∧ P (x s).1

/-- Whatever the activity does, the declarations keep the property. -/
def Keeps {α : Type} (I : Symbols → Prop) (x : CheckM α) : Prop := ∀ s : CheckState, I s.symbols → I (x s).2.symbols

namespace Upholds

variable {α β : Type} {I : Symbols → Prop} {H H' : Prop} {P P' : α → Prop} {Q : β → Prop} {x : CheckM α}
  {f : α → CheckM β}

theorem pure {a : α} (h : H → P a) : Upholds I H P (Pure.pure a) := ⟨.pure trivial, fun hH _ hs _ => ⟨hs, h hH⟩⟩

theorem bind (hx : Upholds I H P x) (hf : ∀ a, Upholds I (H ∧ P a) Q (f a)) : Upholds I H Q (x >>= f) := by
  refine ⟨hx.ends.bind fun a => (hf a).ends.imp fun _ _ _ => trivial, fun h s hs done => ?_⟩
  obtain ⟨between, -⟩ := (hf (x s).1).ends (x s).2 done
  obtain ⟨kept, result⟩ := hx.holds h s hs between
  exact (hf (x s).1).holds ⟨h, result⟩ (x s).2 kept done

theorem imp (hx : Upholds I H P x) (h : ∀ a, H → P a → P' a) : Upholds I H P' x :=
  ⟨hx.ends, fun hH s hs done => (hx.holds hH s hs done).imp_right (h _ hH)⟩

theorem assuming (hx : Upholds I H P x) (h : H' → H) : Upholds I H' P x := ⟨hx.ends, fun hH => hx.holds (h hH)⟩

theorem of_ends (ends : Ends P x) (keeps : Keeps I x) : Upholds I H P x :=
  ⟨ends.imp fun _ _ => trivial, fun _ s hs done => ⟨keeps s hs, (ends s done).2⟩⟩

theorem and_ends {R : α → Prop} (hx : Upholds I H P x) (ends : Ends R x) : Upholds I H (fun a => P a ∧ R a) x :=
  ⟨hx.ends, fun hH s hs done => (hx.holds hH s hs done).imp_right fun result => ⟨result, (ends s done).2⟩⟩

theorem fail {e : Error} {a : α} : Upholds I H P (CheckM.fail e a) := of_ends .fail fun _ hs => hs

theorem warn {w : Warning} : Upholds I H (fun _ => True) (CheckM.warn w) := of_ends .warn fun _ hs => hs

theorem attempt {ε : Except Error β} {a : α} {g : β → CheckM α} (h : ∀ b, ε = .ok b → Upholds I H P (g b)) :
    Upholds I H P (CheckM.attempt ε a g) := by
  cases ε with
  | error e => exact fail
  | ok b => exact h b rfl

theorem ensure {b : Bool} {e : Error} {a : α} (h : b = true → Upholds I H P x) :
    Upholds I H P (CheckM.ensure b e a x) := by
  cases b with
  | false => exact fail
  | true => exact h rfl

theorem convert {c : Conversion} {put : Expr → α} {g : Expr → CheckM α}
    (h : ∀ e, c.result = .ok e → Upholds I H P (g e)) : Upholds I H P (CheckM.convert c put g) := by
  unfold CheckM.convert
  split
  · exact h _ ‹_›
  · exact fail

theorem convertAll {c : List Expr × Except Error (List Expr)} {put : List Expr → α} {g : List Expr → CheckM α}
    (h : ∀ es, c.2 = .ok es → Upholds I H P (g es)) : Upholds I H P (CheckM.convertAll c put g) := by
  unfold CheckM.convertAll
  split
  · exact h _ ‹_›
  · exact fail

/-- An activity that does nothing once the checker has failed. -/
theorem unlessStopped {a : α} (hx : Upholds I H P x) :
    Upholds I H P (do if ← CheckM.stopped then return a else x) := by
  refine .bind (P := (· = false)) (.of_ends .stopped fun _ hs => hs) fun stop => ?_
  cases stop with
  | true => exact .pure fun h => nomatch h.2
  | false => exact hx.assuming And.left

/-- An activity that needs the declarations. -/
theorem withSymbols {g : Symbols → CheckM α} (h : ∀ s, Upholds I (H ∧ I s) P (g s)) :
    Upholds I H P (do g (← CheckM.symbols)) := by
  refine ⟨Ends.withSymbols fun s => (h s).ends, fun hH s hs done => ?_⟩
  exact (h s.symbols).holds ⟨hH, hs⟩ s hs done

theorem mapM {f : α → CheckM β} {Q : α → β → Prop} {xs : List α} (h : ∀ a ∈ xs, Upholds I H (Q a) (f a)) :
    Upholds I H (fun ys => List.Forall₂ Q xs ys) (xs.mapM f) := by
  induction xs with
  | nil =>
    rw [List.mapM_nil]
    exact .pure fun _ => .nil
  | cons x xs ih =>
    rw [List.mapM_cons]
    refine (h x List.mem_cons_self).bind fun y => ?_
    refine ((ih fun a ha => h a (List.mem_cons_of_mem _ ha)).assuming And.left).bind fun ys => ?_
    exact .pure fun known => .cons known.1.2 known.2

end Upholds

/-! ## Statements -/

namespace Stmt

/-- The statement has others below it. -/
def isCompound : Stmt → Bool
  | .ifThen .. | .whileLoop .. | .doWhile .. | .forLoop .. | .block _ | .seq .. => true
  | _ => false

/-- Comments and blank lines are no statements. -/
def isCode : Stmt → Bool
  | .comment _ | .blank => false
  | _ => true

theorem stmts_simple {s : Stmt} (simple : s.isCompound = false) :
    Node.stmts s.nodes = if s.isCode then [s] else [] := by
  cases s with
  | ifThen | whileLoop | doWhile | forLoop | block | seq => cases simple
  | ret i e => exact congrArg (_ :: ·) (Expr.stmts_nodes? e)
  | eval i e | require i e => exact congrArg (_ :: ·) e.stmts_nodes
  | assign i l r o x =>
    show _ :: Node.stmts (l.nodes ++ r.nodes) = _
    rw [Node.stmts_append, l.stmts_nodes, r.stmts_nodes]
    rfl
  | declare i v e =>
    show _ :: Node.stmts (v.nodes ++ Expr.nodes? e) = _
    rw [Node.stmts_append, v.stmts_nodes, Expr.stmts_nodes?]
    rfl
  | _ => rfl

/-- A checked statement is no compound one unless it was one before. -/
theorem check_simple (b : BodyContext) {s : Stmt} (simple : s.isCompound = false) :
    Ends (fun s' => s'.isCompound = false ∧ s'.isCode = s.isCode) (s.check b) := by
  have returned (i : StmtInfo) (e : Option Expr) :
      Ends (fun s' => s'.isCompound = false ∧ s'.isCode = true) (typeReturn b i e) := by
    refine .withSymbols fun _ => .ensure fun _ => ?_
    split
    · exact .ensure fun _ => .pure ⟨rfl, rfl⟩
    · exact .convert fun _ _ => .pure ⟨rfl, rfl⟩
    · exact .ensure fun _ => .convertAll fun _ _ => .attempt fun _ _ => .pure ⟨rfl, rfl⟩
  have declared (i : StmtInfo) (v : LocalVar) (e : Option Expr) :
      Ends (fun s' => s'.isCompound = false ∧ s'.isCode = true) (typeDeclare b i v e) := by
    have type (spot : LocalVar → Site) : Ends (fun _ => True) (v.check i.before spot) :=
      (v.type.check_ends _ _).bind fun _ => Ends.setType.bind fun _ => .pure fun _ _ => trivial
    refine .unlessStopped ((type _).bind fun v => ?_)
    cases e with
    | none => exact .pure fun _ => ⟨rfl, rfl⟩
    | some e =>
      refine (e.check_settled _).bind fun e => ?_
      refine (Ends.unlessStopped (P := fun s' => s'.isCompound = false ∧ s'.isCode = true) ?_).imp fun _ h _ _ => h
      exact .withSymbols fun _ => .convert fun _ _ => .pure ⟨rfl, rfl⟩
  cases s with
  | ifThen | whileLoop | doWhile | forLoop | block | seq => cases simple
  | ret i e =>
    cases e with
    | none => exact .unlessStopped (returned i none)
    | some e => exact (e.check_settled _).bind fun _ => (Ends.unlessStopped (returned i _)).imp fun _ h _ => h
  | eval i e => exact (e.check_settled _).bind fun _ => .pure fun _ => ⟨rfl, rfl⟩
  | require i e =>
    refine (e.check_settled _).bind fun _ => ?_
    refine (Ends.unlessStopped (P := fun s' => s'.isCompound = false ∧ s'.isCode = true) ?_).imp fun _ h _ => h
    exact .ensure fun _ => .attempt fun _ _ => .pure ⟨rfl, rfl⟩
  | assign i l r o x =>
    refine (l.check_settled _).bind fun _ => (r.check_settled _).bind fun _ => ?_
    refine (Ends.unlessStopped (P := fun s' => s'.isCompound = false ∧ s'.isCode = true) ?_).imp fun _ h _ _ => h
    exact .withSymbols fun _ => .ensure fun _ => .convert fun _ _ => .attempt fun _ _ => .pure ⟨rfl, rfl⟩
  | declare i v e => exact declared i v e
  | _ => exact .pure ⟨rfl, rfl⟩

end Stmt

/-- The nodes of a statement are those of its expressions and simple statements, and the compound ones by themselves. -/
theorem Stmt.nodes_inductOn {Q : List Node → Prop} (nil : Q []) (append : ∀ ns ms, Q ns → Q ms → Q (ns ++ ms))
    (expr : ∀ e : Expr, Q e.nodes) (compound : ∀ s : Stmt, s.isCompound = true → Q [.stmt s])
    (simple : ∀ s : Stmt, s.isCompound = false → Q s.nodes) (s : Stmt) : Q s.nodes := by
  have all (ss : List Stmt) (ih : ∀ s ∈ ss, Q s.nodes) : Q (nodesAll ss) := by
    induction ss with
    | nil => exact nil
    | cons s ss hss =>
      exact append _ _ (ih s List.mem_cons_self) (hss fun t ht => ih t (List.mem_cons_of_mem _ ht))
  have body (t : Block) (ih : ∀ s ∈ t.stmts, Q s.nodes) : Q t.nodes := by
    obtain ⟨i, ss, x⟩ := t
    exact append [_] _ (compound (.block ⟨i, ss, x⟩) rfl) (all ss ih)
  have optional (a : Option Stmt) (ih : ∀ s, a = some s → Q s.nodes) : Q ((a.map nodes).getD []) := by
    cases a with
    | none => exact nil
    | some s => exact ih s rfl
  induction s using Stmt.inductOn with
  | ifThen i c t e ht he =>
    cases e with
    | none => exact append (_ :: c.nodes) _ (append [_] _ (compound _ rfl) (expr c)) (body t ht)
    | some e =>
      exact append (_ :: c.nodes ++ t.nodes) _ (append (_ :: c.nodes) _ (append [_] _ (compound _ rfl) (expr c))
        (body t ht)) (body e (he e rfl))
  | whileLoop i c t hb => exact append (_ :: c.nodes) _ (append [_] _ (compound _ rfl) (expr c)) (body t hb)
  | doWhile i t c hb => exact append (_ :: t.nodes) _ (append [_] _ (compound _ rfl) (body t hb)) (expr c)
  | forLoop i a c u t ha hu hb =>
    rw [nodes_forLoop]
    refine append [_] _ (compound _ rfl) (append _ _ (append _ _ (append _ _ ?_ (expr c)) ?_) (body t hb))
    · exact optional a ha
    · exact optional u hu
  | block t hb => exact body t hb
  | seq i ss x hs => exact append [_] _ (compound _ rfl) (all ss hs)
  | simple s hs =>
    cases s with
    | ifThen | whileLoop | doWhile | forLoop | block | seq => cases hs
    | _ => exact simple _ rfl

/-- Variables are declared by statements. -/
theorem Stmt.locals_declared (s : Stmt) : ∀ v ∈ Node.locals s.nodes, ∃ i e, .declare i v e ∈ Node.stmts s.nodes := by
  refine nodes_inductOn (Q := fun ns => ∀ v ∈ Node.locals ns, ∃ i e, .declare i v e ∈ Node.stmts ns) nofun ?_ ?_
    (fun _ _ => nofun) ?_ s
  · intro ns ms hns hms
    rw [Node.locals_append, Node.stmts_append]
    refine List.forall_mem_append.mpr ⟨fun v hv => ?_, fun v hv => ?_⟩
    · obtain ⟨i, e, he⟩ := hns v hv
      exact ⟨i, e, List.mem_append_left _ he⟩
    · obtain ⟨i, e, he⟩ := hms v hv
      exact ⟨i, e, List.mem_append_right _ he⟩
  · intro e
    rw [e.locals_nodes]
    nofun
  · intro s simple
    cases s with
    | ifThen | whileLoop | doWhile | forLoop | block | seq => cases simple
    | ret i e =>
      show ∀ v ∈ Node.locals (Expr.nodes? e), _
      rw [Expr.locals_nodes?]
      nofun
    | eval i e | require i e =>
      show ∀ v ∈ Node.locals e.nodes, _
      rw [e.locals_nodes]
      nofun
    | assign i l r o x =>
      show ∀ v ∈ Node.locals (l.nodes ++ r.nodes), _
      rw [Node.locals_append, l.locals_nodes, r.locals_nodes]
      nofun
    | declare i w e =>
      have only : Node.locals (Stmt.declare i w e).nodes = [w] := by
        show w :: Node.locals (w.type.nodes ++ [Node.name w.name] ++ Expr.nodes? e) = [w]
        rw [Node.locals_append, Node.locals_append, w.type.locals_nodes, Expr.locals_nodes?]
        rfl
      rw [only]
      refine List.forall_mem_singleton.mpr ⟨i, e, ?_⟩
      rw [Stmt.stmts_simple rfl]
      exact List.mem_singleton_self _
    | _ => nofun

/-- The statements of both are related one by one. -/
def Node.Each (P : Stmt → Stmt → Prop) (ns ns' : List Node) : Prop := List.Forall₂ P (Node.stmts ns) (Node.stmts ns')

section Statements

variable {P : Stmt → Stmt → Prop} {s s' : Stmt} {ns ns' ms ms' : List Node}

theorem Node.Each.append (h : Node.Each P ns ns') (h' : Node.Each P ms ms') : Node.Each P (ns ++ ms) (ns' ++ ms') := by
  unfold Node.Each
  rw [stmts_append, stmts_append]
  exact List.rel_append h h'

theorem Node.Each.stmt (hs : P s s') (h : Node.Each P ns ns') (code : s.isCode = true) (code' : s'.isCode = true) :
    Node.Each P (.stmt s :: ns) (.stmt s' :: ns') := by
  have list {t : Stmt} {ms : List Node} (ht : t.isCode = true) : stmts (.stmt t :: ms) = t :: stmts ms := by
    cases t with
    | comment | blank => cases ht
    | _ => rfl
  unfold Node.Each
  rw [list code, list code']
  exact .cons hs h

theorem Node.Each.simple (hs : s.isCode = true → P s s') (simple : s.isCompound = false)
    (simple' : s'.isCompound = false) (code : s'.isCode = s.isCode) : Node.Each P s.nodes s'.nodes := by
  unfold Node.Each
  rw [Stmt.stmts_simple simple, Stmt.stmts_simple simple', code]
  split
  · exact .cons (hs ‹_›) .nil
  · exact .nil

theorem Node.Each.expr (e e' : Expr) : Node.Each P e.nodes e'.nodes := by
  unfold Node.Each
  rw [Expr.stmts_nodes, Expr.stmts_nodes]
  exact .nil

variable {I : Symbols → Prop} {H : Prop} {E : Expr → Expr → Prop} {N : Node → Prop} {b : BodyContext}

/-- Checking keeps the statements. How checked expressions are related to those before is known of compound statements. -/
theorem Stmt.check_each
    (expr : ∀ (c : CheckContext) (e : Expr), (∀ n ∈ e.nodes, N n) → Upholds I H (E e) (e.check c))
    (compound : ∀ s s' : Stmt, s.isCompound = true → List.Forall₂ E s.exprs s'.exprs → P s s')
    (simple : ∀ s : Stmt, s.isCompound = false → (∀ n ∈ s.nodes, N n) →
      Upholds I H (fun s' => s.isCode = true → P s s') (s.check b))
    (s : Stmt) (known : ∀ n ∈ s.nodes, N n) : Upholds I H (fun s' => Node.Each P s.nodes s'.nodes) (s.check b) := by
  have all (ss : List Stmt) (ih : ∀ s ∈ ss, (∀ n ∈ s.nodes, N n) →
      Upholds I H (fun s' => Node.Each P s.nodes s'.nodes) (s.check b)) (known : ∀ n ∈ nodesAll ss, N n) :
      Upholds I H (fun ss' => Node.Each P (nodesAll ss) (nodesAll ss')) (checkAll b ss) := by
    induction ss with
    | nil => exact .pure fun _ => .nil
    | cons s ss hss =>
      obtain ⟨first, rest⟩ := List.forall_mem_append.mp known
      refine (ih s List.mem_cons_self first).bind fun s' => ?_
      refine ((hss (fun t ht => ih t (List.mem_cons_of_mem _ ht)) rest).assuming And.left).bind fun ss' => ?_
      exact .pure fun h => h.1.2.append h.2
  have body (t : Block) (ih : ∀ s ∈ t.stmts, (∀ n ∈ s.nodes, N n) →
      Upholds I H (fun s' => Node.Each P s.nodes s'.nodes) (s.check b)) (known : ∀ n ∈ t.nodes, N n) {H' : Prop}
      (h : H' → H) : Upholds I H' (fun t' => Node.Each P t.nodes t'.nodes) (t.check b) := by
    obtain ⟨_, ss, _⟩ := t
    refine ((all ss ih (List.forall_mem_cons.mp known).2).assuming h).bind fun ss' => .pure fun h => ?_
    exact .stmt (compound _ _ rfl .nil) h.2 rfl rfl
  have optional (a : Option Stmt) {x : CheckM (Option Stmt)} (missing : a = none → x = Pure.pure none)
      (given : ∀ s, a = some s → x = (do return some (← s.check b))) (ih : ∀ s, a = some s → (∀ n ∈ s.nodes, N n) →
      Upholds I H (fun s' => Node.Each P s.nodes s'.nodes) (s.check b)) (known : ∀ n ∈ (a.map nodes).getD [], N n)
      {H' : Prop} (h : H' → H) :
      Upholds I H' (fun a' => Node.Each P ((a.map nodes).getD []) ((a'.map nodes).getD [])) x := by
    cases a with
    | none =>
      rw [missing rfl]
      exact .pure fun _ => .nil
    | some s =>
      rw [given s rfl]
      exact ((ih s rfl known).assuming h).bind fun s' => .pure And.right
  have verified (s : Stmt) {x : Except Error Unit} {H' : Prop} {Q : Stmt → Prop} (h : H' → Q s) :
      Upholds I H' Q (CheckM.unlessStopped s (CheckM.attempt x s fun _ => return s)) :=
    .unlessStopped (.attempt fun _ _ => .pure h)
  induction s using Stmt.inductOn with
  | ifThen i c t e ht he =>
    cases e with
    | none =>
      obtain ⟨hc, known⟩ := List.forall_mem_append.mp known
      refine (expr _ c (List.forall_mem_cons.mp hc).2).bind fun c' => (body t ht known And.left).bind fun t' =>
        verified _ fun h => ?_
      exact .append (.stmt (compound _ _ rfl (.cons h.1.2 .nil)) (.expr c c') rfl rfl) h.2
    | some e =>
      obtain ⟨known, knownElse⟩ := List.forall_mem_append.mp known
      obtain ⟨hc, known⟩ := List.forall_mem_append.mp known
      refine (expr _ c (List.forall_mem_cons.mp hc).2).bind fun c' => (body t ht known And.left).bind fun t' =>
        (body e (he e rfl) knownElse fun h => h.1.1).bind fun e' => verified _ fun h => ?_
      exact .append (.append (.stmt (compound _ _ rfl (.cons h.1.1.2 .nil)) (.expr c c') rfl rfl)
        h.1.2) h.2
  | whileLoop i c t hb =>
    obtain ⟨hc, known⟩ := List.forall_mem_append.mp known
    refine (expr _ c (List.forall_mem_cons.mp hc).2).bind fun c' => (body t hb known And.left).bind fun t' =>
      verified _ fun h => ?_
    exact .append (.stmt (compound _ _ rfl (.cons h.1.2 .nil)) (.expr c c') rfl rfl) h.2
  | doWhile i t c hb =>
    obtain ⟨known, hc⟩ := List.forall_mem_append.mp known
    refine (body t hb (List.forall_mem_cons.mp known).2 id).bind fun t' =>
      ((expr _ c hc).assuming And.left).bind fun c' => verified _ fun h => ?_
    exact .append (.stmt (compound _ _ rfl (.cons h.2 .nil)) h.1.2 rfl rfl) (.expr c c')
  | forLoop i a c u t ha hu hb =>
    rw [nodes_forLoop] at known
    obtain ⟨known, hb'⟩ := List.forall_mem_append.mp (List.forall_mem_cons.mp known).2
    obtain ⟨known, hu'⟩ := List.forall_mem_append.mp known
    obtain ⟨ha', hc⟩ := List.forall_mem_append.mp known
    unfold check
    refine (optional a (by rintro rfl; rfl) (by rintro s rfl; rfl) ha ha' id).bind fun a' =>
      ((expr _ c hc).assuming And.left).bind fun c' =>
        (optional u (by rintro rfl; rfl) (by rintro s rfl; rfl) hu hu' fun h => h.1.1).bind fun u' =>
          (body t hb hb' fun h => h.1.1.1).bind fun t' => verified _ fun h => ?_
    rw [nodes_forLoop, nodes_forLoop]
    refine .stmt (compound _ _ rfl (.cons h.1.1.2 .nil)) ?_ rfl rfl
    exact .append (.append (.append h.1.1.1.2 (.expr c c')) h.1.2) h.2
  | block t hb => exact (body t hb known id).bind fun t' => .pure And.right
  | seq i ss x hs =>
    refine (all ss hs (List.forall_mem_cons.mp known).2).bind fun ss' => .pure fun h => ?_
    exact .stmt (compound _ _ rfl .nil) h.2 rfl rfl
  | simple s hs =>
    have single : s.isCompound = false := by
      cases s with
      | ifThen | whileLoop | doWhile | forLoop | block | seq => cases hs
      | _ => rfl
    exact ((simple s single known).and_ends (check_simple b single)).imp fun _ _ h => .simple h.1 single h.2.1 h.2.2

/-- Checking a block is checking the statement that it is. -/
theorem Block.check_upholds {t : Block} {Q : Stmt → Prop} (h : Upholds I H Q ((Stmt.block t).check b)) :
    Upholds I H (fun t' => Q (.block t')) (t.check b) := ⟨h.ends, h.holds⟩

end Statements

end Shroud
