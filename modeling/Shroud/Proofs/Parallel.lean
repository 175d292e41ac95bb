import Shroud.Proofs.Invariants
import Shroud.Proofs.Marking
import Shroud.Proofs.Numbers
import Shroud.Proofs.Lawful

/-!
# Bodies side by side

The passes around the call graph keep the statements of a body as they are and change expressions in place. Two bodies
are parallel if they have the same statements, one by one and on all levels, with related expressions in each.

**One relation for all passes.** What a pass does to single expressions is a parameter: noting what is known and marking
accesses change none (`Stmt.markAliases_parallel`, `Stmt.markOwn_parallel`, `Stmt.markCalled_parallel`), placing changes
them as it changes each by itself (`Stmt.place_parallel`). A property of expressions that every pass keeps is kept in the
bodies.
-/

namespace Shroud

variable {R : Expr → Expr → Prop}

/-- Both have the same statements, with related expressions. -/
def Stmt.Parallel (R : Expr → Expr → Prop) (s s' : Stmt) : Prop :=
  Node.Each (fun t t' => List.Forall₂ R t.exprs t'.exprs) s.nodes s'.nodes

def Block.Parallel (R : Expr → Expr → Prop) (b b' : Block) : Prop := (Stmt.block b).Parallel R (.block b')

section Parallel

variable {i i' : StmtInfo} {s s' : Stmt} {ss ss' : List Stmt} {a a' u u' : Option Stmt} {c c' d d' : Expr}
  {b b' t t' : Block} {e e' : Option Expr} {v v' : LocalVar} {o o' : String} {x x' : Bool}

theorem Block.Parallel.mk (h : List.Forall₂ (Stmt.Parallel R) ss ss') : Block.Parallel R ⟨i, ss, x⟩ ⟨i', ss', x'⟩ := by
  refine Node.Each.stmt .nil ?_ rfl rfl
  induction h with
  | nil => exact .nil
  | cons hs _ ih => exact .append hs ih

namespace Stmt.Parallel

theorem refl (h : ∀ e, R e e) (s : Stmt) : s.Parallel R s :=
  List.forall₂_same.mpr fun _ _ => List.forall₂_same.mpr fun e _ => h e

theorem trans {S T : Expr → Expr → Prop} (h : ∀ d e f, R d e → S e f → T d f) {s₁ s₂ s₃ : Stmt}
    (h₁ : s₁.Parallel R s₂) (h₂ : s₂.Parallel S s₃) : s₁.Parallel T s₃ := by
  refine forall₂_comp (S := fun t t' : Stmt => List.Forall₂ S t.exprs t'.exprs) (fun _ _ _ hR hS => ?_) h₁ h₂
  exact forall₂_comp h hR hS

theorem ifThen (hc : R c c') (h : t.Parallel R t') : (Stmt.ifThen i c t none).Parallel R (.ifThen i' c' t' none) :=
  .append (.stmt (.cons hc .nil) (.expr c c') rfl rfl) h

theorem ifElse (hc : R c c') (h : t.Parallel R t') (hb : b.Parallel R b') :
    (Stmt.ifThen i c t (some b)).Parallel R (.ifThen i' c' t' (some b')) :=
  .append (.append (.stmt (.cons hc .nil) (.expr c c') rfl rfl) h) hb

theorem whileLoop (hc : R c c') (h : b.Parallel R b') : (Stmt.whileLoop i c b).Parallel R (.whileLoop i' c' b') :=
  .append (.stmt (.cons hc .nil) (.expr c c') rfl rfl) h

theorem doWhile (hc : R c c') (h : b.Parallel R b') : (Stmt.doWhile i b c).Parallel R (.doWhile i' b' c') :=
  .append (.stmt (.cons hc .nil) h rfl rfl) (.expr c c')

theorem optional (h : Option.Rel (Stmt.Parallel R) a a') :
    Node.Each (fun t t' => List.Forall₂ R t.exprs t'.exprs) ((a.map nodes).getD []) ((a'.map nodes).getD []) := by
  cases h with
  | none => exact .nil
  | some h => exact h

theorem forLoop (ha : Option.Rel (Stmt.Parallel R) a a') (hc : R c c') (hu : Option.Rel (Stmt.Parallel R) u u')
    (h : b.Parallel R b') : (Stmt.forLoop i a c u b).Parallel R (.forLoop i' a' c' u' b') := by
  unfold Stmt.Parallel
  rw [nodes_forLoop, nodes_forLoop]
  exact .stmt (.cons hc .nil) (.append (.append (.append (optional ha) (.expr c c')) (optional hu)) h) rfl rfl

theorem block (h : b.Parallel R b') : (Stmt.block b).Parallel R (.block b') := h

theorem seq (h : List.Forall₂ (Stmt.Parallel R) ss ss') : (Stmt.seq i ss x).Parallel R (.seq i' ss' x') := by
  refine Node.Each.stmt .nil ?_ rfl rfl
  induction h with
  | nil => exact .nil
  | cons hs _ ih => exact .append hs ih

theorem ret (h : Option.Rel R e e') : (Stmt.ret i e).Parallel R (.ret i' e') := by
  refine .simple (fun _ => ?_) rfl rfl rfl
  cases h with
  | none => exact .nil
  | some h => exact .cons h .nil

theorem eval (h : R c c') : (Stmt.eval i c).Parallel R (.eval i' c') :=
  .simple (fun _ => .cons h .nil) rfl rfl rfl

theorem require (h : R c c') : (Stmt.require i c).Parallel R (.require i' c') :=
  .simple (fun _ => .cons h .nil) rfl rfl rfl

theorem assign (h : R c c') (hd : R d d') : (Stmt.assign i c d o x).Parallel R (.assign i' c' d' o' x') :=
  .simple (fun _ => .cons h (.cons hd .nil)) rfl rfl rfl

theorem declare (h : Option.Rel R e e') : (Stmt.declare i v e).Parallel R (.declare i' v' e') := by
  refine .simple (fun _ => ?_) rfl rfl rfl
  cases h with
  | none => exact .nil
  | some h => exact .cons h .nil

end Stmt.Parallel

end Parallel

/-! ## Knowledge -/

/-- Noting what is known changes no expression. -/
theorem Stmt.markAliases_parallel (h : ∀ e, R e e) (symbols : Symbols) (k : Knowledge) (s : Stmt) :
    Delivers (s.Parallel R) (s.markAliases symbols k) := by
  have all (ss : List Stmt) (ih : ∀ s ∈ ss, ∀ k, Delivers (s.Parallel R) (s.markAliases symbols k)) (k : Knowledge) :
      Delivers (fun r => List.Forall₂ (Stmt.Parallel R) ss r.1) (Stmt.markAliasesAll symbols k ss) := by
    induction ss generalizing k with
    | nil => exact .ok .nil
    | cons s ss hss =>
      exact (ih s List.mem_cons_self k).bind fun _ hs =>
        (hss (fun t ht => ih t (List.mem_cons_of_mem _ ht)) _).bind fun _ hss => .ok (.cons hs hss)
  have body : ∀ b : Block, (∀ s ∈ b.stmts, ∀ k, Delivers (s.Parallel R) (s.markAliases symbols k)) → ∀ k,
      Delivers (b.Parallel R) (b.markAliases symbols k)
    | ⟨_, ss, _⟩, ih, k => (all ss ih _).bind fun _ hss => .after fun _ => .ok (.mk hss)
  induction s using Stmt.inductOn generalizing k with
  | ifThen i c t e ht he =>
    cases e with
    | none => exact .after fun _ => (body t ht _).bind fun _ ht => .after fun _ => .ok (.ifThen (h c) ht)
    | some e =>
      exact .after fun _ => (body t ht _).bind fun _ ht => .after fun _ => (body e (he e rfl) _).bind fun _ he =>
        .after fun _ => .ok (.ifElse (h c) ht he)
  | whileLoop i c b hb =>
    exact .after fun _ => .after fun _ => (body b hb _).bind fun _ hb => .after fun _ => .ok (.whileLoop (h c) hb)
  | doWhile i b c hb =>
    exact .after fun _ => (body b hb _).bind fun _ hb => .after fun _ => .ok (.doWhile (h c) hb)
  | forLoop i a c u b ha hu hb =>
    unfold Stmt.markAliases
    refine .bind (P := Option.Rel (Stmt.Parallel R) a) ?_ fun _ ha => .after fun _ => .after fun _ =>
      (body b hb _).bind fun _ hb => .bind (P := Option.Rel (Stmt.Parallel R) u) ?_ fun _ hu => .after fun _ =>
        .after fun _ => .ok (.forLoop ha (h c) hu hb)
    · cases a with
      | none => exact .ok .none
      | some a => exact (ha a rfl _).bind fun _ ha => .ok (.some ha)
    · cases u with
      | none => exact .ok .none
      | some u => exact (hu u rfl _).bind fun _ hu => .ok (.some hu)
  | block b hb => exact (body b hb _).bind fun _ hb => .ok hb
  | seq i ss x hs => exact (all ss hs _).bind fun _ hss => .ok (.seq hss)
  | simple s hs =>
    have same (e : Option Expr) : Option.Rel R e e := by
      cases e with
      | none => exact .none
      | some e => exact .some (h e)
    cases s with
    | ret i e => exact .ok (.ret (same e))
    | eval i e => exact .after fun _ => .ok (.eval (h e))
    | require i e => exact .after fun _ => .after fun _ => .ok (.require (h e))
    | assign i l r o x => exact .after fun _ => .after fun _ => .ok (.assign (h l) (h r))
    | declare i v e =>
      refine .after fun k => ?_
      dsimp only
      split
      · exact .error
      · split
        · exact .ok (.declare (same _))
        · exact .after fun _ => .ok (.declare (same _))
    | compute | enterKey => exact .error
    | breakLoop | continueLoop | comment | blank => exact .ok (.simple (fun _ => .nil) rfl rfl rfl)
    | ifThen | whileLoop | doWhile | forLoop | block | seq => cases hs

theorem Block.markAliases_parallel (h : ∀ e, R e e) (symbols : Symbols) (k : Knowledge) (b : Block) :
    Delivers (b.Parallel R) (b.markAliases symbols k) := by
  intro b' hb
  exact Stmt.markAliases_parallel h symbols k (.block b) (.block b') (by rw [Stmt.markAliases, hb]; rfl)

/-! ## Accesses -/

theorem Stmt.markCalled_parallel (h : ∀ e, R e e) (symbols : Symbols) (s : Stmt) :
    s.Parallel R (s.markCalled symbols) := by
  have all (ss : List Stmt) (ih : ∀ s ∈ ss, s.Parallel R (s.markCalled symbols)) :
      List.Forall₂ (Stmt.Parallel R) ss (Stmt.markCalledAll symbols ss) := by
    induction ss with
    | nil => exact .nil
    | cons s ss hss => exact .cons (ih s List.mem_cons_self) (hss fun t ht => ih t (List.mem_cons_of_mem _ ht))
  have body : ∀ b : Block, (∀ s ∈ b.stmts, s.Parallel R (s.markCalled symbols)) → b.Parallel R (b.markCalled symbols)
    | ⟨_, ss, _⟩, ih => .mk (all ss ih)
  induction s using Stmt.inductOn with
  | ifThen i c t e ht he =>
    cases e with
    | none => exact .ifThen (h c) (body t ht)
    | some e => exact .ifElse (h c) (body t ht) (body e (he e rfl))
  | whileLoop i c b hb => exact .whileLoop (h c) (body b hb)
  | doWhile i b c hb => exact .doWhile (h c) (body b hb)
  | forLoop i a c u b ha hu hb =>
    unfold Stmt.markCalled
    refine .forLoop ?_ (h c) ?_ (body b hb)
    · cases a with
      | none => exact .none
      | some a => exact .some (ha a rfl)
    · cases u with
      | none => exact .none
      | some u => exact .some (hu u rfl)
  | block b hb => exact body b hb
  | seq i ss x hs => exact .seq (all ss hs)
  | simple s hs =>
    cases s with
    | ret i e => exact .simple (fun _ => List.forall₂_same.mpr fun e _ => h e) rfl rfl rfl
    | eval i e => exact .eval (h e)
    | require i e => exact .require (h e)
    | assign i l r o x => exact .assign (h l) (h r)
    | declare i v e => exact .simple (fun _ => List.forall₂_same.mpr fun e _ => h e) rfl rfl rfl
    | breakLoop | continueLoop | compute | enterKey | comment | blank => exact .refl h _
    | ifThen | whileLoop | doWhile | forLoop | block | seq => cases hs

theorem Stmt.markOwn_parallel (h : ∀ e, R e e) (site : Site) (s : Stmt) : Delivers (s.Parallel R) (s.markOwn site) := by
  have all (ss : List Stmt) (ih : ∀ s ∈ ss, Delivers (s.Parallel R) (s.markOwn site)) :
      Delivers (List.Forall₂ (Stmt.Parallel R) ss) (Stmt.markOwnAll site ss) := by
    induction ss with
    | nil => exact .ok .nil
    | cons s ss hss =>
      exact (ih s List.mem_cons_self).bind fun _ hs => (hss fun t ht => ih t (List.mem_cons_of_mem _ ht)).bind
        fun _ hss => .ok (.cons hs hss)
  have body : ∀ b : Block, (∀ s ∈ b.stmts, Delivers (s.Parallel R) (s.markOwn site)) →
      Delivers (b.Parallel R) (b.markOwn site)
    | ⟨_, ss, _⟩, ih => (all ss ih).bind fun _ hss => .ok (.mk hss)
  have optional (a : Option Stmt) {y : Except Error (Option Stmt)} (missing : a = none → y = .ok none)
      (given : ∀ s, a = some s → y = (do return some (← s.markOwn site)))
      (ih : ∀ s, a = some s → Delivers (s.Parallel R) (s.markOwn site)) :
      Delivers (Option.Rel (Stmt.Parallel R) a) y := by
    cases a with
    | none =>
      rw [missing rfl]
      exact .ok .none
    | some a =>
      rw [given a rfl]
      exact (ih a rfl).bind fun _ ha => .ok (.some ha)
  induction s using Stmt.inductOn with
  | ifThen i c t e ht he =>
    cases e with
    | none => exact (body t ht).bind fun _ ht => .ok (.ifThen (h c) ht)
    | some e => exact (body t ht).bind fun _ ht => (body e (he e rfl)).bind fun _ he => .ok (.ifElse (h c) ht he)
  | whileLoop i c b hb => exact (body b hb).bind fun _ hb => .ok (.whileLoop (h c) hb)
  | doWhile i b c hb => exact (body b hb).bind fun _ hb => .ok (.doWhile (h c) hb)
  | forLoop i a c u b ha hu hb =>
    unfold Stmt.markOwn
    exact (optional a (by rintro rfl; rfl) (by rintro s rfl; rfl) ha).bind fun _ ha =>
      (optional u (by rintro rfl; rfl) (by rintro s rfl; rfl) hu).bind fun _ hu =>
        (body b hb).bind fun _ hb => .ok (.forLoop ha (h c) hu hb)
  | block b hb => exact (body b hb).bind fun _ hb => .ok hb
  | seq i ss x hs => exact (all ss hs).bind fun _ hss => .ok (.seq hss)
  | simple s hs =>
    cases s with
    | ret i e => exact .ok (.simple (fun _ => List.forall₂_same.mpr fun e _ => h e) rfl rfl rfl)
    | eval i e => exact .ok (.eval (h e))
    | require i e => exact .ok (.require (h e))
    | assign i l r o x => exact .after fun _ => .ok (.assign (h l) (h r))
    | declare i v e => exact .ok (.simple (fun _ => List.forall₂_same.mpr fun e _ => h e) rfl rfl rfl)
    | breakLoop | continueLoop | compute | enterKey | comment | blank => exact .ok (.refl h _)
    | ifThen | whileLoop | doWhile | forLoop | block | seq => cases hs

theorem Block.markCalled_parallel (h : ∀ e, R e e) (symbols : Symbols) (b : Block) :
    b.Parallel R (b.markCalled symbols) :=
  Stmt.markCalled_parallel h symbols (.block b)

theorem Block.markOwn_parallel (h : ∀ e, R e e) (site : Site) (b : Block) : Delivers (b.Parallel R) (b.markOwn site) := by
  intro b' hb
  exact Stmt.markOwn_parallel h site (.block b) (.block b') (by rw [Stmt.markOwn, hb]; rfl)

/-! ## Places -/

theorem Block.mapExprs_parallel {f : Expr → Expr} (h : ∀ e, R e (f e)) (b : Block) : b.Parallel R (b.mapExprs f) := by
  show List.Forall₂ _ (Node.stmts b.nodes) (Node.stmts (b.mapExprs f).nodes)
  rw [Block.stmts_mapExprs]
  refine List.forall₂_map_right_iff.mpr (List.forall₂_same.mpr fun t _ => ?_)
  rw [Stmt.exprs_mapExprs]
  exact List.forall₂_map_right_iff.mpr (List.forall₂_same.mpr fun e _ => h e)

theorem Stmt.mapExprs_parallel {f : Expr → Expr} (h : ∀ e, R e (f e)) (s : Stmt) : s.Parallel R (s.mapExprs f) := by
  have whole := Block.mapExprs_parallel h ⟨default, [s], false⟩
  unfold Block.Parallel Stmt.Parallel Node.Each at whole
  rw [Block.mapExprs_eq] at whole
  have nodes (t : Stmt) : Node.stmts (Stmt.block ⟨default, [t], false⟩).nodes =
      .block ⟨default, [t], false⟩ :: Node.stmts t.nodes := by
    show _ :: Node.stmts (t.nodes ++ []) = _
    rw [List.append_nil]
  exact (List.forall₂_cons.mp (nodes s ▸ nodes (s.mapExprs f) ▸ whole)).2

section Visits

variable {σ : Type} {f : Stmt → Expr → StateM σ Expr} {g : Stmt → AnnTy → StateM σ AnnTy}

/-- The first and the last part of a loop are visited if they are there. -/
theorem always_optional {visit : Stmt → StateM σ Stmt} {a : Option Stmt} {y : StateM σ (Option Stmt)}
    (missing : a = none → y = pure none) (given : ∀ s, a = some s → y = (do return some (← visit s)))
    (h : ∀ s, a = some s → Always (s.Parallel R) (visit s)) : Always (Option.Rel (Stmt.Parallel R) a) y := by
  cases a with
  | none =>
    rw [missing rfl]
    exact .pure .none
  | some s =>
    rw [given s rfl]
    exact (h s rfl).bind fun _ hs => .pure (.some hs)

theorem Stmt.traverse_parallel (h : ∀ s e, Always (R e) (f s e)) (s : Stmt) : Always (s.Parallel R) (s.traverse f g) := by
  have all (ss : List Stmt) (ih : ∀ s ∈ ss, Always (s.Parallel R) (s.traverse f g)) :
      Always (List.Forall₂ (Stmt.Parallel R) ss) (Stmt.traverseAll f g ss) := by
    induction ss with
    | nil => exact .pure .nil
    | cons s ss hss =>
      exact (ih s List.mem_cons_self).bind fun _ hs => (hss fun t ht => ih t (List.mem_cons_of_mem _ ht)).bind
        fun _ hss => .pure (.cons hs hss)
  have body : ∀ t : Block, (∀ s ∈ t.stmts, Always (s.Parallel R) (s.traverse f g)) →
      Always (t.Parallel R) (t.traverse f g)
    | ⟨_, ss, _⟩, ih => (all ss ih).bind fun _ hss => .pure (.mk hss)
  induction s using Stmt.inductOn with
  | ifThen i c t e ht he =>
    cases e with
    | none => exact (h _ c).bind fun _ hc => (body t ht).bind fun _ ht => .pure (.ifThen hc ht)
    | some e =>
      exact (h _ c).bind fun _ hc => (body t ht).bind fun _ ht => (body e (he e rfl)).bind fun _ he =>
        .pure (.ifElse hc ht he)
  | whileLoop i c t hb => exact (h _ c).bind fun _ hc => (body t hb).bind fun _ hb => .pure (.whileLoop hc hb)
  | doWhile i t c hb => exact (body t hb).bind fun _ hb => (h _ c).bind fun _ hc => .pure (.doWhile hc hb)
  | forLoop i a c u t ha hu hb =>
    unfold Stmt.traverse
    exact (always_optional (by rintro rfl; rfl) (by rintro s rfl; rfl) ha).bind fun _ ha => (h _ c).bind fun _ hc =>
      (always_optional (by rintro rfl; rfl) (by rintro s rfl; rfl) hu).bind fun _ hu =>
        (body t hb).bind fun _ hb => .pure (.forLoop ha hc hu hb)
  | block t hb => exact (body t hb).bind fun _ hb => .pure hb
  | seq i ss x hs => exact (all ss hs).bind fun _ hss => .pure (.seq hss)
  | simple s hs =>
    cases s with
    | ret i e =>
      cases e with
      | none => exact .pure (.ret .none)
      | some e => exact (h _ e).bind fun _ he => .pure (.ret (.some he))
    | eval i e => exact (h _ e).bind fun _ he => .pure (.eval he)
    | require i e => exact (h _ e).bind fun _ he => .pure (.require he)
    | assign i l r o x => exact (h _ l).bind fun _ hl => (h _ r).bind fun _ hr => .pure (.assign hl hr)
    | declare i v e =>
      cases e with
      | none => exact .after fun _ => .pure (.declare .none)
      | some e => exact .after fun _ => (h _ e).bind fun _ he => .pure (.declare (.some he))
    | breakLoop | continueLoop | comment | blank => exact .pure (.simple (fun _ => .nil) rfl rfl rfl)
    | compute | enterKey => exact .pure (.simple (fun _ => .nil) rfl rfl rfl)
    | ifThen | whileLoop | doWhile | forLoop | block | seq => cases hs

end Visits

section Placing

variable (trans : ∀ d e f, R d e → R e f → R d f) (marked : ∀ b (e : Expr), R e (e.marked b))
  (moved : ∀ site (e : Expr), Always (R e) (e.moveIn site))

include trans marked moved in
theorem placingIf_parallel {b : BodyPlace} {cur : Bool} {c : Expr} {whole : Stmt} {branches : List Block}
    {next : BodyPlace → Bool → CheckM Stmt} (h : ∀ b cur, Always (whole.Parallel R) (next b cur)) :
    Always (whole.Parallel R) (placingIf b cur c whole branches next) := by
  refine .after fun stop => ?_
  have outside := whole.mapExprs_parallel (marked cur)
  split
  · exact .pure outside
  · split
    · exact h b cur
    · refine .after fun symbols => ?_
      split
      · exact CheckM.always_fail outside
      · split
        · exact h _ _
        · exact fun s => outside.trans trans (Stmt.traverse_parallel (fun _ e => moved _ e) (whole.marked cur) s)

include trans marked moved in
/-- Placing a statement places its expressions. -/
theorem Stmt.place_parallel (placed : ∀ c cur (e : Expr), Always (R e) (e.place c cur)) (b : BodyPlace) (cur : Bool)
    (s : Stmt) : Always (s.Parallel R) (s.place b cur) := by
  have all (ss : List Stmt) (ih : ∀ s ∈ ss, ∀ b cur, Always (s.Parallel R) (s.place b cur)) (b : BodyPlace)
      (cur : Bool) : Always (List.Forall₂ (Stmt.Parallel R) ss) (Stmt.placeAll b cur ss) := by
    induction ss with
    | nil => exact .pure .nil
    | cons s ss hss =>
      exact (ih s List.mem_cons_self b cur).bind fun _ hs => (hss fun t ht => ih t (List.mem_cons_of_mem _ ht)).bind
        fun _ hss => .pure (.cons hs hss)
  have body : ∀ t : Block, (∀ s ∈ t.stmts, ∀ b cur, Always (s.Parallel R) (s.place b cur)) → ∀ b cur,
      Always (t.Parallel R) (t.place b cur)
    | ⟨_, ss, _⟩, ih, b, cur => (all ss ih b cur).bind fun _ hss => .pure (.mk hss)
  induction s using Stmt.inductOn generalizing b cur with
  | ifThen i c t e ht he =>
    cases e with
    | none =>
      exact placingIf_parallel trans marked moved fun b cur => (placed _ _ c).bind fun _ hc =>
        (body t ht b cur).bind fun _ ht => .pure (.ifThen hc ht)
    | some e =>
      exact placingIf_parallel trans marked moved fun b cur => (placed _ _ c).bind fun _ hc =>
        (body t ht b cur).bind fun _ ht => (body e (he e rfl) b cur).bind fun _ he => .pure (.ifElse hc ht he)
  | whileLoop i c t hb =>
    exact (placed _ _ c).bind fun _ hc => (body t hb b cur).bind fun _ hb => .pure (.whileLoop hc hb)
  | doWhile i t c hb =>
    exact (body t hb b cur).bind fun _ hb => (placed _ _ c).bind fun _ hc => .pure (.doWhile hc hb)
  | forLoop i a c u t ha hu hb =>
    unfold Stmt.place
    exact (always_optional (by rintro rfl; rfl) (by rintro s rfl; rfl) fun s hs => ha s hs b cur).bind fun _ ha =>
      (placed _ _ c).bind fun _ hc =>
        (always_optional (by rintro rfl; rfl) (by rintro s rfl; rfl) fun s hs => hu s hs b cur).bind fun _ hu =>
          (body t hb b cur).bind fun _ hb => .pure (.forLoop ha hc hu hb)
  | block t hb => exact (body t hb b cur).bind fun _ hb => .pure hb
  | seq i ss x hs => exact (all ss hs b cur).bind fun _ hss => .pure (.seq hss)
  | simple s hs =>
    cases s with
    | ret i e =>
      cases e with
      | none => exact .pure (.ret .none)
      | some e => exact (placed _ _ e).bind fun _ he => .pure (.ret (.some he))
    | eval i e => exact (placed _ _ e).bind fun _ he => .pure (.eval he)
    | require i e => exact (placed _ _ e).bind fun _ he => .pure (.require he)
    | assign i l r o x => exact (placed _ _ l).bind fun _ hl => (placed _ _ r).bind fun _ hr => .pure (.assign hl hr)
    | declare i v e =>
      cases e with
      | none => exact .after fun _ => .pure (.declare .none)
      | some e => exact .after fun _ => (placed _ _ e).bind fun _ he => .pure (.declare (.some he))
    | breakLoop | continueLoop | compute | enterKey | comment | blank => exact .pure (.simple (fun _ => .nil) rfl rfl rfl)
    | ifThen | whileLoop | doWhile | forLoop | block | seq => cases hs

include trans marked moved in
theorem Block.place_parallel (placed : ∀ c cur (e : Expr), Always (R e) (e.place c cur)) (b : BodyPlace) (cur : Bool)
    (t : Block) : Always (t.Parallel R) (t.place b cur) :=
  Stmt.place_parallel trans marked moved placed b cur (.block t)

end Placing

end Shroud
