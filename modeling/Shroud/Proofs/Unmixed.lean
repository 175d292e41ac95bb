import Shroud.Proofs.Callees
import Shroud.Proofs.Histories

/-!
# Programs without circuit variables

The circuits of a compiled program come about from what the bodies of its functions draw on (`compile_told`). Those bodies
are the result of the passes before splitting. Here it is shown that the passes put nothing of a circuit into a program:
its bodies draw on what the program was given with.

**Mentions.** What an expression draws on is a matter of what it mentions (`Expr.draws_iff`), and the passes from the call
graph on add no mentions (`SourceUnit.Follows`). Linking and the analyses before change no names and no operators.

**Results.**

* `SourceUnit.compile_draws`: after the passes, a program draws on nothing else than before.
* `SourceUnit.Plain.compiled`, `SourceUnit.Bare.compiled`: a program without circuit variables is split without them.
-/

namespace Shroud

open Shroud.Expr

/-! ## Mentions and assets -/

section Expressions

variable {Q : Asset → Prop} {n : Ident} {e : Expr} {es : List Expr}

/-- What is mentioned is among these assets. -/
def Mentioned.Holds (Q : Asset → Prop) : Mentioned → Prop
  | .call _ => True
  | .read v => Q v ∨ v.role = .contractValue ∧ Q (.aid v.read)
  | .shown v => Q v
  | .aid e => Q (.aid e)

theorem Ident.reads_iff : n.Reads Q ↔ ∀ m ∈ n.mentions .read, m.Holds Q := by
  cases n with
  | plain => exact iff_of_true trivial (List.forall_mem_nil _)
  | circuit v =>
    show _ ↔ ∀ m ∈ [Mentioned.read v], m.Holds Q
    rw [List.forall_mem_singleton]
    exact Iff.rfl

theorem Ident.shows_iff : n.Shows Q ↔ ∀ m ∈ n.mentions .shown, m.Holds Q := by
  cases n with
  | plain => exact iff_of_true trivial (List.forall_mem_nil _)
  | circuit v =>
    show _ ↔ ∀ m ∈ [Mentioned.shown v], m.Holds Q
    rw [List.forall_mem_singleton]
    exact Iff.rfl

/-- An expression draws on what it mentions. -/
theorem Expr.draws_iff : e.Draws Q ↔ ∀ m ∈ e.mentions, m.Holds Q := by
  have all {es : List Expr} (ih : ∀ e ∈ es, e.Draws Q ↔ ∀ m ∈ e.mentions, m.Holds Q) :
      Expr.AllDraws Q es ↔ ∀ m ∈ mentionsAll es, m.Holds Q := by
    induction es with
    | nil => exact iff_of_true trivial (List.forall_mem_nil _)
    | cons e es hes =>
      rw [mentionsAll_cons, List.forall_mem_append, ← ih e List.mem_cons_self,
        ← hes fun x hx => ih x (List.mem_cons_of_mem _ hx)]
      exact Iff.rfl
  induction e using Expr.inductOn with
  | call i f as o k hf has =>
    have own : (∀ m ∈ (Expr.call i f as o k).ownMentions, m.Holds Q) ↔ ∀ v ∈ k, Q (.aid v.read) := by
      unfold ownMentions
      simp [Mentioned.Holds, or_imp, forall_and]
    rw [mentions_call, List.forall_mem_append, List.forall_mem_append, own]
    refine (and_congr hf (and_congr_left' (all has))).trans ?_
    constructor
    · rintro ⟨func, args, key⟩
      exact ⟨⟨key, func⟩, args⟩
    · rintro ⟨⟨key, func⟩, args⟩
      exact ⟨func, args, key⟩
  | new i as has | arrayLit i as b has | tuple i as has => exact all has
  | cast i t e b he => exact he
  | member i e n r he =>
    rw [mentions_member, List.forall_mem_append]
    exact (and_congr he Ident.shows_iff).trans and_comm
  | index i e k r he hk =>
    rw [mentions_index, List.forall_mem_append]
    exact and_congr he hk
  | reclassify i m e p h he hp =>
    rw [mentions_reclassify, List.forall_mem_append]
    exact and_congr he hp
  | leaf e hl =>
    cases e with
    | ident i n r =>
      rw [show (Expr.ident i n r).mentions = n.mentions .read from List.append_nil _]
      exact Ident.reads_iff
    | operator i op p h r =>
      rw [show (Expr.operator i op p h r).mentions = r.toList.map .aid from List.append_nil _, List.forall_mem_map]
      exact forall_congr' fun x => imp_congr_left Option.mem_toList.symm
    | boolLit | numLit | me | all => exact iff_of_true trivial (List.forall_mem_nil _)
    | _ => cases hl

theorem Expr.forall_draws_iff : (∀ e ∈ es, e.Draws Q) ↔ ∀ m ∈ mentionsAll es, m.Holds Q := by
  induction es with
  | nil => exact iff_of_true (List.forall_mem_nil _) (List.forall_mem_nil _)
  | cons e es ih => rw [List.forall_mem_cons, mentionsAll_cons, List.forall_mem_append, ih, draws_iff]

end Expressions

/-! ## Bodies -/

section Bodies

variable {Q : Asset → Prop} {f g : FunctionDef} {b b' : Block}

/-- A statement draws on what the expressions of all statements in it draw on. -/
theorem Stmt.draws_iff (s : Stmt) : s.Draws Q ↔ ∀ t ∈ Node.stmts s.nodes, ∀ e ∈ t.exprs, e.Draws Q := by
  have all (ss : List Stmt) (ih : ∀ s ∈ ss, s.Draws Q ↔ ∀ t ∈ Node.stmts s.nodes, ∀ e ∈ t.exprs, e.Draws Q) :
      Stmt.AllDraws Q ss ↔ ∀ t ∈ Node.stmts (Stmt.nodesAll ss), ∀ e ∈ t.exprs, e.Draws Q := by
    induction ss with
    | nil => exact iff_of_true trivial (List.forall_mem_nil _)
    | cons s ss hss =>
      rw [Stmt.nodesAll, Node.stmts_append, List.forall_mem_append, ← ih s List.mem_cons_self,
        ← hss fun t ht => ih t (List.mem_cons_of_mem _ ht)]
      exact Iff.rfl
  have body (b : Block) (ih : ∀ s ∈ b.stmts, s.Draws Q ↔ ∀ t ∈ Node.stmts s.nodes, ∀ e ∈ t.exprs, e.Draws Q) :
      b.Draws Q ↔ ∀ t ∈ Node.stmts b.nodes, ∀ e ∈ t.exprs, e.Draws Q := by
    obtain ⟨i, ss, x⟩ := b
    show Stmt.AllDraws Q ss ↔ ∀ t ∈ Stmt.block ⟨i, ss, x⟩ :: Node.stmts (Stmt.nodesAll ss), _
    rw [List.forall_mem_cons, ← all ss ih]
    exact (and_iff_right (List.forall_mem_nil _)).symm
  have optional (a : Option Stmt)
      (ih : ∀ s, a = some s → (s.Draws Q ↔ ∀ t ∈ Node.stmts s.nodes, ∀ e ∈ t.exprs, e.Draws Q)) :
      Stmt.OptionalDraws Q a ↔ ∀ t ∈ Node.stmts ((a.map Stmt.nodes).getD []), ∀ e ∈ t.exprs, e.Draws Q := by
    cases a with
    | none => exact iff_of_true trivial (List.forall_mem_nil _)
    | some s => exact ih s rfl
  have value (e : Option Expr) : (∀ x, e = some x → x.Draws Q) ↔ ∀ x ∈ e.toList, x.Draws Q := by
    cases e <;> simp
  induction s using Stmt.inductOn with
  | ifThen i c t e ht he =>
    cases e with
    | none =>
      show _ ↔ ∀ s ∈ Stmt.ifThen i c t none :: Node.stmts (c.nodes ++ t.nodes), _
      rw [List.forall_mem_cons, Node.stmts_append, c.stmts_nodes, List.nil_append, ← body t ht]
      exact and_congr_left fun _ => List.forall_mem_singleton.symm
    | some e =>
      show _ ↔ ∀ s ∈ Stmt.ifThen i c t (some e) :: Node.stmts (c.nodes ++ t.nodes ++ e.nodes), _
      rw [List.forall_mem_cons, Node.stmts_append, Node.stmts_append, c.stmts_nodes, List.nil_append,
        List.forall_mem_append, ← body t ht, ← body e (he e rfl)]
      exact and_congr_left fun _ => List.forall_mem_singleton.symm
  | whileLoop i c t hb =>
    show _ ↔ ∀ s ∈ Stmt.whileLoop i c t :: Node.stmts (c.nodes ++ t.nodes), _
    rw [List.forall_mem_cons, Node.stmts_append, c.stmts_nodes, List.nil_append, ← body t hb]
    exact and_congr_left fun _ => List.forall_mem_singleton.symm
  | doWhile i t c hb =>
    show _ ↔ ∀ s ∈ Stmt.doWhile i t c :: Node.stmts (t.nodes ++ c.nodes), _
    rw [List.forall_mem_cons, Node.stmts_append, c.stmts_nodes, List.append_nil, ← body t hb]
    exact and_comm.trans (and_congr_left fun _ => List.forall_mem_singleton.symm)
  | forLoop i a c u t ha hu hb =>
    rw [nodes_forLoop]
    show _ ↔ ∀ s ∈ Stmt.forLoop i a c u t :: Node.stmts _, _
    rw [List.forall_mem_cons, Node.stmts_append, Node.stmts_append, Node.stmts_append, c.stmts_nodes, List.append_nil,
      List.forall_mem_append, List.forall_mem_append, ← optional a ha, ← optional u hu, ← body t hb]
    have own : (∀ e ∈ (Stmt.forLoop i a c u t).exprs, e.Draws Q) ↔ c.Draws Q := List.forall_mem_singleton
    rw [own, and_assoc]
    exact and_left_comm
  | block t hb => exact body t hb
  | seq i ss x hs =>
    show _ ↔ ∀ s ∈ Stmt.seq i ss x :: Node.stmts (Stmt.nodesAll ss), _
    rw [List.forall_mem_cons, ← all ss hs]
    exact (and_iff_right (List.forall_mem_nil _)).symm
  | simple s hs =>
    have own (s : Stmt) (code : s.isCode = true) :
        (∀ t ∈ if s.isCode then [s] else [], ∀ e ∈ t.exprs, e.Draws Q) ↔ ∀ e ∈ s.exprs, e.Draws Q := by
      rw [if_pos code, List.forall_mem_singleton]
    have alone : s.isCompound = false := by
      cases s with
      | ifThen | whileLoop | doWhile | forLoop | block | seq => cases hs
      | _ => rfl
    rw [Stmt.stmts_simple alone]
    cases s with
    | ret i e | declare i v e =>
      rw [own _ rfl]
      exact value e
    | eval i e | require i e =>
      show e.Draws Q ↔ _
      rw [own _ rfl]
      exact List.forall_mem_singleton.symm
    | assign i l r o x =>
      rw [own _ rfl]
      show l.Draws Q ∧ r.Draws Q ↔ ∀ e ∈ [l, r], e.Draws Q
      rw [List.forall_mem_cons, List.forall_mem_singleton]
    | breakLoop | continueLoop | compute | enterKey =>
      exact iff_of_true trivial (List.forall_mem_singleton.mpr (List.forall_mem_nil _))
    | comment | blank => exact iff_of_true trivial (List.forall_mem_nil _)
    | ifThen | whileLoop | doWhile | forLoop | block | seq => cases hs

/-- Bodies with the same statements, whose expressions draw on nothing new. -/
theorem Block.Parallel.draws (h : b.Parallel (fun e e' => e.Draws Q → e'.Draws Q) b') (draws : b.Draws Q) : b'.Draws Q := by
  refine (Stmt.draws_iff (.block b')).mpr fun t' ht' e' he' => ?_
  obtain ⟨t, ht, exprs⟩ := exists_mem_of_forall₂_right h ht'
  obtain ⟨e, he, keeps⟩ := exists_mem_of_forall₂_right exprs he'
  exact keeps ((Stmt.draws_iff (.block b)).mp draws t ht e he)

/-- The body of a function draws on what it mentions. -/
theorem FunctionDef.draws_iff : f.body.Draws Q ↔ ∀ m ∈ f.mentions, m.Holds Q := by
  unfold FunctionDef.mentions
  rw [List.forall_mem_flatMap]
  exact (Stmt.draws_iff (.block f.body)).trans (forall₂_congr fun _ _ => Expr.forall_draws_iff)

/-- The body of the second function draws on these assets if that of the first does. -/
def FunctionDef.DrawsNoMore (Q : Asset → Prop) (f g : FunctionDef) : Prop := f.body.Draws Q → g.body.Draws Q

theorem FunctionDef.DrawsNoMore.trans (f g k : FunctionDef) (h : f.DrawsNoMore Q g) (h' : g.DrawsNoMore Q k) :
    f.DrawsNoMore Q k := fun draws => h' (h draws)

end Bodies

/-! ## Passes -/

namespace SourceUnit

variable {u v : SourceUnit} {next n : Nat} {o : Options} {Q : Asset → Prop}

theorem Follows.drawsNoMore {f g : FunctionDef} (h : Follows f g) : f.DrawsNoMore Q g := fun draws =>
  FunctionDef.draws_iff.mpr fun m hm => FunctionDef.draws_iff.mp draws m (h.mentions hm)

theorem link_drawsNoMore (h : u.link next = .ok (v, n)) : u.Pointwise (FunctionDef.DrawsNoMore Q) v := by
  refine link_each (fun c f s g t h draws => ?_) h
  obtain ⟨params, s₁, _, h⟩ := state_bind_ok h
  obtain ⟨returns, s₂, _, h⟩ := state_bind_ok h
  obtain ⟨body, s₃, hb, h⟩ := state_bind_ok h
  obtain ⟨_, s₄, _, h⟩ := state_bind_ok h
  cases state_pure_ok h
  exact f.body.link_draws _ draws _ _ hb

theorem markAliases_drawsNoMore (h : u.markAliases = .ok v) : u.Pointwise (FunctionDef.DrawsNoMore Q) v := by
  obtain ⟨contracts, hm, hv⟩ := except_bind_ok h
  cases hv
  refine visit_pointwise (fun c f g hg => ?_) hm
  obtain ⟨body, hb, hg⟩ := except_bind_ok hg
  cases hg
  exact (f.body.markAliases_parallel (fun _ h => h) _ _ body hb).draws

/-- The passes put nothing into bodies that these could draw on. -/
theorem Accepted.drawsNoMore (h : u.Accepted next o v) : u.Pointwise (FunctionDef.DrawsNoMore Q) v := by
  obtain ⟨linked, aliased, called, n, link, aliases, calls, follows⟩ := h.marked
  have marked : aliased.Pointwise (FunctionDef.DrawsNoMore Q) called :=
    markCalls_pointwise FunctionDef.DrawsNoMore.trans (fun _ _ _ _ draws => draws) calls
  have analysed := (link_drawsNoMore (Q := Q) link).trans FunctionDef.DrawsNoMore.trans (markAliases_drawsNoMore aliases)
  exact (analysed.trans FunctionDef.DrawsNoMore.trans marked).trans FunctionDef.DrawsNoMore.trans
    (follows.mono fun _ _ => Follows.drawsNoMore)

/-- What is split draws on nothing but what the program drew on before the passes. -/
theorem compile_draws {t : Transcript} {r : Compilation} (h : (u.compile next o t).2 = .ok r)
    (draws : ∀ c ∈ u.contracts, c.Draws Q) : ∀ c ∈ r.source.contracts, c.Draws Q := by
  obtain ⟨⟨t', p, hp, source⟩, -⟩ := compile_ok h
  have passes : u.Pointwise (FunctionDef.DrawsNoMore Q) r.source := source ▸ (process_accepted hp).drawsNoMore
  intro d hd g hg
  obtain ⟨c, hc, same⟩ := exists_mem_of_forall₂_right passes hd
  obtain ⟨f, hf, keeps⟩ := exists_mem_of_forall₂_right (List.rel_append same.constructors same.functions) hg
  exact keeps (draws c hc f hf)

/-- A program that holds no circuit variables is split without them. -/
theorem Plain.compiled {t : Transcript} {r : Compilation} (plain : u.Plain) (h : (u.compile next o t).2 = .ok r) :
    r.source.Plain := compile_draws h plain

/-- A program that holds nothing of a circuit is split as such. -/
theorem Bare.compiled {t : Transcript} {r : Compilation} (bare : u.Bare) (h : (u.compile next o t).2 = .ok r) :
    r.source.Bare := compile_draws h bare

end SourceUnit

end Shroud
