import Shroud.Proofs.Accounts
import Shroud.Proofs.Inheritance
import Shroud.Proofs.Recursion
import Shroud.Proofs.Requirement

/-!
# Marks in accepted programs

What is evaluated in the circuit, function by function (`FunctionDef.WellPlaced`): everything that has to be, with all
that is below it and without side effects.

**Statements.** The branches of an if statement with a private condition are placed as a whole or moved in as a whole
(`Stmt.place_placed`). **Programs.** The passes after placing mark calls that are proved along and functions that need a
proof; neither changes what is said here (`Node.Like.settled`).

**The exception.** A public value with side effects that is reclassified stays outside, and so does the new label.
`issuing_uninherited` is a program that is accepted with such a label.
-/

namespace Shroud

/-! ## Placing statements -/

section Visiting

variable {I : Symbols → Prop} {P : Node → Prop} {f : Stmt → Expr → CheckM Expr} {g : Stmt → AnnTy → CheckM AnnTy}

/-- What a visit of all expressions and declared types makes true of everything below a statement. -/
theorem Stmt.traverse_all (expr : ∀ s e, Upholds I True (fun e' => (Node.expr e').All Node.visited P) (f s e))
    (type : ∀ s t, Upholds I True (fun t' => (Node.annTy t').All Node.visited P) (g s t))
    (other : ∀ n : Node, (n matches .expr _ | .annTy _) = false → P n) (s : Stmt) :
    Upholds I True (fun s' => (Node.stmt s').All Node.visited P) (s.traverse f g) := by
  have node {s : Stmt} (h : ∀ n ∈ s.parts, n.All Node.visited P) : (Node.stmt s).All Node.visited P :=
    Node.all_iff.mpr ⟨other _ rfl, h⟩
  have all (ss : List Stmt) (ih : ∀ s ∈ ss, Upholds I True (fun s' => (Node.stmt s').All Node.visited P) (s.traverse f g)) :
      Upholds I True (fun ss' => ∀ n ∈ ss'.map Node.stmt, n.All Node.visited P) (Stmt.traverseAll f g ss) := by
    induction ss with
    | nil => exact .pure fun _ => List.forall_mem_nil _
    | cons s ss hss =>
      exact (ih s List.mem_cons_self).bind fun _ => ((hss fun t ht => ih t (List.mem_cons_of_mem _ ht)).assuming
        fun _ => trivial).bind fun _ => .pure fun h => List.forall_mem_cons.mpr ⟨h.1.2, h.2⟩
  have body (t : Block) {H : Prop}
      (ih : ∀ s ∈ t.stmts, Upholds I True (fun s' => (Node.stmt s').All Node.visited P) (s.traverse f g)) :
      Upholds I H (fun t' => (Node.stmt (.block t')).All Node.visited P) (t.traverse f g) := by
    obtain ⟨_, ss, _⟩ := t
    exact ((all ss ih).assuming fun _ => trivial).bind fun _ => .pure fun h => node h.2
  have visit (s : Stmt) (e : Expr) {H : Prop} : Upholds I H (fun e' => (Node.expr e').All Node.visited P) (f s e) :=
    (expr s e).assuming fun _ => trivial
  have declared (s : Stmt) (v : LocalVar) {H : Prop} :
      Upholds I H (fun t' => (Node.localVar { v with type := t' }).All Node.visited P) (g s v.type) := by
    refine ((type s v.type).assuming fun _ => trivial).imp fun t _ ht => Node.all_iff.mpr ⟨other _ rfl, ?_⟩
    exact List.forall_mem_cons.mpr ⟨ht, List.forall_mem_singleton.mpr ((Node.all_leaf (n := .name v.name) rfl).mpr (other _ rfl))⟩
  induction s using Stmt.inductOn with
  | ifThen i c t e ht he =>
    cases e with
    | none =>
      exact (visit _ c).bind fun _ => (body t ht).bind fun _ => .pure fun h =>
        node (List.forall_mem_cons.mpr ⟨h.1.2, List.forall_mem_singleton.mpr h.2⟩)
    | some e =>
      exact (visit _ c).bind fun _ => (body t ht).bind fun _ => (body e (he e rfl)).bind fun _ => .pure fun h =>
        node (List.forall_mem_cons.mpr ⟨h.1.1.2, List.forall_mem_cons.mpr ⟨h.1.2, List.forall_mem_singleton.mpr h.2⟩⟩)
  | whileLoop i c t hb =>
    exact (visit _ c).bind fun _ => (body t hb).bind fun _ => .pure fun h =>
      node (List.forall_mem_cons.mpr ⟨h.1.2, List.forall_mem_singleton.mpr h.2⟩)
  | doWhile i t c hb =>
    exact (body t hb).bind fun _ => (visit _ c).bind fun _ => .pure fun h =>
      node (List.forall_mem_cons.mpr ⟨h.1.2, List.forall_mem_singleton.mpr h.2⟩)
  | forLoop i a c u t ha hu hb =>
    unfold Stmt.traverse
    refine .bind (P := fun a' : Option Stmt => ∀ n ∈ (a'.map Node.stmt).toList, n.All Node.visited P) ?_ fun _ =>
      (visit _ c).bind fun _ =>
        .bind (P := fun u' : Option Stmt => ∀ n ∈ (u'.map Node.stmt).toList, n.All Node.visited P) ?_ fun _ =>
          (body t hb).bind fun _ => .pure fun h => node ?_
    · cases a with
      | none => exact .pure fun _ => List.forall_mem_nil _
      | some a => exact (ha a rfl).bind fun _ => .pure fun h => List.forall_mem_singleton.mpr h.2
    · cases u with
      | none => exact .pure fun _ => List.forall_mem_nil _
      | some u => exact ((hu u rfl).assuming fun _ => trivial).bind fun _ => .pure fun h => List.forall_mem_singleton.mpr h.2
    · exact List.forall_mem_append.mpr ⟨List.forall_mem_append.mpr ⟨List.forall_mem_append.mpr
        ⟨h.1.1.1.2, List.forall_mem_singleton.mpr h.1.1.2⟩, h.1.2⟩, List.forall_mem_singleton.mpr h.2⟩
  | block t hb => exact (body t hb).bind fun _ => .pure fun h => h.2
  | seq i ss x hs => exact (all ss hs).bind fun _ => .pure fun h => node h.2
  | simple s hs =>
    cases s with
    | ret i e =>
      cases e with
      | none => exact .pure fun _ => node (List.forall_mem_nil _)
      | some e => exact (visit _ e).bind fun _ => .pure fun h => node (List.forall_mem_singleton.mpr h.2)
    | eval i e | require i e => exact (visit _ e).bind fun _ => .pure fun h => node (List.forall_mem_singleton.mpr h.2)
    | assign i l r o x =>
      exact (visit _ l).bind fun _ => (visit _ r).bind fun _ => .pure fun h =>
        node (List.forall_mem_cons.mpr ⟨h.1.2, List.forall_mem_singleton.mpr h.2⟩)
    | declare i v e =>
      cases e with
      | none => exact (declared _ v).bind fun _ => .pure fun h => node (List.forall_mem_singleton.mpr h.2)
      | some e =>
        exact (declared _ v).bind fun _ => (visit _ e).bind fun _ => .pure fun h =>
          node (List.forall_mem_cons.mpr ⟨h.1.2, List.forall_mem_singleton.mpr h.2⟩)
    | breakLoop | continueLoop | compute | enterKey | comment | blank => exact .pure fun _ => node (List.forall_mem_nil _)
    | ifThen | whileLoop | doWhile | forLoop | block | seq => cases hs

end Visiting

section Statements

open Node (Placed)

variable {σ : Symbols}

/-- Moving a statement in marks all of it, or it fails at a call with side effects. -/
theorem Stmt.moveIn_drawn (site : Site) (s : Stmt) :
    Upholds (· = σ) True (fun s' => (Node.stmt s').All Node.visited (Node.Drawn σ)) (s.moveIn site) := by
  refine s.traverse_all (fun t e => (e.moveIn_moved _).imp fun _ _ h => h.drawn)
    (fun t a => (a.moveIn_moved _).imp fun _ _ h => h.drawn) fun n hn => ?_
  cases n with
  | expr | annTy => cases hn
  | _ => trivial

/-- A statement is placed if everything directly below it is. -/
theorem Node.Placed.stmt {cur : Bool} {s : Stmt} (forced : s.forces = true → cur = true)
    (parts : ∀ n ∈ s.parts, Placed σ cur n) : Placed σ cur (.stmt s) :=
  .of_parts (fun all forces => all (forced forces)) (fun _ => rfl) (fun n hn => (parts n hn).settled)
    fun h n hn => (parts n hn).inside h

theorem Node.Placed.unforced {cur : Bool} {s : Stmt} (plain : s.forces = false)
    (parts : ∀ n ∈ s.parts, Placed σ cur n) : Placed σ cur (.stmt s) :=
  .stmt (fun forced => absurd (plain.symm.trans forced) Bool.false_ne_true) parts

theorem upholds_placingIf {b : BodyPlace} {cur : Bool} {c : Expr} {whole : Stmt} {branches : List Block}
    {next : BodyPlace → Bool → CheckM Stmt}
    (h : ∀ b k, (c.checkedType.isPrivate = true → k = true) →
      Upholds (· = σ) (k = true → (Node.stmt whole).Harmless σ) (fun s => Placed σ k (.stmt s)) (next b k))
    (movable : (c.isMovable σ && branches.all (·.isMovable σ)) = true → (Node.stmt whole).Harmless σ) :
    Upholds (· = σ) (cur = true → (Node.stmt whole).Harmless σ) (fun s => Placed σ cur (.stmt s))
      (placingIf b cur c whole branches next) := by
  refine .unlessStopped ?_
  split
  · rename_i shown
    exact h b cur fun secret => by simp [secret] at shown
  · refine .withSymbols fun s => ?_
    split
    · exact .fail
    · split
      · rename_i known
        refine ((h _ true fun _ => rfl).assuming fun same _ => ?_).imp fun _ _ placed => placed.weaken
        rw [same.2] at known
        exact movable known
      · refine (((whole.marked cur).moveIn_drawn b.site).assuming fun _ => trivial).imp fun s' _ drawn => ?_
        exact (Node.Moved.placed (n := .stmt s') ⟨drawn, id⟩).toPlaced

/-- Placing settles a statement, and inside of the circuit it marks all of it. -/
theorem Stmt.place_placed (b : BodyPlace) (cur : Bool) (s : Stmt) :
    Upholds (· = σ) (cur = true → (Node.stmt s).Harmless σ) (fun s' => Placed σ cur (.stmt s')) (s.place b cur) := by
  have all (ss : List Stmt) (ih : ∀ s ∈ ss, ∀ b cur, Upholds (· = σ) (cur = true → (Node.stmt s).Harmless σ)
      (fun s' => Placed σ cur (.stmt s')) (s.place b cur)) (b : BodyPlace) (cur : Bool) :
      Upholds (· = σ) (cur = true → ∀ n ∈ ss.map Node.stmt, n.Harmless σ)
        (fun ss' => ∀ n ∈ ss'.map Node.stmt, Placed σ cur n) (Stmt.placeAll b cur ss) := by
    induction ss with
    | nil => exact .pure fun _ => List.forall_mem_nil _
    | cons s ss hss =>
      refine ((ih s List.mem_cons_self b cur).assuming fun h hc => h hc _ List.mem_cons_self).bind fun _ =>
        ((hss fun t ht => ih t (List.mem_cons_of_mem _ ht)).assuming fun h hc n hn =>
          h.1 hc n (List.mem_cons_of_mem _ hn)).bind fun _ => .pure fun h => List.forall_mem_cons.mpr ⟨h.1.2, h.2⟩
  have body (t : Block) (ih : ∀ s ∈ t.stmts, ∀ b cur, Upholds (· = σ) (cur = true → (Node.stmt s).Harmless σ)
      (fun s' => Placed σ cur (.stmt s')) (s.place b cur)) (b : BodyPlace) (cur : Bool) :
      Upholds (· = σ) (cur = true → (Node.stmt (.block t)).Harmless σ)
        (fun t' => Placed σ cur (.stmt (.block t'))) (t.place b cur) := by
    obtain ⟨_, ss, _⟩ := t
    exact ((all ss ih b cur).assuming fun h hc n hn => (h hc).part hn).bind fun _ => .pure fun h => .unforced rfl h.2
  have cond (c : Expr) (p : PlaceContext) (cur : Bool) :
      Upholds (· = σ) (cur = true → (Node.expr c).Harmless σ)
        (fun c' => Placed σ cur (.expr c') ∧ c'.checkedType.isPrivate = c.checkedType.isPrivate) (c.place p cur) :=
    ((c.place_becomes p cur).and_always (c.place_alike p cur)).imp fun _ _ h => ⟨h.1.toPlaced, h.2.isPrivate⟩
  have visit (e : Expr) (p : PlaceContext) (cur : Bool) :
      Upholds (· = σ) (cur = true → (Node.expr e).Harmless σ) (fun e' => Placed σ cur (.expr e')) (e.place p cur) :=
    (e.place_becomes p cur).imp fun _ _ h => h.toPlaced
  have below {cur : Bool} {s : Stmt} {n : Node} (hn : n ∈ s.parts) (h : cur = true → (Node.stmt s).Harmless σ)
      (hc : cur = true) : n.Harmless σ := (h hc).part hn
  have declared (v : LocalVar) (p : PlaceContext) (cur : Bool) : Upholds (· = σ) (cur = true → (Node.localVar v).Harmless σ)
      (fun t' => Placed σ cur (.localVar { v with type := t' })) (v.type.place p cur) := by
    refine ((v.type.place_becomes p cur).assuming fun h hc => (h hc).part (.head _)).imp fun t' _ h => ?_
    exact (Node.Becomes.inner (n := .localVar v) rfl rfl (.cons h (Node.becomes_name (some v.name)))).toPlaced
  induction s using Stmt.inductOn generalizing b cur with
  | ifThen i c t e ht he =>
    cases e with
    | none =>
      unfold Stmt.place
      refine upholds_placingIf (fun b k secret => ?_) fun movable => ?_
      · refine ((cond c _ k).assuming (below (.head _))).bind fun c' =>
          ((body t ht b k).assuming fun h => below (.tail _ (.head _)) h.1).bind fun t' => .pure fun h => ?_
        exact .stmt (fun forced => secret (h.1.2.2 ▸ forced)) (List.forall_mem_cons.mpr
          ⟨h.1.2.1, List.forall_mem_singleton.mpr h.2⟩)
      · rw [Bool.and_eq_true] at movable
        exact Node.all_iff.mpr ⟨rfl, List.forall_mem_cons.mpr ⟨Expr.isMovable_iff.mp movable.1,
          List.forall_mem_singleton.mpr (Block.isMovable_iff.mp (List.all_eq_true.mp movable.2 t (.head _)))⟩⟩
    | some e =>
      unfold Stmt.place
      refine upholds_placingIf (fun b k secret => ?_) fun movable => ?_
      · refine ((cond c _ k).assuming (below (.head _))).bind fun c' =>
          ((body t ht b k).assuming fun h => below (.tail _ (.head _)) h.1).bind fun t' =>
          ((body e (he e rfl) b k).assuming fun h => below (.tail _ (.tail _ (.head _))) h.1.1).bind fun e' =>
            .pure fun h => ?_
        exact .stmt (fun forced => secret (h.1.1.2.2 ▸ forced)) (List.forall_mem_cons.mpr
          ⟨h.1.1.2.1, List.forall_mem_cons.mpr ⟨h.1.2, List.forall_mem_singleton.mpr h.2⟩⟩)
      · rw [Bool.and_eq_true] at movable
        have branch (x : Block) (hx : x ∈ [t, e]) := Block.isMovable_iff.mp (List.all_eq_true.mp movable.2 x hx)
        exact Node.all_iff.mpr ⟨rfl, List.forall_mem_cons.mpr ⟨Expr.isMovable_iff.mp movable.1,
          List.forall_mem_cons.mpr ⟨branch t (.head _), List.forall_mem_singleton.mpr (branch e (.tail _ (.head _)))⟩⟩⟩
  | whileLoop i c t hb =>
    exact ((visit c _ cur).assuming (below (.head _))).bind fun c' =>
      ((body t hb b cur).assuming fun h => below (.tail _ (.head _)) h.1).bind fun t' => .pure fun h =>
        .unforced rfl (List.forall_mem_cons.mpr ⟨h.1.2, List.forall_mem_singleton.mpr h.2⟩)
  | doWhile i t c hb =>
    exact ((body t hb b cur).assuming (below (.head _))).bind fun t' =>
      ((visit c _ cur).assuming fun h => below (.tail _ (.head _)) h.1).bind fun c' => .pure fun h =>
        .unforced rfl (List.forall_mem_cons.mpr ⟨h.1.2, List.forall_mem_singleton.mpr h.2⟩)
  | forLoop i a c u t ha hu hb =>
    have optional (a : Option Stmt) {x : CheckM (Option Stmt)} (missing : a = none → x = Pure.pure none)
        (given : ∀ s, a = some s → x = (do return some (← s.place b cur)))
        (ih : ∀ s, a = some s → ∀ b cur, Upholds (· = σ) (cur = true → (Node.stmt s).Harmless σ)
          (fun s' => Placed σ cur (.stmt s')) (s.place b cur)) :
        Upholds (· = σ) (cur = true → ∀ n ∈ (a.map Node.stmt).toList, n.Harmless σ)
          (fun a' => ∀ n ∈ (a'.map Node.stmt).toList, Placed σ cur n) x := by
      cases a with
      | none =>
        rw [missing rfl]
        exact .pure fun _ => List.forall_mem_nil _
      | some s =>
        rw [given s rfl]
        exact ((ih s rfl b cur).assuming fun h hc => h hc _ (.head _)).bind fun _ => .pure fun h =>
          List.forall_mem_singleton.mpr h.2
    have part {n : Node} (h : cur = true → (Node.stmt (.forLoop i a c u t)).Harmless σ) (hc : cur = true)
        (hn : n ∈ (a.map Node.stmt).toList ++ [.expr c] ++ (u.map Node.stmt).toList ++ [.stmt (.block t)]) :
        n.Harmless σ := (h hc).part hn
    unfold Stmt.place
    refine ((optional a (by rintro rfl; rfl) (by rintro s rfl; rfl) ha).assuming fun h hc n hn => ?_).bind fun a' =>
      ((visit c _ cur).assuming fun h hc => ?_).bind fun c' =>
      ((optional u (by rintro rfl; rfl) (by rintro s rfl; rfl) hu).assuming fun h hc n hn => ?_).bind fun u' =>
      ((body t hb b cur).assuming fun h hc => ?_).bind fun t' => .pure fun h => .unforced rfl ?_
    · exact part h hc (List.mem_append_left _ (List.mem_append_left _ (List.mem_append_left _ hn)))
    · exact part h.1 hc (List.mem_append_left _ (List.mem_append_left _ (List.mem_append_right _ (.head _))))
    · exact part h.1.1 hc (List.mem_append_left _ (List.mem_append_right _ hn))
    · exact part h.1.1.1 hc (List.mem_append_right _ (.head _))
    · exact List.forall_mem_append.mpr ⟨List.forall_mem_append.mpr ⟨List.forall_mem_append.mpr
        ⟨h.1.1.1.2, List.forall_mem_singleton.mpr h.1.1.2⟩, h.1.2⟩, List.forall_mem_singleton.mpr h.2⟩
  | block t hb => exact (body t hb b cur).bind fun _ => .pure fun h => h.2
  | seq i ss x hs =>
    exact ((all ss hs b cur).assuming fun h hc n hn => below (s := .seq i ss x) hn h hc).bind fun _ => .pure fun h =>
      .unforced rfl h.2
  | simple s hs =>
    cases s with
    | ret i e =>
      cases e with
      | none => exact .pure fun _ => .unforced rfl (List.forall_mem_nil _)
      | some e =>
        exact ((visit e _ cur).assuming (below (.head _))).bind fun _ => .pure fun h =>
          .unforced rfl (List.forall_mem_singleton.mpr h.2)
    | eval i e | require i e =>
      exact ((visit e _ cur).assuming (below (.head _))).bind fun _ => .pure fun h =>
        .unforced rfl (List.forall_mem_singleton.mpr h.2)
    | assign i l r o x =>
      exact ((visit l _ cur).assuming (below (.head _))).bind fun _ =>
        ((visit r _ cur).assuming fun h => below (.tail _ (.head _)) h.1).bind fun _ => .pure fun h =>
          .unforced rfl (List.forall_mem_cons.mpr ⟨h.1.2, List.forall_mem_singleton.mpr h.2⟩)
    | declare i v e =>
      cases e with
      | none =>
        exact ((declared v _ cur).assuming (below (.head _))).bind fun _ => .pure fun h =>
          .unforced rfl (List.forall_mem_singleton.mpr h.2)
      | some e =>
        exact ((declared v _ cur).assuming (below (.head _))).bind fun _ =>
          ((visit e _ cur).assuming fun h => below (.tail _ (.head _)) h.1).bind fun _ => .pure fun h =>
            .unforced rfl (List.forall_mem_cons.mpr ⟨h.1.2, List.forall_mem_singleton.mpr h.2⟩)
    | breakLoop | continueLoop | compute | enterKey | comment | blank =>
      exact .pure fun _ => .unforced rfl (List.forall_mem_nil _)
    | ifThen | whileLoop | doWhile | forLoop | block | seq => cases hs

end Statements

/-! ## Placing programs -/

/-- After a program was placed, all nodes of its functions are settled. -/
theorem SourceUnit.place_settled {u v : SourceUnit} {b : Bool} (h : u.place b = (v, none)) :
    ∀ f ∈ v.allFunctions, (Node.stmt (.block f.body)).All Node.visited (Node.Situated u.symbols) := by
  have visit (f : FunctionDef) (t : BodyPlace) :
      Upholds (· = u.symbols) True (fun g => (Node.stmt (.block g.body)).All Node.visited (Node.Situated u.symbols))
        (do return { f with body := ← f.body.place t false } : CheckM FunctionDef) := by
    have body := (Stmt.block f.body).place_placed (σ := u.symbols) t false
    have block : Upholds (· = u.symbols) True (fun t => (Node.stmt (.block t)).All Node.visited (Node.Situated u.symbols))
        (f.body.place t false) := ⟨body.ends, fun _ s hs done => (body.holds nofun s hs done).imp_right fun h => h.settled⟩
    exact block.bind fun _ => .pure And.right
  have contract (c : Contract) (t : FunctionDef → BodyPlace) : Upholds (· = u.symbols) True
      (fun d => ∀ f ∈ d.constructors ++ d.functions,
        (Node.stmt (.block f.body)).All Node.visited (Node.Situated u.symbols)) (do
      let constructors ← c.constructors.mapM fun f => do return { f with body := ← f.body.place (t f) false }
      let functions ← c.functions.mapM fun f => do return { f with body := ← f.body.place (t f) false }
      return { c with constructors, functions } : CheckM Contract) := by
    have all (fs : List FunctionDef) {H : Prop} := Upholds.mapM (H := H) (I := (· = u.symbols))
      fun f (_ : f ∈ fs) => (visit f (t f)).assuming fun _ => trivial
    refine (all c.constructors).bind fun _ => (all c.functions).bind fun _ => .pure fun h => ?_
    refine List.forall_mem_append.mpr ⟨fun f hf => ?_, fun f hf => ?_⟩
    · obtain ⟨_, -, settled⟩ := exists_mem_of_forall₂_right h.1.2 hf
      exact settled
    · obtain ⟨_, -, settled⟩ := exists_mem_of_forall₂_right h.2 hf
      exact settled
  have all := Upholds.mapM (H := True) (I := (· = u.symbols)) fun c (_ : c ∈ u.contracts) => contract c fun f =>
    ⟨⟨some u.text, some c.name, some f.title, none⟩, false, b⟩
  obtain ⟨rfl, failure⟩ := Prod.ext_iff.mp h
  intro f hf
  obtain ⟨d, hd, hf⟩ := List.mem_flatMap.mp hf
  obtain ⟨_, -, settled⟩ := exists_mem_of_forall₂_right (all.holds trivial ⟨u.symbols, none, []⟩ rfl failure).2 hd
  exact settled f hf

/-! ## The passes after placing -/

/-- The functions that are called keep their side effects. -/
def Symbols.SameEffects (σ τ : Symbols) : Prop :=
  ∀ f, (τ.callee? f).map FunctionDef.hasSideEffects = (σ.callee? f).map FunctionDef.hasSideEffects

theorem SourceUnit.Pointwise.sameEffects {u v : SourceUnit} (h : u.Pointwise FunctionDef.SameSignature v)
    (distinct : u.numbers.Nodup) (distinct' : v.numbers.Nodup) : u.symbols.SameEffects v.symbols := by
  have functions := allFunctions_pointwise h
  have found (i : Nat) : (v.symbols.function? i).map FunctionDef.hasSideEffects =
      (u.symbols.function? i).map FunctionDef.hasSideEffects := by
    cases hf : u.symbols.function? i with
    | some f =>
      obtain ⟨own | builtin, rfl⟩ := function?_found hf
      · obtain ⟨g, hg, same⟩ := exists_mem_of_forall₂_left functions own
        rw [(function?_iff distinct').mpr ⟨.inl hg, same.id⟩, Option.map_some, Option.map_some]
        unfold FunctionDef.hasSideEffects
        rw [same.modifiers]
      · rw [(function?_iff distinct').mpr ⟨.inr builtin, rfl⟩]
    | none =>
      cases hg : v.symbols.function? i with
      | none => rfl
      | some g =>
        obtain ⟨own | builtin, rfl⟩ := function?_found hg
        · obtain ⟨f, hf', same⟩ := exists_mem_of_forall₂_right functions own
          rw [(function?_iff distinct).mpr ⟨.inl hf', same.id.symm⟩] at hf
          cases hf
        · rw [(function?_iff distinct).mpr ⟨.inr builtin, rfl⟩] at hf
          cases hf
  intro f
  obtain ⟨n, callee⟩ := Symbols.callee?_eq f
  rw [callee, callee]
  cases n with
  | none => rfl
  | some i => exact found i

section Inlining

variable {σ τ s : Symbols} {n m : Node}

theorem Symbols.SameEffects.isEffectful (same : σ.SameEffects τ) (e : Expr) : τ.isEffectful e = σ.isEffectful e := by
  cases e with
  | call i f as o k => rw [Symbols.isEffectful_call, Symbols.isEffectful_call, same f]
  | _ => rfl

theorem Expr.isEffectful_markInlined (e : Expr) : σ.isEffectful (e.markInlined s) = σ.isEffectful e := by
  cases e with
  | call i f as o k => exact (f.markInlined_alike s).isEffectful_call σ
  | _ => rfl

theorem Expr.isName_markInlined (e : Expr) : (e.markInlined s).isName = e.isName := by
  cases e <;> rfl

namespace Node.Like

theorem inlinedParts (e : Expr) :
    List.Forall₂ (Like (Expr.markInlined s)) (Node.expr e).parts (Node.expr (e.markInlined s)).parts := by
  have exprs (es : List Expr) :
      List.Forall₂ (Like (Expr.markInlined s)) (es.map Node.expr) ((Expr.markAllInlined s es).map Node.expr) := by
    induction es with
    | nil => exact .nil
    | cons e es ih => exact .cons (.expr e) ih
  cases e with
  | call i f as o k => exact .cons (.expr f) (exprs as)
  | new i as => exact List.rel_append (Like.all_same _) (exprs as)
  | cast i t e c => exact .cons (.same _) (.cons (.expr e) .nil)
  | arrayLit i es c | tuple i es => exact exprs es
  | member i e n r => exact .cons (.expr e) (.cons (.same _) .nil)
  | index i e k r => exact .cons (.expr e) (.cons (.expr k) .nil)
  | reclassify i m e p h => exact .cons (.expr e) (.cons (.expr p) .nil)
  | ident => exact .cons (.same _) .nil
  | _ => exact .nil

theorem inlinedLabel (p : Expr) : List.Forall₂ (Like (Expr.markInlined s)) (if p.isName then [Node.expr p] else [])
    (if (p.markInlined s).isName then [Node.expr (p.markInlined s)] else []) := by
  rw [p.isName_markInlined]
  split
  · exact .cons (.expr p) .nil
  · exact .nil

theorem visited (h : Like (Expr.markInlined s) n m) : List.Forall₂ (Like (Expr.markInlined s)) n.visited m.visited := by
  refine h.steps (fun _ => rfl) fun e => ?_
  have parts := inlinedParts (s := s) e
  cases e with
  | reclassify i f e p q => exact .cons (.expr e) (inlinedLabel p)
  | _ => exact parts

theorem openParts (h : Like (Expr.markInlined s) n m) :
    List.Forall₂ (Like (Expr.markInlined s)) n.openParts m.openParts := by
  refine h.steps (fun _ => rfl) fun e => ?_
  have parts := inlinedParts (s := s) e
  cases e with
  | reclassify i f e p q =>
    refine List.rel_append ?_ (inlinedLabel p)
    rw [(e.markInlined_alike s).isPrivate]
    split
    · exact .cons (.expr e) .nil
    · exact .nil
  | index i e k r => exact .cons (.expr e) .nil
  | _ => exact parts

theorem inside_iff (h : Like (Expr.markInlined s) n m) : n.Inside ↔ m.Inside := by
  refine all_iff (fun _ _ => openParts) (fun n m h => ?_) h
  cases h with
  | same | stmt => exact Iff.rfl
  | expr e =>
    have mark : (e.markInlined s).info.privately = e.info.privately := by cases e <;> rfl
    show (!e.info.privately) = false ↔ (!(e.markInlined s).info.privately) = false
    rw [mark]

theorem harmless_iff (same : σ.SameEffects τ) (h : Like (Expr.markInlined s) n m) :
    n.Harmless σ ↔ m.Harmless τ := by
  refine all_iff (fun _ _ h => h.steps (fun _ => rfl) inlinedParts) (fun n m h => ?_) h
  cases h with
  | same =>
    cases n with
    | expr e =>
      show (!σ.isEffectful e) = true ↔ (!τ.isEffectful e) = true
      rw [same.isEffectful]
    | _ => exact Iff.rfl
  | stmt => exact Iff.rfl
  | expr e =>
    show (!σ.isEffectful e) = true ↔ (!τ.isEffectful (e.markInlined s)) = true
    rw [Expr.isEffectful_markInlined, same.isEffectful]

/-- Marks of inlined calls do not unsettle a node. -/
theorem settled (same : σ.SameEffects τ) (h : Like (Expr.markInlined s) n m) (settled : n.Situated σ) :
    m.Situated τ := by
  have inside := h.inside_iff
  have harmless := h.harmless_iff same
  cases h with
  | same =>
    cases n with
    | expr e =>
      refine ⟨settled.forced, fun h => ?_, fun h => (settled.inherited h).imp_right (And.imp_right (mt harmless.mpr))⟩
      rw [same.isEffectful]
      exact settled.effects h
    | _ => exact settled
  | stmt t =>
    intro forces
    rw [Stmt.forces_markInlined] at forces
    exact inside.mp (settled forces)
  | expr e =>
    have mark : (e.markInlined s).info.privately = e.info.privately := by cases e <;> rfl
    have offer : (e.markInlined s).isOffer = e.isOffer := by
      cases e with
      | reclassify i f e p q => exact congrArg not (e.markInlined_alike s).isPrivate
      | _ => rfl
    refine ⟨fun h => ?_, fun h => ?_, fun h => ?_⟩
    · rw [Expr.forces_markInlined] at h
      exact mark.trans (settled.forced h)
    · rw [Expr.isEffectful_markInlined, same.isEffectful]
      exact settled.effects (mark.symm.trans h)
    · refine (settled.inherited (mark.symm.trans h)).imp inside.mp fun halted => ?_
      exact ⟨offer.trans halted.1, mt harmless.mpr halted.2⟩

end Node.Like

end Inlining

/-! ## Marks in accepted programs -/

/-- The node occurs in the body. -/
def FunctionDef.Contains (g : FunctionDef) (n : Node) : Prop :=
  Relation.ReflTransGen (fun n m => m ∈ n.visited) (.stmt (.block g.body)) n

/-- The label that the value of a reclassification gets. -/
def Expr.newLabel? : Expr → Option Expr
  | .reclassify _ _ _ p _ => some p
  | _ => none

/-- Which expressions of the function are evaluated in the circuit, given which calls have side effects. -/
structure FunctionDef.WellPlaced (σ : Symbols) (g : FunctionDef) : Prop where
  /-- Reclassifications, private operations and casts of private values are. -/
  forced : ∀ e, g.Contains (.expr e) → e.forces = true → e.info.privately = true
  /-- So is everything in an if statement with a private condition. -/
  branches : ∀ s e, g.Contains (.stmt s) → s.forces = true → (Node.stmt s).Reaches (.expr e) → e.info.privately = true
  /-- What is below such an expression is, apart from the label of an offered value with side effects. -/
  inherited : ∀ e x, g.Contains (.expr e) → e.info.privately = true → (Node.expr e).Reaches (.expr x) →
    x.info.privately = true ∨ e.IsHalted σ ∧ e.newLabel? = some x
  /-- Calls with side effects are not. -/
  effects : ∀ e, g.Contains (.expr e) → e.info.privately = true → σ.isEffectful e = false
  /-- The operand of a reclassification is, or it is public. -/
  operands : ∀ i f e p h, g.Contains (.expr (.reclassify i f e p h)) →
    e.info.privately = true ∨ e.checkedType.isPrivate = false

/-- Below a halted reclassification there is only its label. -/
theorem Expr.IsHalted.reaches {σ : Symbols} {e x : Expr} (halted : e.IsHalted σ)
    (h : (Node.expr e).Reaches (.expr x)) : x = e ∨ e.newLabel? = some x := by
  cases e with
  | reclassify i f e p q =>
    have shown : e.checkedType.isPrivate = false := by simpa [isOffer] using halted.1
    obtain same | ⟨n, hn, h⟩ := Relation.ReflTransGen.cases_head_iff.mp h
    · exact .inl (Node.expr.inj same.symm)
    · replace hn : n ∈ (if e.checkedType.isPrivate then [Node.expr e] else []) ++ if p.isName then [Node.expr p] else [] := hn
      rw [shown, if_neg Bool.false_ne_true, List.nil_append] at hn
      split at hn
      · rename_i name
        cases List.mem_singleton.mp hn
        obtain same | ⟨m, hm, h⟩ := Relation.ReflTransGen.cases_head_iff.mp h
        · exact .inr (congrArg some (Node.expr.inj same))
        · cases p with
          | ident j n r =>
            cases List.mem_singleton.mp hm
            obtain same | ⟨_, none, -⟩ := Relation.ReflTransGen.cases_head_iff.mp h
            · cases same
            · cases none
          | me | all => cases hm
          | _ => cases name
      · cases hn
  | _ => cases halted.1

theorem FunctionDef.wellPlaced_of_settled {σ : Symbols} {g : FunctionDef}
    (h : (Node.stmt (.block g.body)).All Node.visited (Node.Situated σ)) : g.WellPlaced σ := by
  have settled {e : Expr} (he : g.Contains (.expr e)) : e.Situated σ := h _ he
  refine ⟨fun e he => (settled he).forced, fun s e hs forces he => ?_, fun e x he marked hx => ?_,
    fun e he => (settled he).effects, fun i f e p q he => ?_⟩
  · exact Node.inside_iff.mp (h _ hs forces) e he
  · rcases (settled he).inherited marked with inside | halted
    · exact .inl (Node.inside_iff.mp inside x hx)
    · rcases halted.reaches hx with rfl | label
      · exact .inl marked
      · exact .inr ⟨halted, label⟩
  · rcases (settled he).inherited ((settled he).forced rfl) with inside | halted
    · cases secret : e.checkedType.isPrivate with
      | false => exact .inr rfl
      | true =>
        refine .inl (Node.inside_iff.mp inside e (.single ?_))
        show Node.expr e ∈ (if e.checkedType.isPrivate then [Node.expr e] else []) ++ _
        rw [if_pos secret]
        exact List.mem_cons_self
    · exact .inr (by simpa [Expr.isOffer] using halted.1)

theorem FunctionDef.sameSignature_coarse : Coarse SameSignature :=
  ⟨fun _ => ⟨rfl, rfl, rfl⟩, fun _ _ _ => .trans, fun _ _ _ _ => ⟨rfl, rfl, rfl⟩, fun _ _ _ _ => ⟨rfl, rfl, rfl⟩⟩

namespace SourceUnit

/-- The search for private code changes marks of functions only. -/
theorem markProofs_facts (u : SourceUnit) :
    u.Pointwise (fun f g => g = { f with facts := g.facts }) u.markProofs := by
  have once (v : SourceUnit) (facts : Symbols → FunctionDef → FunctionFacts) :
      v.Pointwise (fun f g => g = { f with facts := g.facts }) (v.mapFacts facts) :=
    mapFacts_pointwise (R := fun f g => g = { f with facts := g.facts }) (f := facts) (fun _ _ => rfl) v
  exact Pointwise.trans (fun f g k hg hk => hk.trans (by rw [hg])) (once u _) (once _ _)

theorem markInlined_body (u : SourceUnit) :
    u.Pointwise (fun f g => g.body = f.body.mapExprs (Expr.markInlined u.symbols)) u.markInlined := by
  have bodies := mapFunctions_pointwise
    (R := fun f g => g.body = f.body.mapExprs (Expr.markInlined u.symbols)) (σ := Unit)
    (f := fun _ f _ => ({ f with body := f.body.mapExprs (Expr.markInlined u.symbols) }, ())) (fun _ _ _ => rfl) u ()
  refine List.forall₂_map_right_iff.mpr (bodies.imp fun c d h => ?_)
  exact ⟨h.id, h.name, h.constructors, h.functions⟩

theorem Accepted.wellPlaced {u v : SourceUnit} {next : Nat} {o : Options} (distinct : u.numbers.Nodup)
    (h : u.Accepted next o v) : ∀ g ∈ v.allFunctions, g.WellPlaced v.symbols := by
  have numbers := h.numbers
  cases h with
  | @intro linked aliased called accessed placed n link _ aliases calls accesses _ _ places =>
  have settled := place_settled places
  have last : (accessed.check.unit.markCapable.place o.foldConstants.holds).1 = placed := congrArg Prod.fst places
  have searched : placed.Pointwise FunctionDef.SameSignature placed.markProofs := by
    refine Pointwise.mono (fun f g h => ?_) placed.markProofs_facts
    rw [h]
    exact ⟨rfl, rfl, rfl⟩
  have before : accessed.check.unit.markCapable.Pointwise FunctionDef.SameSignature placed :=
    last ▸ place_pointwise FunctionDef.sameSignature_coarse accessed.check.unit.markCapable o.foldConstants.holds
  have signatures : accessed.check.unit.markCapable.Pointwise FunctionDef.SameSignature placed.markProofs.markInlined :=
    (before.trans (fun _ _ _ => .trans) searched).trans (fun _ _ _ => .trans)
      (markInlined_pointwise FunctionDef.sameSignature_coarse _)
  have same : accessed.check.unit.markCapable.numbers = u.numbers := by
    rw [← numbers, markInlined_numbers, markProofs_numbers, ← last, place_numbers]
  have effects := signatures.sameEffects (same ▸ distinct) (numbers ▸ distinct)
  have bodies := Pointwise.trans (T := fun f g => g.body = f.body.mapExprs (Expr.markInlined placed.markProofs.symbols))
    (fun f g k hg hk => hk.trans (by rw [hg])) placed.markProofs_facts (markInlined_body _)
  intro g hg
  obtain ⟨f, hf, same⟩ := exists_mem_of_forall₂_right (allFunctions_pointwise bodies) hg
  refine FunctionDef.wellPlaced_of_settled ?_
  rw [same]
  exact (settled f hf).transfer (fun _ _ h y hy => exists_mem_of_forall₂_right h.visited hy)
    (fun _ _ h => h.settled effects) (Node.Like.stmt (.block f.body))

end SourceUnit

/-- In an accepted program a mark says that all that is below is evaluated in the circuit, and that there are no side
effects. What is left outside is the label of an offered value that has such effects. -/
theorem process_wellPlaced {u : SourceUnit} {next : Nat} {o : Options} {t : Transcript} {p : Progress}
    (distinct : u.numbers.Nodup) (h : (u.process next o .all t).2 = .ok p) :
    ∀ g ∈ p.unit.allFunctions, g.WellPlaced p.unit.symbols :=
  (SourceUnit.process_accepted h).wellPlaced distinct

/-- A counter whose next value is given to the sender. -/
def issuing : SourceUnit :=
  .sketch 100 "Counter" [⟨101, [], .publicUint, "count", none⟩]
    [.yielding 102 "issue" [
      .assign default (.nameAt 110 "count") (.applyAt 111 .add [.nameAt 113 "count", .literalAt 114 1]) "" false,
      .ret default (some (.nameAt 115 "count"))],
    .sketch 104 "draw" "public" [] [.declareAt 105 AnnTy.uint.mine "number"
      (.reclassify (.numbered 120) .reveal (.callAt 121 (.nameAt 122 "issue") []) (.me (.numbered 123)) none)]]

theorem issuing_wellPlaced : ∃ p, (issuing.process 130 .default .all .empty).2 = .ok p ∧
    ∀ g ∈ p.unit.allFunctions, g.WellPlaced p.unit.symbols := by
  obtain ⟨p, hp, -⟩ := exists_ok_of_any (x := (issuing.process 130 .default .all .empty).2) (p := fun _ => true)
    (by decide +kernel)
  exact ⟨p, hp, process_wellPlaced (by decide) hp⟩

/-- The body declares a reclassification in the circuit to a label that is not in it. -/
def Block.losesLabel : Block → Bool
  | ⟨_, [.declare _ _ (some (.reclassify i _ _ x _))], _⟩ => i.privately && x.isName && !x.info.privately
  | _ => false

/-- The reclassification is evaluated in the circuit, but its label is not. -/
theorem issuing_uninherited : ∃ p, (issuing.process 130 .default .all .empty).2 = .ok p ∧
    ∃ g ∈ p.unit.allFunctions, ∃ e x, g.Contains (.expr e) ∧ e.info.privately = true ∧
      (Node.expr e).Reaches (.expr x) ∧ x.info.privately = false := by
  obtain ⟨p, hp, h⟩ := exists_ok_of_any (x := (issuing.process 130 .default .all .empty).2)
    (p := fun p => p.unit.allFunctions.any fun g => g.body.losesLabel) (by decide +kernel)
  obtain ⟨g, hg, found⟩ := List.any_eq_true.mp h
  refine ⟨p, hp, g, hg, ?_⟩
  unfold Block.losesLabel at found
  split at found
  · rename_i i j v k f e x q c body
    rw [Bool.and_eq_true, Bool.and_eq_true, Bool.not_eq_true'] at found
    refine ⟨.reclassify k f e x q, x, ?_, found.1.1, .single ?_, found.2⟩
    · unfold FunctionDef.Contains
      rw [body]
      exact .tail (.single (List.mem_singleton_self _)) (List.mem_cons_of_mem _ (List.mem_singleton_self _))
    · refine List.mem_append_right _ ?_
      rw [found.1.2]
      exact List.mem_singleton_self _
  · cases found

end Shroud
