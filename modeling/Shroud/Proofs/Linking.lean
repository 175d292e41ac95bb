import Shroud.Proofs.Numbers
import Shroud.Syntax.Copy

/-!
# What linking changes

Linking code hands out numbers and records types. It never makes a function known.

**Functions.** Copied variables join the known declarations, so a table may grow. What counts is that a function that
is found afterwards was found before.
-/

namespace Shroud

/-- Every function that the first table knows, the second one knows by the same number. -/
def Symbols.Within (s t : Symbols) : Prop := ∀ i g, s.function? i = some g → t.function? i = some g

namespace Symbols

variable {s t u : Symbols}

theorem Within.refl (s : Symbols) : s.Within s := fun _ _ h => h

theorem Within.trans (h : s.Within t) (k : t.Within u) : s.Within u := fun i g hg => k i g (h i g hg)

theorem function?_withType (d : Decl) (t : AnnTy) : (d.withType t).function? = d.function? := by cases d <;> rfl

theorem function?_modify {f : Decl → Decl} (hf : ∀ d, (f d).function? = d.function?) (id i : Nat) :
    (s.modify id f).function? i = s.function? i := by
  unfold function? find? modify
  induction s.entries with
  | nil => rfl
  | cons e es ih =>
    obtain ⟨j, d⟩ := e
    have entry : (if j == id then (j, f d) else (j, d)) = (j, if j == id then f d else d) := by split <;> rfl
    rw [List.map_cons]
    dsimp only at ih ⊢
    rw [entry, List.lookup_cons, List.lookup_cons]
    split
    · show (if j == id then f d else d).function? = d.function?
      split
      · exact hf d
      · rfl
    · exact ih

theorem function?_setType (id : Nat) (type : AnnTy) (i : Nat) : (s.setType id type).function? i = s.function? i :=
  function?_modify (fun d => function?_withType d type) id i

theorem setType_within (i : Nat) (type : AnnTy) : (s.setType i type).Within s :=
  fun j _ h => (function?_setType i type j).symm.trans h

theorem addLocals_within (vs : List LocalVar) : (s.addLocals vs).Within s := by
  intro i g h
  unfold addLocals at h
  rw [function?_eq_some] at h ⊢
  obtain ⟨c, h⟩ := h
  refine ⟨c, ?_⟩
  induction vs with
  | nil => exact h
  | cons v vs ih =>
    rw [List.map_cons, List.cons_append, List.lookup_cons] at h
    split at h
    · cases h
    · exact ih h

end Symbols

/-- Linking went on from the first state to the second one. -/
structure LinkState.Grows (s t : LinkState) : Prop where
  symbols : t.symbols.Within s.symbols
  next : s.next ≤ t.next

/-- The activity of the linker knows no more functions afterwards and hands out numbers in order. -/
def LinkM.Growing {α : Type} (x : LinkM α) : Prop := ∀ s r, x s = .ok r → s.Grows r.2

theorem LinkState.Grows.refl (s : LinkState) : s.Grows s := ⟨.refl _, Nat.le_refl _⟩

theorem LinkState.Grows.trans {s t u : LinkState} (h : s.Grows t) (k : t.Grows u) : s.Grows u :=
  ⟨k.symbols.trans h.symbols, Nat.le_trans h.next k.next⟩

namespace LinkM

section Growing

variable {α β : Type} {x : LinkM α} {f : α → LinkM β}

theorem Growing.pure {a : α} : Growing (pure a) := by
  intro s r h
  cases state_pure_ok h
  exact .refl s

theorem Growing.bind (hx : Growing x) (hf : ∀ a, Growing (f a)) : Growing (x >>= f) := by
  intro s r h
  obtain ⟨a, t, ha, h⟩ := state_bind_ok h
  exact (hx s (a, t) ha).trans (hf a t r h)

theorem Growing.throw {e : Error} : Growing (throw e : LinkM α) := by
  intro s r h
  cases h

theorem Growing.lift {r : Except Error α} : Growing (liftM r : LinkM α) := by
  intro s p h
  cases r with
  | error e => cases h
  | ok a =>
    cases h
    exact .refl s

theorem growing_get : Growing (get : LinkM LinkState) := by
  intro s r h
  cases h
  exact .refl s

theorem growing_fresh : Growing fresh := by
  intro s r h
  cases h
  exact ⟨.refl _, Nat.le_succ _⟩

theorem growing_record {id : Nat} {t : AnnTy} : Growing (record id t) := by
  intro s r h
  cases h
  refine ⟨fun i g hg => ?_, Nat.le_refl _⟩
  rwa [← Symbols.function?_setType id t]

theorem Growing.mapM {f : α → LinkM β} (hf : ∀ a, Growing (f a)) (as : List α) : Growing (as.mapM f) := by
  induction as with
  | nil =>
    rw [List.mapM_nil]
    exact .pure
  | cons a as ih =>
    rw [List.mapM_cons]
    exact (hf a).bind fun _ => ih.bind fun _ => .pure

end Growing

end LinkM

open LinkM

/-! ## Types and expressions -/

theorem growing_linkType {c : LinkContext} {names : List String} : Growing (linkType c names) := by
  unfold linkType
  split
  · exact .pure
  · split
    · exact .pure
    · exact growing_get.bind fun _ => Growing.lift.bind fun _ => .pure

theorem growing_linkValue {c : LinkContext} {e : Expr} {name : String} : Growing (linkValue c e name) := by
  unfold linkValue
  split
  · exact .pure
  · exact .throw
  · exact .throw

theorem growing_linkSpace {c : LinkContext} {t : Ty} : Growing (linkSpace c t) := by
  have members {names : List String} {target : Option NamedTarget} : Growing (do
      let symbols := (← get).symbols
      return target.map fun t => symbols.membersOf (names.getLastD "") t.ref) := growing_get.bind fun _ => .pure
  unfold linkSpace
  dsimp only
  split
  · exact members
  · exact growing_linkType.bind fun _ => members
  · exact growing_linkType.bind fun _ => members
  · exact .throw

theorem growing_linkMember {c : LinkContext} {e base : Expr} {name : String} {old : Option Ref} :
    Growing (linkMember c e base name old) := by
  unfold linkMember
  refine growing_get.bind fun _ => ?_
  dsimp only
  split
  iterate 4
    split
    · exact .pure
    · exact .throw
  · split
    · exact .throw
    · split
      · split
        · exact .pure
        · exact .throw
      · refine growing_linkSpace.bind fun _ => ?_
        split
        · exact .pure
        · split
          · exact .pure
          · exact .throw
  · exact .throw

theorem growing_linkElement {base : Expr} : Growing (linkElement base) := by
  unfold linkElement
  refine growing_get.bind fun _ => ?_
  dsimp only
  split
  · split
    · exact .throw
    · refine growing_fresh.bind fun _ => ?_
      split <;> exact .pure
  · exact .throw

mutual

theorem Ty.growing_link : ∀ (t : Ty) (c : LinkContext), Growing (t.link c)
  | .named s ns t, c => by
    simp only [Ty.link]
    refine growing_linkType.bind fun _ => ?_
    split <;> exact .pure
  | .mapping i k l v, c => by
    simp only [Ty.link]
    exact (k.growing_link _).bind fun _ => (v.growing_link _).bind fun _ => .pure
  | .array v none, c => by
    simp only [Ty.link]
    exact (v.growing_link c).bind fun _ => .pure
  | .array v (some n), c => by
    simp only [Ty.link]
    exact (v.growing_link c).bind fun _ => (n.growing_link c).bind fun _ => .pure
  | .function ps ms rs, c => by
    simp only [Ty.link]
    exact (Param.growing_linkAll ps c).bind fun _ => (Param.growing_linkAll rs c).bind fun _ => .pure
  | .elementary .., _ | .bool, _ | .boolLit .., _ | .number, _ | .numLit .., _ | .integer .., _ | .address .., _
  | .cipher .., _ | .publicKey .., _ | .randomness .., _ | .tuple .., _ => by
    simp only [Ty.link]
    exact .pure

theorem AnnTy.growing_link : ∀ (t : AnnTy) (c : LinkContext), Growing (t.link c)
  | ⟨t, p, h, a, d⟩, c => by
    simp only [AnnTy.link]
    exact (t.growing_link c).bind fun _ => (p.growing_link c).bind fun _ => .pure

theorem Param.growing_link : ∀ (p : Param) (c : LinkContext), Growing (p.link c)
  | ⟨i, k, t, n, s, o⟩, c => by
    simp only [Param.link]
    exact (t.growing_link c).bind fun _ => growing_record.bind fun _ => .pure

theorem Param.growing_linkAll : ∀ (ps : List Param) (c : LinkContext), Growing (Param.linkAll c ps)
  | [], _ => by
    simp only [Param.linkAll]
    exact .pure
  | p :: ps, c => by
    simp only [Param.linkAll]
    exact (p.growing_link c).bind fun _ => (Param.growing_linkAll ps c).bind fun _ => .pure

theorem Info.growing_linkType : ∀ (i : Info) (c : LinkContext), Growing (i.linkType c)
  | ⟨i, p, some t, b, x⟩, c => by
    simp only [Info.linkType]
    exact (t.growing_link c).bind fun _ => .pure
  | ⟨i, p, none, b, x⟩, _ => by
    simp only [Info.linkType]
    exact .pure

theorem Expr.growing_link : ∀ (e : Expr) (c : LinkContext), Growing (e.link c)
  | .call i f as o k, c => by
    simp only [Expr.link]
    exact (f.growing_link c).bind fun _ => (Expr.growing_linkAll as c).bind fun _ => .pure
  | .new i as, c => by
    simp only [Expr.link]
    exact (i.growing_linkType c).bind fun _ => (Expr.growing_linkAll as c).bind fun _ => .pure
  | .cast i t e b, c => by
    simp only [Expr.link]
    exact (t.growing_link c).bind fun _ => (e.growing_link c).bind fun _ => .pure
  | .arrayLit i vs k, c => by
    simp only [Expr.link]
    exact (Expr.growing_linkAll vs c).bind fun _ => .pure
  | .tuple i es, c => by
    simp only [Expr.link]
    exact (Expr.growing_linkAll es c).bind fun _ => .pure
  | .ident i n t, c => by
    simp only [Expr.link]
    exact growing_linkValue.bind fun _ => .pure
  | .member i e n t, c => by
    simp only [Expr.link]
    exact (e.growing_link c).bind fun _ => growing_linkMember.bind fun _ => .pure
  | .index i e k t, c => by
    simp only [Expr.link]
    exact (e.growing_link c).bind fun _ => (k.growing_link c).bind fun _ => growing_linkElement.bind fun _ => .pure
  | .reclassify i m e p h, c => by
    simp only [Expr.link]
    exact (e.growing_link c).bind fun _ => (p.growing_link c).bind fun _ => .pure
  | .operator .., _ | .boolLit .., _ | .numLit .., _ | .me .., _ | .all .., _ => by
    simp only [Expr.link]
    exact .pure

theorem Expr.growing_linkAll : ∀ (es : List Expr) (c : LinkContext), Growing (Expr.linkAll c es)
  | [], _ => by
    simp only [Expr.linkAll]
    exact .pure
  | e :: es, c => by
    simp only [Expr.linkAll]
    exact (e.growing_link c).bind fun _ => (Expr.growing_linkAll es c).bind fun _ => .pure

end

/-! ## Statements -/

theorem Expr.growing_link? (c : LinkContext) (e : Option Expr) : Growing (Expr.link? c e) := by
  cases e with
  | none => exact .pure
  | some e => exact (e.growing_link c).bind fun _ => .pure

theorem LocalVar.growing_link (v : LocalVar) (c : LinkContext) : Growing (v.link c) :=
  (v.type.growing_link c).bind fun _ => growing_record.bind fun _ => .pure

mutual

theorem Stmt.growing_link : ∀ (s : Stmt) (c : LinkContext), Growing (s.link c)
  | .ifThen i e t none, c => by
    simp only [Stmt.link]
    exact (e.growing_link _).bind fun _ => (t.growing_link c).bind fun _ => .pure
  | .ifThen i e t (some f), c => by
    simp only [Stmt.link]
    exact (e.growing_link _).bind fun _ => (t.growing_link c).bind fun _ => (f.growing_link c).bind fun _ => .pure
  | .whileLoop i e b, c => by
    simp only [Stmt.link]
    exact (e.growing_link _).bind fun _ => (b.growing_link c).bind fun _ => .pure
  | .doWhile i b e, c => by
    simp only [Stmt.link]
    exact (b.growing_link c).bind fun _ => (e.growing_link _).bind fun _ => .pure
  | .forLoop i none e none b, c => by
    simp only [Stmt.link]
    exact Growing.pure.bind fun _ => (e.growing_link _).bind fun _ => Growing.pure.bind fun _ =>
      (b.growing_link _).bind fun _ => .pure
  | .forLoop i none e (some u) b, c => by
    simp only [Stmt.link]
    exact Growing.pure.bind fun _ => (e.growing_link _).bind fun _ =>
      ((u.growing_link _).bind fun _ => .pure).bind fun _ => (b.growing_link _).bind fun _ => .pure
  | .forLoop i (some s) e none b, c => by
    simp only [Stmt.link]
    exact ((s.growing_link _).bind fun _ => .pure).bind fun _ => (e.growing_link _).bind fun _ =>
      Growing.pure.bind fun _ => (b.growing_link _).bind fun _ => .pure
  | .forLoop i (some s) e (some u) b, c => by
    simp only [Stmt.link]
    exact ((s.growing_link _).bind fun _ => .pure).bind fun _ => (e.growing_link _).bind fun _ =>
      ((u.growing_link _).bind fun _ => .pure).bind fun _ => (b.growing_link _).bind fun _ => .pure
  | .ret i e, c => by
    simp only [Stmt.link]
    exact (Expr.growing_link? _ e).bind fun _ => .pure
  | .eval i e, c | .require i e, c => by
    simp only [Stmt.link]
    exact (e.growing_link _).bind fun _ => .pure
  | .assign i l r o b, c => by
    simp only [Stmt.link]
    exact (l.growing_link _).bind fun _ => (r.growing_link _).bind fun _ => .pure
  | .declare i v e, c => by
    simp only [Stmt.link]
    exact (v.growing_link _).bind fun _ => (Expr.growing_link? _ e).bind fun _ => .pure
  | .block b, c => by
    simp only [Stmt.link]
    exact (b.growing_link c).bind fun _ => .pure
  | .seq i ss x, c => by
    simp only [Stmt.link]
    exact (Stmt.growing_linkAll ss c).bind fun _ => .pure
  | .breakLoop _, _ | .continueLoop _, _ | .compute .., _ | .enterKey .., _ | .comment _, _ | .blank, _ => by
    simp only [Stmt.link]
    exact .pure

theorem Block.growing_link : ∀ (b : Block) (c : LinkContext), Growing (b.link c)
  | ⟨i, ss, b⟩, c => by
    simp only [Block.link]
    exact (Stmt.growing_linkAll ss _).bind fun _ => .pure

theorem Stmt.growing_linkAll : ∀ (ss : List Stmt) (c : LinkContext), Growing (Stmt.linkAll c ss)
  | [], _ => by
    simp only [Stmt.linkAll]
    exact .pure
  | s :: ss, c => by
    simp only [Stmt.linkAll]
    exact (s.growing_link c).bind fun _ => (Stmt.growing_linkAll ss _).bind fun _ => .pure

end

/-! ## Copies -/

/-- The activity hands out numbers in order. -/
def Counting {α : Type} (x : StateM Nat α) : Prop := ∀ n, n ≤ (x n).2

section Counting

variable {α β : Type} {x : StateM Nat α} {f : α → StateM Nat β}

theorem Counting.pure {a : α} : Counting (pure a) := fun _ => Nat.le_refl _

theorem Counting.bind (hx : Counting x) (hf : ∀ a, Counting (f a)) : Counting (x >>= f) :=
  fun n => Nat.le_trans (hx n) (hf _ _)

theorem counting_freshNumber : Counting freshNumber := Nat.le_succ

end Counting

theorem Expr.counting_bottomUp {f : Expr → StateM Nat Expr} (hf : ∀ e, Counting (f e)) (e : Expr) :
    Counting (e.bottomUp f) := by
  have all (es : List Expr) (ih : ∀ a ∈ es, Counting (a.bottomUp f)) : Counting (Expr.bottomUpAll f es) := by
    induction es with
    | nil =>
      simp only [Expr.bottomUpAll]
      exact .pure
    | cons e es ihes =>
      simp only [Expr.bottomUpAll]
      exact (ih e List.mem_cons_self).bind fun _ =>
        (ihes fun a ha => ih a (List.mem_cons_of_mem _ ha)).bind fun _ => .pure
  induction e using Expr.inductOn with
  | call i g as o k ihg ihas =>
    simp only [Expr.bottomUp]
    exact ihg.bind fun _ => (all as ihas).bind fun _ => hf _
  | new i as ih | tuple i as ih | arrayLit i as k ih =>
    simp only [Expr.bottomUp]
    exact (all as ih).bind fun _ => hf _
  | cast i t e b ih | member i e n t ih =>
    simp only [Expr.bottomUp]
    exact ih.bind fun _ => hf _
  | index i e k t ihe ihk | reclassify i m e k p ihe ihk =>
    simp only [Expr.bottomUp]
    exact ihe.bind fun _ => ihk.bind fun _ => hf _
  | leaf e hl =>
    cases e with
    | operator | boolLit | numLit | ident | me | all =>
      simp only [Expr.bottomUp]
      exact hf _
    | call | new | cast | arrayLit | tuple | member | index | reclassify => cases hl

theorem Expr.counting_renumber (e : Expr) : Counting e.renumber :=
  e.counting_bottomUp fun _ => counting_freshNumber.bind fun _ => .pure

theorem Expr.counting_copy (types : Bool) (e : Expr) : Counting (e.copy types) :=
  e.counting_bottomUp fun _ => counting_freshNumber.bind fun _ => .pure

theorem LocalVar.counting_copy (v : LocalVar) : Counting v.copy := counting_freshNumber.bind fun _ => .pure

mutual

theorem Stmt.counting_copy (f : Fidelity) : ∀ s : Stmt, Counting (s.copy f)
  | .ifThen i c t none => by
    simp only [Stmt.copy]
    exact (c.counting_copy _).bind fun _ => (t.counting_copy f).bind fun _ => .pure
  | .ifThen i c t (some e) => by
    simp only [Stmt.copy]
    exact (c.counting_copy _).bind fun _ => (t.counting_copy f).bind fun _ => (e.counting_copy f).bind fun _ => .pure
  | .whileLoop i c b => by
    simp only [Stmt.copy]
    exact (c.counting_copy _).bind fun _ => (b.counting_copy f).bind fun _ => .pure
  | .doWhile i b c => by
    simp only [Stmt.copy]
    exact (b.counting_copy f).bind fun _ => (c.counting_copy _).bind fun _ => .pure
  | .forLoop i none c none b => by
    simp only [Stmt.copy]
    exact Counting.pure.bind fun _ => (c.counting_copy _).bind fun _ => Counting.pure.bind fun _ =>
      (b.counting_copy f).bind fun _ => .pure
  | .forLoop i none c (some u) b => by
    simp only [Stmt.copy]
    exact Counting.pure.bind fun _ => (c.counting_copy _).bind fun _ =>
      ((u.counting_copy f).bind fun _ => .pure).bind fun _ => (b.counting_copy f).bind fun _ => .pure
  | .forLoop i (some s) c none b => by
    simp only [Stmt.copy]
    exact ((s.counting_copy f).bind fun _ => .pure).bind fun _ => (c.counting_copy _).bind fun _ =>
      Counting.pure.bind fun _ => (b.counting_copy f).bind fun _ => .pure
  | .forLoop i (some s) c (some u) b => by
    simp only [Stmt.copy]
    exact ((s.counting_copy f).bind fun _ => .pure).bind fun _ => (c.counting_copy _).bind fun _ =>
      ((u.counting_copy f).bind fun _ => .pure).bind fun _ => (b.counting_copy f).bind fun _ => .pure
  | .ret i none => by
    simp only [Stmt.copy]
    exact .pure
  | .ret i (some e) | .eval i e | .require i e => by
    simp only [Stmt.copy]
    exact (e.counting_copy _).bind fun _ => .pure
  | .assign i l r o b => by
    simp only [Stmt.copy]
    exact (l.counting_copy _).bind fun _ => (r.counting_copy _).bind fun _ => .pure
  | .declare i v none => by
    simp only [Stmt.copy]
    exact v.counting_copy.bind fun _ => .pure
  | .declare i v (some e) => by
    simp only [Stmt.copy]
    exact v.counting_copy.bind fun _ => (e.counting_copy _).bind fun _ => .pure
  | .block b => by
    simp only [Stmt.copy]
    exact (b.counting_copy f).bind fun _ => .pure
  | .seq i ss x => by
    simp only [Stmt.copy]
    exact (Stmt.counting_copyAll f ss).bind fun _ => .pure
  | .breakLoop _ | .continueLoop _ | .compute .. | .enterKey .. | .comment _ | .blank => by
    simp only [Stmt.copy]
    exact .pure

theorem Block.counting_copy (f : Fidelity) : ∀ b : Block, Counting (b.copy f)
  | ⟨i, ss, b⟩ => by
    simp only [Block.copy]
    exact (Stmt.counting_copyAll f ss).bind fun _ => .pure

theorem Stmt.counting_copyAll (f : Fidelity) : ∀ ss : List Stmt, Counting (Stmt.copyAll f ss)
  | [] => by
    simp only [Stmt.copyAll]
    exact .pure
  | s :: ss => by
    simp only [Stmt.copyAll]
    exact (s.counting_copy f).bind fun _ => (Stmt.counting_copyAll f ss).bind fun _ => .pure

end

theorem Block.growing_duplicate (b : Block) (c : LinkContext) (f : Fidelity) : Growing (b.duplicate c f) := by
  intro s r h
  obtain ⟨t, s₁, hs, h⟩ := state_bind_ok h
  cases hs
  obtain ⟨_, s₂, hs, h⟩ := state_bind_ok h
  cases hs
  obtain ⟨_, s₃, names, h⟩ := state_bind_ok h
  have copied : s.Grows ⟨s.symbols.addLocals ((b.copy f).run s.next).1.locals, ((b.copy f).run s.next).2⟩ :=
    ⟨Symbols.addLocals_within _, b.counting_copy f s.next⟩
  exact copied.trans ((Growing.lift _ _ names).trans (Block.growing_link _ c _ _ h))

section Traverse

variable {f : Stmt → Expr → StateM Nat Expr} {g : Stmt → AnnTy → StateM Nat AnnTy}

mutual

theorem Stmt.counting_traverse (hf : ∀ s e, Counting (f s e)) (hg : ∀ s t, Counting (g s t)) :
    ∀ s : Stmt, Counting (s.traverse f g)
  | .ifThen i c t none => by
    simp only [Stmt.traverse]
    exact (hf _ _).bind fun _ => (t.counting_traverse hf hg).bind fun _ => .pure
  | .ifThen i c t (some e) => by
    simp only [Stmt.traverse]
    exact (hf _ _).bind fun _ => (t.counting_traverse hf hg).bind fun _ => (e.counting_traverse hf hg).bind fun _ => .pure
  | .whileLoop i c b => by
    simp only [Stmt.traverse]
    exact (hf _ _).bind fun _ => (b.counting_traverse hf hg).bind fun _ => .pure
  | .doWhile i b c => by
    simp only [Stmt.traverse]
    exact (b.counting_traverse hf hg).bind fun _ => (hf _ _).bind fun _ => .pure
  | .forLoop i none c none b => by
    simp only [Stmt.traverse]
    exact Counting.pure.bind fun _ => (hf _ _).bind fun _ => Counting.pure.bind fun _ =>
      (b.counting_traverse hf hg).bind fun _ => .pure
  | .forLoop i none c (some u) b => by
    simp only [Stmt.traverse]
    exact Counting.pure.bind fun _ => (hf _ _).bind fun _ =>
      ((u.counting_traverse hf hg).bind fun _ => .pure).bind fun _ => (b.counting_traverse hf hg).bind fun _ => .pure
  | .forLoop i (some s) c none b => by
    simp only [Stmt.traverse]
    exact ((s.counting_traverse hf hg).bind fun _ => .pure).bind fun _ => (hf _ _).bind fun _ =>
      Counting.pure.bind fun _ => (b.counting_traverse hf hg).bind fun _ => .pure
  | .forLoop i (some s) c (some u) b => by
    simp only [Stmt.traverse]
    exact ((s.counting_traverse hf hg).bind fun _ => .pure).bind fun _ => (hf _ _).bind fun _ =>
      ((u.counting_traverse hf hg).bind fun _ => .pure).bind fun _ => (b.counting_traverse hf hg).bind fun _ => .pure
  | .ret i none => by
    simp only [Stmt.traverse]
    exact .pure
  | .ret i (some e) | .eval i e | .require i e => by
    simp only [Stmt.traverse]
    exact (hf _ _).bind fun _ => .pure
  | .assign i l r o b => by
    simp only [Stmt.traverse]
    exact (hf _ _).bind fun _ => (hf _ _).bind fun _ => .pure
  | .declare i v none => by
    simp only [Stmt.traverse]
    exact (hg _ _).bind fun _ => .pure
  | .declare i v (some e) => by
    simp only [Stmt.traverse]
    exact (hg _ _).bind fun _ => (hf _ _).bind fun _ => .pure
  | .block b => by
    simp only [Stmt.traverse]
    exact (b.counting_traverse hf hg).bind fun _ => .pure
  | .seq i ss x => by
    simp only [Stmt.traverse]
    exact (Stmt.counting_traverseAll hf hg ss).bind fun _ => .pure
  | .breakLoop _ | .continueLoop _ | .compute .. | .enterKey .. | .comment _ | .blank => by
    simp only [Stmt.traverse]
    exact .pure

theorem Block.counting_traverse (hf : ∀ s e, Counting (f s e)) (hg : ∀ s t, Counting (g s t)) :
    ∀ b : Block, Counting (b.traverse f g)
  | ⟨i, ss, b⟩ => by
    simp only [Block.traverse]
    exact (Stmt.counting_traverseAll hf hg ss).bind fun _ => .pure

theorem Stmt.counting_traverseAll (hf : ∀ s e, Counting (f s e)) (hg : ∀ s t, Counting (g s t)) :
    ∀ ss : List Stmt, Counting (Stmt.traverseAll f g ss)
  | [] => by
    simp only [Stmt.traverseAll]
    exact .pure
  | s :: ss => by
    simp only [Stmt.traverseAll]
    exact (s.counting_traverse hf hg).bind fun _ => (Stmt.counting_traverseAll hf hg ss).bind fun _ => .pure

end

end Traverse

theorem Block.counting_renumber (b : Block) : Counting b.renumber :=
  b.counting_traverse (fun _ e => e.counting_renumber) fun _ _ => .pure

end Shroud
