import Mathlib.Data.List.Nodup
import Mathlib.Data.List.Perm.Subperm
import Shroud.Proofs.CallGraph
import Shroud.Proofs.Evaluation

/-!
# Accesses are accounted for

After the accesses were marked, every statement names all locations that its own code accesses, everything that its parts
name, and the state that the functions it calls access.

**Rounds.** A round only adds locations, and no location that was not named from the beginning. So after a bounded number
of rounds nothing is learnt any more, however the functions call each other (`SourceUnit.ends_of_rising`). What a
function was known to access in the last round is then all that it accesses.

**Results.**

* `SourceUnit.markAccesses_accounted`: functions are marked with everything that they and the functions they call access.
* `SourceUnit.markAccesses_ends`: the rounds end when nothing is learnt, and another one would change nothing.
-/

namespace Shroud

/-! ## Sets of locations -/

namespace Loc

variable {xs ys : List Loc} {l : Loc}

theorem union_eq_append (xs ys : List Loc) :
    ∃ zs, union xs ys = xs ++ zs ∧ (∀ l, l ∈ xs ++ zs ↔ l ∈ xs ∨ l ∈ ys) ∧ (xs.Nodup → (xs ++ zs).Nodup) := by
  induction ys generalizing xs with
  | nil => exact ⟨[], by simp [union], by simp, by simp⟩
  | cons y ys ih =>
    by_cases hy : y ∈ xs
    · obtain ⟨zs, eq, mem, nodup⟩ := ih xs
      refine ⟨zs, ?_, fun l => ?_, nodup⟩
      · rw [← eq, union, List.foldl_cons, if_pos (List.contains_iff_mem.mpr hy), union]
      · rw [mem, List.mem_cons]
        grind
    · obtain ⟨zs, eq, mem, nodup⟩ := ih (xs ++ [y])
      refine ⟨y :: zs, ?_, fun l => ?_, fun h => ?_⟩
      · rw [List.append_cons, ← eq, union, List.foldl_cons, if_neg (mt List.contains_iff_mem.mp hy), union]
      · rw [List.append_cons, mem]
        simp [or_assoc]
      · rw [List.append_cons]
        exact nodup (List.nodup_append.mpr ⟨h, List.nodup_singleton y, by grind⟩)

theorem mem_union : l ∈ union xs ys ↔ l ∈ xs ∨ l ∈ ys := by
  obtain ⟨zs, eq, mem, -⟩ := union_eq_append xs ys
  rw [eq]
  exact mem l

theorem prefix_union (xs ys : List Loc) : xs <+: union xs ys := by
  obtain ⟨zs, eq, -, -⟩ := union_eq_append xs ys
  exact ⟨zs, eq.symm⟩

theorem union_of_subset (h : ys ⊆ xs) : union xs ys = xs := by
  induction ys with
  | nil => rfl
  | cons y ys ih =>
    obtain ⟨here, rest⟩ := List.cons_subset.mp h
    rw [union, List.foldl_cons, if_pos (List.contains_iff_mem.mpr here)]
    exact ih rest

theorem union_nodup (h : xs.Nodup) : (union xs ys).Nodup := by
  obtain ⟨zs, eq, -, nodup⟩ := union_eq_append xs ys
  rw [eq]
  exact nodup h

end Loc

namespace Access

/-- All accesses of the first are accesses of the second. -/
structure Within (a b : Access) : Prop where
  writes : a.writes ⊆ b.writes
  reads : a.reads ⊆ b.reads

/-- No access is listed twice. -/
structure Nodup (a : Access) : Prop where
  writes : a.writes.Nodup
  reads : a.reads.Nodup

variable {a b c : Access}

theorem Within.refl (a : Access) : a.Within a := ⟨List.Subset.refl _, List.Subset.refl _⟩

theorem Within.trans (h : a.Within b) (h' : b.Within c) : a.Within c :=
  ⟨List.Subset.trans h.writes h'.writes, List.Subset.trans h.reads h'.reads⟩

theorem empty_within (a : Access) : empty.Within a := ⟨List.nil_subset _, List.nil_subset _⟩

theorem within_add_left (a b : Access) : a.Within (a.add b) :=
  ⟨fun _ h => Loc.mem_union.mpr (.inl h), fun _ h => Loc.mem_union.mpr (.inl h)⟩

theorem within_add_right (a b : Access) : b.Within (a.add b) :=
  ⟨fun _ h => Loc.mem_union.mpr (.inr h), fun _ h => Loc.mem_union.mpr (.inr h)⟩

theorem add_within (ha : a.Within c) (hb : b.Within c) : (a.add b).Within c :=
  ⟨fun _ h => (Loc.mem_union.mp h).elim (@ha.writes _) (@hb.writes _),
    fun _ h => (Loc.mem_union.mp h).elim (@ha.reads _) (@hb.reads _)⟩

theorem add_nodup (h : a.Nodup) : (a.add b).Nodup := ⟨Loc.union_nodup h.writes, Loc.union_nodup h.reads⟩

theorem empty_nodup : empty.Nodup := ⟨List.nodup_nil, List.nodup_nil⟩

section All

variable {parts : List Access}

theorem within_all (h : a ∈ parts) : a.Within (all parts) := by
  have later (ps : List Access) : ∀ a b : Access, a.Within b → a.Within (ps.foldl add b) := by
    induction ps with
    | nil => exact fun _ _ h => h
    | cons p ps ih => exact fun a b h => ih a (b.add p) (h.trans (within_add_left b p))
  have among (ps : List Access) : ∀ b : Access, ∀ a ∈ ps, a.Within (ps.foldl add b) := by
    induction ps with
    | nil => exact fun _ _ h => nomatch h
    | cons p ps ih =>
      intro b a h
      rcases List.mem_cons.mp h with rfl | h
      · exact later ps a (b.add a) (within_add_right b a)
      · exact ih (b.add p) a h
  exact among parts empty a h

theorem all_within (h : ∀ a ∈ parts, a.Within c) : (all parts).Within c := by
  have grown (ps : List Access) : ∀ b : Access, b.Within c → (∀ a ∈ ps, a.Within c) → (ps.foldl add b).Within c := by
    induction ps with
    | nil => exact fun _ h _ => h
    | cons p ps ih =>
      intro b hb hs
      rw [List.forall_mem_cons] at hs
      exact ih (b.add p) (add_within hb hs.1) hs.2
  exact grown parts empty (empty_within c) h

theorem all_nodup (parts : List Access) : (all parts).Nodup := by
  have grown (ps : List Access) : ∀ b : Access, b.Nodup → (ps.foldl add b).Nodup := by
    induction ps with
    | nil => exact fun _ h => h
    | cons p ps ih => exact fun b h => ih (b.add p) (add_nodup h)
  exact grown parts empty empty_nodup

end All

/-- Accesses that a statement is marked with do not mark it again. -/
theorem mark_of_within {i : StmtInfo} (h : a.Within (ofInfo i)) : a.mark i = i := by
  unfold mark add
  rw [Loc.union_of_subset h.writes, Loc.union_of_subset h.reads]
  rfl

end Access

/-! ## Statements that account for their parts -/

/-- The statement is marked with the accesses of all these parts. -/
def StmtInfo.Names (i : StmtInfo) (parts : List Access) : Prop := ∀ a ∈ parts, a.Within (.ofInfo i)

/-- The accesses of an optional statement. -/
def Stmt.access? (s : Option Stmt) : Access := (s.map Stmt.access).getD .empty

section Covered

/- What is to be accounted for by an expression; the first argument tells whether it is assigned to. -/
variable (part : Bool → Expr → Access)

mutual

/-- Every statement accounts for its expressions and for the statements below it. -/
def Stmt.Covered : Stmt → Prop
  | .ifThen i c t none => i.Names [part false c, .ofInfo t.info] ∧ t.Covered
  | .ifThen i c t (some e) =>
    i.Names [part false c, .ofInfo t.info, .ofInfo e.info] ∧ t.Covered ∧ e.Covered
  | .whileLoop i c b => i.Names [part false c, .ofInfo b.info] ∧ b.Covered
  | .doWhile i b c => i.Names [.ofInfo b.info, part false c] ∧ b.Covered
  | .forLoop i a c u b =>
    i.Names [Stmt.access? a, part false c, Stmt.access? u, .ofInfo b.info] ∧
      (match a with
        | none => True
        | some a => a.Covered) ∧
      (match u with
        | none => True
        | some u => u.Covered) ∧ b.Covered
  | .ret i (some e) => i.Names [part false e]
  | .eval i e => i.Names [part false e]
  | .require i e => i.Names [part false e]
  | .assign i l r _ _ => i.Names [part true l, part false r]
  | .declare i _ (some e) => i.Names [part false e]
  | .block b => b.Covered
  | .seq i ss _ => i.Names (ss.map Stmt.access) ∧ Stmt.CoveredAll ss
  | _ => True

def Block.Covered : Block → Prop
  | ⟨i, ss, _⟩ => i.Names (ss.map Stmt.access) ∧ Stmt.CoveredAll ss

def Stmt.CoveredAll : List Stmt → Prop
  | [] => True
  | s :: ss => s.Covered ∧ Stmt.CoveredAll ss

end

end Covered

theorem Stmt.covered_forLoop {part : Bool → Expr → Access} {i : StmtInfo} {a u : Option Stmt} {c : Expr} {b : Block} :
    (Stmt.forLoop i a c u b).Covered part ↔
      i.Names [Stmt.access? a, part false c, Stmt.access? u, .ofInfo b.info] ∧
        (∀ s ∈ a, s.Covered part) ∧ (∀ s ∈ u, s.Covered part) ∧ b.Covered part := by
  cases a <;> cases u <;> simp [Stmt.Covered]

/-- What the code of an expression accesses itself. -/
def Expr.ownAccess (written : Bool) (e : Expr) : Access :=
  if written then ⟨e.assignees.filterMap Expr.loc?, e.reads true⟩ else e.access

/-! ### Accesses of their own code -/

namespace Access

variable {a : Access} {parts : List Access} {i : StmtInfo}

theorem remark_names : ((all parts).remark i).Names parts := fun _ h => within_all h

theorem within_mark (h : a ∈ parts) : a.Within (.ofInfo ((all parts).mark i)) :=
  (within_all h).trans (within_add_right _ _)

end Access

theorem Expr.assigned_single {site : Site} {e : Expr} (plain : ∀ i es, e ≠ .tuple i es) {found : List Loc} :
    Delivers (fun r => found ⊆ r ∧ e.assignees.filterMap Expr.loc? ⊆ r) (e.assigned site found) := by
  have one : e.assignees = [e] := by
    unfold Expr.assignees
    split
    · rename_i i es
      exact absurd rfl (plain i es)
    · rfl
  intro r hr
  rw [one]
  unfold Expr.assigned at hr
  split at hr
  · rename_i i es
    exact absurd rfl (plain i es)
  · split at hr
    · rename_i hl
      cases hr
      exact ⟨List.Subset.refl _, by simp [hl]⟩
    · rename_i l hl
      split at hr
      · cases hr
      · cases hr
        exact ⟨List.subset_append_left _ _, by simp [hl]⟩

/-- The places of an assignment are all found. -/
theorem Expr.assigned_assignees {site : Site} (e : Expr) : ∀ {found : List Loc},
    Delivers (fun r => found ⊆ r ∧ e.assignees.filterMap Expr.loc? ⊆ r) (e.assigned site found) := by
  induction e using Expr.inductOn with
  | tuple i es ih =>
    intro found
    unfold Expr.assigned Expr.assignees
    induction es generalizing found with
    | nil => exact .ok ⟨List.Subset.refl _, List.nil_subset _⟩
    | cons e es ihs =>
      rw [List.forall_mem_cons] at ih
      unfold Expr.assigned.assignedAll Expr.assignees.assigneesAll
      refine ih.1.bind fun r hr => ?_
      intro r' hr'
      obtain ⟨kept, rest⟩ := ihs ih.2 r' hr'
      refine ⟨List.Subset.trans hr.1 kept, ?_⟩
      rw [List.filterMap_append]
      exact List.append_subset.mpr ⟨List.Subset.trans hr.2 kept, rest⟩
  | leaf e he =>
    refine Expr.assigned_single ?_
    rintro i es rfl
    cases he
  | call | new | cast | arrayLit | member | index | reclassify =>
    exact Expr.assigned_single (by rintro _ _ ⟨⟩)

theorem Stmt.markOwn_covered (site : Site) (s : Stmt) :
    Delivers (Stmt.Covered Expr.ownAccess) (s.markOwn site) := by
  have all (ss : List Stmt) (ih : ∀ s ∈ ss, Delivers (Stmt.Covered Expr.ownAccess) (s.markOwn site)) :
      Delivers (Stmt.CoveredAll Expr.ownAccess) (Stmt.markOwnAll site ss) := by
    induction ss with
    | nil => exact .ok trivial
    | cons s ss hss =>
      exact (ih s List.mem_cons_self).bind fun s' h =>
        (hss fun t ht => ih t (List.mem_cons_of_mem _ ht)).bind fun ss' hs => .ok ⟨h, hs⟩
  have body : ∀ b : Block, (∀ s ∈ b.stmts, Delivers (Stmt.Covered Expr.ownAccess) (s.markOwn site)) →
      Delivers (Block.Covered Expr.ownAccess) (b.markOwn site) := by
    rintro ⟨_, ss, _⟩ ih
    exact (all ss ih).bind fun ss' h => .ok ⟨Access.remark_names, h⟩
  induction s using Stmt.inductOn with
  | ifThen i c t e ht he =>
    cases e with
    | none => exact (body t ht).bind fun t' h => .ok ⟨Access.remark_names, h⟩
    | some e =>
      exact (body t ht).bind fun t' h => (body e (he e rfl)).bind fun e' h' => .ok ⟨Access.remark_names, h, h'⟩
  | whileLoop i c b hb => exact (body b hb).bind fun b' h => .ok ⟨Access.remark_names, h⟩
  | doWhile i b c hb => exact (body b hb).bind fun b' h => .ok ⟨Access.remark_names, h⟩
  | forLoop i a c u b ha hu hb =>
    unfold Stmt.markOwn
    refine .bind (P := fun a' => ∀ a ∈ a', a.Covered Expr.ownAccess) ?_ fun a' ha' =>
      .bind (P := fun u' => ∀ u ∈ u', u.Covered Expr.ownAccess) ?_ fun u' hu' =>
        (body b hb).bind fun b' h => .ok (covered_forLoop.mpr ⟨Access.remark_names, ha', hu', h⟩)
    · cases a with
      | none => exact .ok (by rintro _ ⟨⟩)
      | some a => exact (ha a rfl).bind fun a' h => .ok (by rintro _ ⟨⟩; exact h)
    · cases u with
      | none => exact .ok (by rintro _ ⟨⟩)
      | some u => exact (hu u rfl).bind fun u' h => .ok (by rintro _ ⟨⟩; exact h)
  | block b hb => exact (body b hb).bind fun b' h => .ok h
  | seq i ss x hs => exact (all ss hs).bind fun ss' h => .ok ⟨Access.remark_names, h⟩
  | simple s hs =>
    cases s with
    | ret i e =>
      cases e with
      | none => exact .ok trivial
      | some e => exact .ok (List.forall_mem_singleton.mpr (.refl _))
    | eval i e => exact .ok (List.forall_mem_singleton.mpr (.refl _))
    | require i e => exact .ok (List.forall_mem_singleton.mpr (.refl _))
    | assign i l r o x =>
      refine (l.assigned_assignees).bind fun writes h => .ok ?_
      refine List.forall_mem_cons.mpr ⟨⟨h.2, fun k hk => ?_⟩, List.forall_mem_singleton.mpr ⟨List.nil_subset _, fun k hk => ?_⟩⟩
      · exact Loc.mem_union.mpr (.inl (Loc.mem_union.mpr (.inr hk)))
      · exact Loc.mem_union.mpr (.inr ((Loc.mem_union.mp hk).resolve_left List.not_mem_nil))
    | declare i v e =>
      cases e with
      | none => exact .ok trivial
      | some e => exact .ok (List.forall_mem_singleton.mpr (Access.within_all (by simp [Expr.ownAccess])))
    | breakLoop | continueLoop | compute | enterKey | comment | blank => exact .ok trivial
    | ifThen | whileLoop | doWhile | forLoop | block | seq => cases hs

/-! ### Accesses of the functions they call -/

mutual

/-- The functions that are called are those to which certain expressions lead. -/
theorem Ty.callees_eq : ∀ t : Ty, ∃ fs : List Expr, ∀ s : Symbols, t.callees s = fs.filterMap s.callee?
  | .mapping i k l v => by
    obtain ⟨fs, hf⟩ := Ty.callees_eq k
    obtain ⟨gs, hg⟩ := AnnTy.callees_eq v
    exact ⟨fs ++ gs, fun s => by rw [Ty.callees, hf, hg, List.filterMap_append]⟩
  | .array v none => by
    obtain ⟨fs, hf⟩ := AnnTy.callees_eq v
    exact ⟨fs, fun s => by rw [Ty.callees, hf]⟩
  | .array v (some n) => by
    obtain ⟨fs, hf⟩ := AnnTy.callees_eq v
    obtain ⟨gs, hg⟩ := Expr.callees_eq n
    exact ⟨fs ++ gs, fun s => by rw [Ty.callees, hf, hg, List.filterMap_append]⟩
  | .elementary _ | .bool | .boolLit _ | .number | .numLit _ | .integer _ _ | .named _ _ _ | .address _
  | .cipher _ _ | .publicKey _ | .randomness _ | .tuple _ | .function _ _ _ => ⟨[], fun _ => by simp [Ty.callees]⟩

theorem AnnTy.callees_eq : ∀ t : AnnTy, ∃ fs : List Expr, ∀ s : Symbols, t.callees s = fs.filterMap s.callee?
  | ⟨t, p, h, a, d⟩ => by
    obtain ⟨fs, hf⟩ := Ty.callees_eq t
    obtain ⟨gs, hg⟩ := Expr.callees_eq p
    exact ⟨fs ++ gs, fun s => by rw [AnnTy.callees, hf, hg, List.filterMap_append]⟩

theorem Info.callees_eq : ∀ i : Info, ∃ fs : List Expr, ∀ s : Symbols, i.typeCallees s = fs.filterMap s.callee?
  | ⟨_, _, some t, _, _⟩ => by
    obtain ⟨fs, hf⟩ := AnnTy.callees_eq t
    exact ⟨fs, fun s => by rw [Info.typeCallees, hf]⟩
  | ⟨_, _, none, _, _⟩ => ⟨[], fun _ => by simp [Info.typeCallees]⟩

theorem Expr.callees_eq : ∀ e : Expr, ∃ fs : List Expr, ∀ s : Symbols, e.callees s = fs.filterMap s.callee?
  | .call i f as o k => by
    obtain ⟨fs, hf⟩ := Expr.callees_eq f
    obtain ⟨gs, hg⟩ := Expr.calleesAll_eq as
    refine ⟨fs ++ gs ++ if (Expr.call i f as o k).isCastCall then [] else [f], fun s => ?_⟩
    rw [Expr.callees, hf, hg, List.filterMap_append, List.filterMap_append]
    refine congrArg _ ?_
    split
    · rfl
    · cases hc : s.callee? f <;> simp [hc]
  | .new i as => by
    obtain ⟨fs, hf⟩ := Info.callees_eq i
    obtain ⟨gs, hg⟩ := Expr.calleesAll_eq as
    exact ⟨fs ++ gs, fun s => by rw [Expr.callees, hf, hg, List.filterMap_append]⟩
  | .cast _ t e _ => by
    obtain ⟨fs, hf⟩ := Ty.callees_eq t
    obtain ⟨gs, hg⟩ := Expr.callees_eq e
    exact ⟨fs ++ gs, fun s => by rw [Expr.callees, hf, hg, List.filterMap_append]⟩
  | .arrayLit _ vs _ => by
    obtain ⟨fs, hf⟩ := Expr.calleesAll_eq vs
    exact ⟨fs, fun s => by rw [Expr.callees, hf]⟩
  | .tuple _ es => by
    obtain ⟨fs, hf⟩ := Expr.calleesAll_eq es
    exact ⟨fs, fun s => by rw [Expr.callees, hf]⟩
  | .member _ b _ _ => by
    obtain ⟨fs, hf⟩ := Expr.callees_eq b
    exact ⟨fs, fun s => by rw [Expr.callees, hf]⟩
  | .index _ b k _ => by
    obtain ⟨fs, hf⟩ := Expr.callees_eq b
    obtain ⟨gs, hg⟩ := Expr.callees_eq k
    exact ⟨fs ++ gs, fun s => by rw [Expr.callees, hf, hg, List.filterMap_append]⟩
  | .reclassify _ _ e p _ => by
    obtain ⟨fs, hf⟩ := Expr.callees_eq e
    obtain ⟨gs, hg⟩ := Expr.callees_eq p
    exact ⟨fs ++ gs, fun s => by rw [Expr.callees, hf, hg, List.filterMap_append]⟩
  | .operator .. | .boolLit .. | .numLit .. | .ident .. | .me _ | .all _ => ⟨[], fun _ => by simp [Expr.callees]⟩

theorem Expr.calleesAll_eq : ∀ es : List Expr, ∃ fs : List Expr, ∀ s : Symbols,
    Expr.calleesAll s es = fs.filterMap s.callee?
  | [] => ⟨[], fun _ => by simp [Expr.calleesAll]⟩
  | e :: es => by
    obtain ⟨fs, hf⟩ := Expr.callees_eq e
    obtain ⟨gs, hg⟩ := Expr.calleesAll_eq es
    exact ⟨fs ++ gs, fun s => by rw [Expr.calleesAll, hf, hg, List.filterMap_append]⟩

end

/-- What a call of the function accesses for its caller. -/
def FunctionDef.stateAccess (f : FunctionDef) : Access := ⟨f.stateWrites, f.stateReads⟩

/-- All accesses of the function. -/
def FunctionDef.access (f : FunctionDef) : Access := ⟨f.facts.writes, f.facts.reads⟩

theorem FunctionDef.stateAccess_within (f : FunctionDef) : f.stateAccess.Within f.access := by
  constructor
  · show f.stateWrites ⊆ f.facts.writes
    unfold stateWrites
    split
    · exact List.filter_subset_self _
    · exact List.nil_subset _
  · exact List.filter_subset_self _

theorem FunctionDef.stateAccess_mono {f g : FunctionDef} (modifiers : g.modifiers = f.modifiers)
    (h : f.access.Within g.access) : f.stateAccess.Within g.stateAccess := by
  have effects : g.hasSideEffects = f.hasSideEffects := by
    unfold hasSideEffects
    rw [modifiers]
  constructor
  · show f.stateWrites ⊆ g.stateWrites
    unfold stateWrites
    rw [effects]
    split
    · exact List.filter_subset _ h.writes
    · exact List.Subset.refl _
  · exact List.filter_subset _ h.reads

namespace Access

variable {fs : List FunctionDef}

theorem mem_ofCallees_writes {l : Loc} : l ∈ (ofCallees fs).writes ↔ ∃ f ∈ fs, l ∈ f.stateWrites := by
  simp [ofCallees, Loc.mem_union]

theorem mem_ofCallees_reads {l : Loc} : l ∈ (ofCallees fs).reads ↔ ∃ f ∈ fs, l ∈ f.stateReads := by
  simp [ofCallees, Loc.mem_union]

theorem ofCallees_within {a : Access} (h : ∀ f ∈ fs, f.stateAccess.Within a) : (ofCallees fs).Within a := by
  constructor
  · intro l hl
    obtain ⟨f, hf, hl⟩ := mem_ofCallees_writes.mp hl
    exact (h f hf).writes hl
  · intro l hl
    obtain ⟨f, hf, hl⟩ := mem_ofCallees_reads.mp hl
    exact (h f hf).reads hl

theorem within_ofCallees {f : FunctionDef} (h : f ∈ fs) : f.stateAccess.Within (ofCallees fs) :=
  ⟨fun _ hl => mem_ofCallees_writes.mpr ⟨f, h, hl⟩, fun _ hl => mem_ofCallees_reads.mpr ⟨f, h, hl⟩⟩

end Access

/-- If every function that is found accesses no more than this, neither do the functions that are called. -/
theorem Expr.calledAccess_within {symbols : Symbols} {a : Access}
    (h : ∀ f g, symbols.callee? f = some g → g.stateAccess.Within a) (e : Expr) :
    (e.calledAccess symbols).Within a := by
  obtain ⟨fs, hf⟩ := e.callees_eq
  refine Access.ofCallees_within fun g hg => ?_
  rw [hf, List.mem_filterMap] at hg
  obtain ⟨f, -, found⟩ := hg
  exact h f g found

/-- What the first table knows of the functions that are called is known to the second one. -/
def Symbols.KnownTo (s t : Symbols) : Prop :=
  ∀ f g, s.callee? f = some g → g.stateAccess.Within .empty ∨
    ∃ k, t.callee? f = some k ∧ g.stateAccess.Within k.stateAccess

theorem Access.ofCallees_mono {s t : Symbols} (h : s.KnownTo t) (fs : List Expr) :
    (ofCallees (fs.filterMap s.callee?)).Within (ofCallees (fs.filterMap t.callee?)) := by
  refine Access.ofCallees_within fun g hg => ?_
  obtain ⟨f, mem, found⟩ := List.mem_filterMap.mp hg
  rcases h f g found with none | ⟨k, found, better⟩
  · exact none.trans (Access.empty_within _)
  · exact better.trans (Access.within_ofCallees (List.mem_filterMap.mpr ⟨f, mem, found⟩))

/-- What is known of the functions that are called may be replaced by what is known better. -/
theorem Expr.calledAccess_mono {s t : Symbols} (h : s.KnownTo t) (e : Expr) :
    (e.calledAccess s).Within (e.calledAccess t) := by
  obtain ⟨fs, hf⟩ := e.callees_eq
  rw [calledAccess, calledAccess, hf, hf]
  exact Access.ofCallees_mono h fs

theorem AnnTy.calledAccess_mono {s t : Symbols} (h : s.KnownTo t) (ty : AnnTy) :
    (ty.calledAccess s).Within (ty.calledAccess t) := by
  obtain ⟨fs, hf⟩ := ty.callees_eq
  rw [calledAccess, calledAccess, hf, hf]
  exact Access.ofCallees_mono h fs

section MarkCalled

variable {symbols : Symbols} {part new : Bool → Expr → Access}

/-- Afterwards the statement also names what the functions it calls access. -/
theorem Stmt.markCalled_covered (hp : ∀ w e, (new w e).Within ((part w e).add (e.calledAccess symbols))) (s : Stmt)
    (h : s.Covered part) : (s.markCalled symbols).Covered new := by
  have expr {i : StmtInfo} {a : Access} {w : Bool} {c : Expr} (old : (part w c).Within (.ofInfo i))
      (called : (c.calledAccess symbols).Within a) : (new w c).Within (.ofInfo (a.mark i)) :=
    (hp w c).trans (Access.add_within (old.trans (Access.within_add_left _ _))
      (called.trans (Access.within_add_right _ _)))
  have all (ss : List Stmt) (ih : ∀ s ∈ ss, s.Covered part → (s.markCalled symbols).Covered new)
      (h : Stmt.CoveredAll part ss) : Stmt.CoveredAll new (Stmt.markCalledAll symbols ss) := by
    induction ss with
    | nil => trivial
    | cons s ss hss =>
      rw [List.forall_mem_cons] at ih
      exact ⟨ih.1 h.1, hss ih.2 h.2⟩
  have body : ∀ b : Block, (∀ s ∈ b.stmts, s.Covered part → (s.markCalled symbols).Covered new) →
      b.Covered part → (b.markCalled symbols).Covered new := by
    rintro ⟨_, ss, _⟩ ih h
    exact ⟨fun _ ha => Access.within_mark ha, all ss ih h.2⟩
  induction s using Stmt.inductOn with
  | ifThen i c t e ht he =>
    cases e with
    | none =>
      obtain ⟨names, h⟩ := h
      rw [StmtInfo.Names, List.forall_mem_cons] at names
      exact ⟨List.forall_mem_cons.mpr ⟨expr names.1 (Access.within_all List.mem_cons_self),
        fun a ha => Access.within_mark (List.mem_cons_of_mem _ ha)⟩, body t ht h⟩
    | some e =>
      obtain ⟨names, h, h'⟩ := h
      rw [StmtInfo.Names, List.forall_mem_cons] at names
      exact ⟨List.forall_mem_cons.mpr ⟨expr names.1 (Access.within_all List.mem_cons_self),
        fun a ha => Access.within_mark (List.mem_cons_of_mem _ ha)⟩, body t ht h, body e (he e rfl) h'⟩
  | whileLoop i c b hb =>
    obtain ⟨names, h⟩ := h
    rw [StmtInfo.Names, List.forall_mem_cons] at names
    exact ⟨List.forall_mem_cons.mpr ⟨expr names.1 (Access.within_all List.mem_cons_self),
      fun a ha => Access.within_mark (List.mem_cons_of_mem _ ha)⟩, body b hb h⟩
  | doWhile i b c hb =>
    obtain ⟨names, h⟩ := h
    rw [StmtInfo.Names, List.forall_mem_cons, List.forall_mem_singleton] at names
    exact ⟨List.forall_mem_cons.mpr ⟨Access.within_mark List.mem_cons_self, List.forall_mem_singleton.mpr
      (expr names.2 (Access.within_all (List.mem_cons_of_mem _ (List.mem_singleton.mpr rfl))))⟩, body b hb h⟩
  | forLoop i a c u b ha hu hb =>
    obtain ⟨names, ha', hu', h⟩ := covered_forLoop.mp h
    simp only [StmtInfo.Names, List.forall_mem_cons] at names
    unfold Stmt.markCalled
    refine covered_forLoop.mpr ⟨?_, ?_, ?_, body b hb h⟩
    · intro p hp
      rcases List.mem_cons.mp hp with rfl | hp
      · exact Access.within_mark List.mem_cons_self
      rcases List.mem_cons.mp hp with rfl | hp
      · exact expr names.2.1 (Access.within_all (List.mem_cons_of_mem _ List.mem_cons_self))
      · exact Access.within_mark (List.mem_cons_of_mem _ (List.mem_cons_of_mem _ hp))
    · cases a with
      | none => rintro _ ⟨⟩
      | some a =>
        rintro _ ⟨⟩
        exact ha a rfl (ha' a rfl)
    · cases u with
      | none => rintro _ ⟨⟩
      | some u =>
        rintro _ ⟨⟩
        exact hu u rfl (hu' u rfl)
  | block b hb => exact body b hb h
  | seq i ss x hs => exact ⟨fun _ ha => Access.within_mark ha, all ss hs h.2⟩
  | simple s hs =>
    cases s with
    | ret i e =>
      cases e with
      | none => trivial
      | some e => exact List.forall_mem_singleton.mpr (expr (h _ List.mem_cons_self) (.refl _))
    | eval i e => exact List.forall_mem_singleton.mpr (expr (h _ List.mem_cons_self) (.refl _))
    | require i e => exact List.forall_mem_singleton.mpr (expr (h _ List.mem_cons_self) (.refl _))
    | assign i l r o x =>
      obtain ⟨left, right⟩ := List.forall_mem_cons.mp h
      exact List.forall_mem_cons.mpr ⟨expr left (Access.within_all List.mem_cons_self), List.forall_mem_singleton.mpr
        (expr (right _ List.mem_cons_self) (Access.within_all (by simp)))⟩
    | declare i v e =>
      cases e with
      | none => trivial
      | some e =>
        exact List.forall_mem_singleton.mpr (expr (h _ List.mem_cons_self)
          (Access.within_all (by simp [Expr.calledAccess?])))
    | breakLoop | continueLoop | compute | enterKey | comment | blank => trivial
    | ifThen | whileLoop | doWhile | forLoop | block | seq => cases hs

/-- No location is named that was not named before, in the statement or as an access of a function. -/
theorem Stmt.markCalled_within {a : Access}
    (known : ∀ f g, symbols.callee? f = some g → g.stateAccess.Within a) (s : Stmt) (h : s.Covered part)
    (hs : s.access.Within a) : (s.markCalled symbols).access.Within a := by
  have called (e : Expr) : (e.calledAccess symbols).Within a := e.calledAccess_within known
  have called? (e : Option Expr) : (Expr.calledAccess? symbols e).Within a := by
    cases e with
    | none => exact Access.empty_within _
    | some e => exact called e
  have inside {i : StmtInfo} {parts : List Access} {p : Access} (names : i.Names parts)
      (hi : (Access.ofInfo i).Within a) (mem : p ∈ parts) : p.Within a := (names p mem).trans hi
  have all (ss : List Stmt) (ih : ∀ s ∈ ss, s.Covered part → s.access.Within a → (s.markCalled symbols).access.Within a)
      (h : Stmt.CoveredAll part ss) (hs : ∀ s ∈ ss, s.access.Within a) :
      ∀ p ∈ (Stmt.markCalledAll symbols ss).map Stmt.access, p.Within a := by
    induction ss with
    | nil => exact List.forall_mem_nil _
    | cons s ss hss =>
      rw [List.forall_mem_cons] at ih hs
      exact List.forall_mem_cons.mpr ⟨ih.1 h.1 hs.1, hss ih.2 h.2 hs.2⟩
  have body : ∀ b : Block, (∀ s ∈ b.stmts, s.Covered part → s.access.Within a → (s.markCalled symbols).access.Within a) →
      b.Covered part → (Access.ofInfo b.info).Within a → (Access.ofInfo (b.markCalled symbols).info).Within a := by
    rintro ⟨_, ss, _⟩ ih h hs
    exact Access.add_within hs (Access.all_within (all ss ih h.2 fun _ ht => inside h.1 hs (List.mem_map_of_mem ht)))
  induction s using Stmt.inductOn with
  | ifThen i c t e ht he =>
    cases e with
    | none =>
      exact Access.add_within hs (Access.all_within (List.forall_mem_cons.mpr ⟨called c, List.forall_mem_singleton.mpr
        (body t ht h.2 (inside h.1 hs (by simp)))⟩))
    | some e =>
      exact Access.add_within hs (Access.all_within (List.forall_mem_cons.mpr ⟨called c, List.forall_mem_cons.mpr
        ⟨body t ht h.2.1 (inside h.1 hs (by simp)), List.forall_mem_singleton.mpr
          (body e (he e rfl) h.2.2 (inside h.1 hs (by simp)))⟩⟩))
  | whileLoop i c b hb =>
    exact Access.add_within hs (Access.all_within (List.forall_mem_cons.mpr ⟨called c, List.forall_mem_singleton.mpr
      (body b hb h.2 (inside h.1 hs (by simp)))⟩))
  | doWhile i b c hb =>
    exact Access.add_within hs (Access.all_within (List.forall_mem_cons.mpr ⟨body b hb h.2 (inside h.1 hs (by simp)),
      List.forall_mem_singleton.mpr (called c)⟩))
  | forLoop i s c u b ha hu hb =>
    obtain ⟨names, ha', hu', h⟩ := covered_forLoop.mp h
    unfold Stmt.markCalled
    refine Access.add_within hs (Access.all_within (List.forall_mem_cons.mpr ⟨?_, List.forall_mem_cons.mpr ⟨called c,
      List.forall_mem_cons.mpr ⟨?_, List.forall_mem_singleton.mpr (body b hb h (inside names hs (by simp)))⟩⟩⟩))
    · cases s with
      | none => exact Access.empty_within _
      | some s => exact ha s rfl (ha' s rfl) (inside names hs (by simp [Stmt.access?]))
    · cases u with
      | none => exact Access.empty_within _
      | some u => exact hu u rfl (hu' u rfl) (inside names hs (by simp [Stmt.access?]))
  | block b hb => exact body b hb h hs
  | seq i ss x ih =>
    exact Access.add_within hs (Access.all_within (all ss ih h.2 fun _ ht => inside h.1 hs (List.mem_map_of_mem ht)))
  | simple s simple =>
    cases s with
    | ret i e => exact Access.add_within hs (called? e)
    | eval i e => exact Access.add_within hs (called e)
    | require i e => exact Access.add_within hs (called e)
    | assign i l r o x =>
      exact Access.add_within hs (Access.all_within (List.forall_mem_cons.mpr ⟨called l,
        List.forall_mem_singleton.mpr (called r)⟩))
    | declare i v e =>
      refine Access.add_within hs (Access.all_within (List.forall_mem_cons.mpr ⟨?_,
        List.forall_mem_singleton.mpr (called? e)⟩))
      obtain ⟨fs, hf⟩ := v.type.callees_eq
      refine Access.ofCallees_within fun g hg => ?_
      rw [hf, List.mem_filterMap] at hg
      obtain ⟨f, -, found⟩ := hg
      exact known f g found
    | breakLoop | continueLoop | compute | enterKey | comment | blank => exact hs
    | ifThen | whileLoop | doWhile | forLoop | block | seq => cases simple

end MarkCalled

section Settled

variable {s t : Symbols}

/-- Parts that were accounted for before do not mark a statement again. -/
theorem Access.mark_again {parts later : List Access} {i : StmtInfo} (h : List.Forall₂ Within later parts) :
    (all later).mark ((all parts).mark i) = (all parts).mark i := by
  refine mark_of_within (all_within fun a ha => ?_)
  obtain ⟨b, hb, within⟩ := exists_mem_of_forall₂_left h ha
  exact within.trans (within_mark hb)

theorem Stmt.markCalled_forLoop (i : StmtInfo) (a : Option Stmt) (c : Expr) (u : Option Stmt) (b : Block) :
    (Stmt.forLoop i a c u b).markCalled s = .forLoop ((Access.all [Stmt.access? (a.map (Stmt.markCalled s)),
        c.calledAccess s, Stmt.access? (u.map (Stmt.markCalled s)), .ofInfo (b.markCalled s).info]).mark i)
      (a.map (Stmt.markCalled s)) c (u.map (Stmt.markCalled s)) (b.markCalled s) := by
  cases a <;> cases u <;> rfl

/-- A statement that was marked by a table is not marked again by one that knows no more. -/
theorem Stmt.markCalled_settled (known : t.KnownTo s) (p : Stmt) :
    (p.markCalled s).markCalled t = p.markCalled s := by
  have expr (e : Expr) := e.calledAccess_mono known
  have expr? (e : Option Expr) : (Expr.calledAccess? t e).Within (Expr.calledAccess? s e) := by
    cases e with
    | none => exact .refl _
    | some e => exact expr e
  have all (ps : List Stmt) (ih : ∀ p ∈ ps, (p.markCalled s).markCalled t = p.markCalled s) :
      Stmt.markCalledAll t (Stmt.markCalledAll s ps) = Stmt.markCalledAll s ps := by
    induction ps with
    | nil => rfl
    | cons p ps iht =>
      rw [List.forall_mem_cons] at ih
      rw [markCalledAll, markCalledAll, ih.1, iht ih.2]
  have same (as : List Access) : List.Forall₂ Access.Within as as := List.forall₂_same.mpr fun a _ => .refl a
  have body : ∀ b : Block, (∀ p ∈ b.stmts, (p.markCalled s).markCalled t = p.markCalled s) →
      (b.markCalled s).markCalled t = b.markCalled s := by
    rintro ⟨i, ps, x⟩ ih
    simp only [Block.markCalled, all ps ih, Access.mark_again (same _)]
  induction p using Stmt.inductOn with
  | ifThen i c b e hb he =>
    cases e with
    | none =>
      simp only [markCalled, body b hb]
      rw [Access.mark_again (.cons (expr c) (same _))]
    | some e =>
      simp only [markCalled, body b hb, body e (he e rfl)]
      rw [Access.mark_again (.cons (expr c) (same _))]
  | whileLoop i c b hb =>
    simp only [markCalled, body b hb]
    rw [Access.mark_again (.cons (expr c) (same _))]
  | doWhile i b c hb =>
    simp only [markCalled, body b hb]
    rw [Access.mark_again (.cons (.refl _) (.cons (expr c) .nil))]
  | forLoop i a c u b ha hu hb =>
    have part (q : Option Stmt) (h : ∀ p, q = some p → (p.markCalled s).markCalled t = p.markCalled s) :
        (q.map (Stmt.markCalled s)).map (Stmt.markCalled t) = q.map (Stmt.markCalled s) := by
      cases q with
      | none => rfl
      | some p => exact congrArg some (h p rfl)
    rw [markCalled_forLoop, markCalled_forLoop, part a ha, part u hu, body b hb,
      Access.mark_again (.cons (.refl _) (.cons (expr c) (same _)))]
  | block b hb => exact congrArg Stmt.block (body b hb)
  | seq i ps x ih =>
    simp only [markCalled, all ps ih]
    rw [Access.mark_again (same _)]
  | simple p simple =>
    cases p with
    | ret i e =>
      simp only [markCalled]
      rw [Access.mark_of_within ((expr? e).trans (Access.within_add_right _ _))]
    | eval i e =>
      simp only [markCalled]
      rw [Access.mark_of_within ((expr e).trans (Access.within_add_right _ _))]
    | require i e =>
      simp only [markCalled]
      rw [Access.mark_of_within ((expr e).trans (Access.within_add_right _ _))]
    | assign i l r o x =>
      simp only [markCalled]
      rw [Access.mark_again (.cons (expr l) (.cons (expr r) .nil))]
    | declare i v e =>
      simp only [markCalled]
      rw [Access.mark_again (.cons (v.type.calledAccess_mono known) (.cons (expr? e) .nil))]
    | breakLoop | continueLoop | compute | enterKey | comment | blank => rfl
    | ifThen | whileLoop | doWhile | forLoop | block | seq => cases simple

end Settled

/-! ## Rounds -/

/-- The number of accesses. -/
def Access.count (a : Access) : Nat := a.writes.length + a.reads.length

/-- The body accounts for everything, and the function for the body. -/
structure FunctionDef.Accounted (symbols : Symbols) (f : FunctionDef) : Prop where
  own : f.body.Covered Expr.ownAccess
  called : f.body.Covered fun _ e => e.calledAccess symbols
  summary : f.access = .ofInfo f.body.info

/-- What holds of a function from round to round; `a` are the accesses that are named anywhere. -/
structure FunctionDef.Rising (a : Access) (f : FunctionDef) : Prop where
  own : f.body.Covered Expr.ownAccess
  summary : f.access = .ofInfo f.body.info
  nodup : f.access.Nodup
  within : f.access.Within a

theorem Builtin.methods_access {f : FunctionDef} (h : f ∈ Builtin.methods) : f.access = .empty := by
  simp only [Builtin.methods, List.mem_cons, List.not_mem_nil, or_false] at h
  rcases h with rfl | rfl <;> rfl

theorem Symbols.callee?_eq (f : Expr) : ∃ n : Option Nat, ∀ s : Symbols, s.callee? f = n.bind s.function? := by
  unfold callee?
  cases f.target? with
  | none => exact ⟨none, fun _ => rfl⟩
  | some r =>
    cases r with
    | decl _ i => exact ⟨some i, fun _ => rfl⟩
    | element | keyLabel => exact ⟨none, fun _ => rfl⟩

theorem Block.markOwn_nodup {site : Site} {b b' : Block} (h : b.markOwn site = .ok b') :
    (Access.ofInfo b'.info).Nodup := by
  obtain ⟨i, ss, x⟩ := b
  obtain ⟨ss', -, h⟩ := except_bind_ok h
  cases h
  exact Access.all_nodup _

theorem Block.ofInfo_markCalled (symbols : Symbols) : ∀ b : Block, ∃ parts : List Access,
    Access.ofInfo (b.markCalled symbols).info = (Access.ofInfo b.info).add (.all parts)
  | ⟨_, ss, _⟩ => ⟨(Stmt.markCalledAll symbols ss).map Stmt.access, rfl⟩

namespace FunctionDef

variable {a : Access} {f : FunctionDef} {symbols : Symbols}

theorem access_summarize (f : FunctionDef) (b : Block) : (f.summarize b).access = .ofInfo b.info := rfl

/-- A round adds to what the function is known to access. -/
theorem Rising.grows (h : f.Rising a) (symbols : Symbols) :
    f.facts.writes <+: (f.summarize (f.body.markCalled symbols)).facts.writes ∧
      f.facts.reads <+: (f.summarize (f.body.markCalled symbols)).facts.reads := by
  obtain ⟨parts, eq⟩ := f.body.ofInfo_markCalled symbols
  have old : f.access = .ofInfo f.body.info := h.summary
  have new := (f.access_summarize (f.body.markCalled symbols)).trans eq
  rw [← old] at new
  constructor
  · show f.access.writes <+: (f.summarize _).access.writes
    rw [new]
    exact Loc.prefix_union _ _
  · show f.access.reads <+: (f.summarize _).access.reads
    rw [new]
    exact Loc.prefix_union _ _

theorem Rising.round (h : f.Rising a) (known : ∀ e g, symbols.callee? e = some g → g.stateAccess.Within a) :
    (f.summarize (f.body.markCalled symbols)).Rising a := by
  obtain ⟨parts, eq⟩ := f.body.ofInfo_markCalled symbols
  refine ⟨Stmt.markCalled_covered (fun _ _ => Access.within_add_left _ _) (.block f.body) h.own, rfl, ?_, ?_⟩
  · rw [access_summarize, eq, ← h.summary]
    exact Access.add_nodup h.nodup
  · have within : (Stmt.block f.body).access.Within a := by
      show (Access.ofInfo f.body.info).Within a
      rw [← h.summary]
      exact h.within
    exact Stmt.markCalled_within known (.block f.body) h.own within

theorem Rising.count_le (h : f.Rising a) : f.access.count ≤ a.count :=
  Nat.add_le_add (List.subperm_of_subset h.nodup.writes h.within.writes).length_le
    (List.subperm_of_subset h.nodup.reads h.within.reads).length_le

end FunctionDef

namespace SourceUnit

variable {a : Access} {u v : SourceUnit}

/-- The table knows at least what is known of the functions of the program. -/
structure Informs (u : SourceUnit) (a : Access) (s : Symbols) : Prop where
  grown : ∀ i f, u.symbols.function? i = some f →
    ∃ g, s.function? i = some g ∧ f.stateAccess.Within g.stateAccess
  bounded : ∀ i g, s.function? i = some g → g.stateAccess.Within a

theorem informs_symbols (h : ∀ f ∈ u.allFunctions, f.Rising a) : u.Informs a u.symbols := by
  refine ⟨fun i f hf => ⟨f, hf, .refl _⟩, fun i g hg => g.stateAccess_within.trans ?_⟩
  rcases (function?_found hg).1 with own | builtin
  · exact (h g own).within
  · rw [Builtin.methods_access builtin]
    exact Access.empty_within a

theorem Informs.callee {s : Symbols} (h : u.Informs a s) :
    ∀ e g, s.callee? e = some g → g.stateAccess.Within a := by
  intro e g found
  obtain ⟨i, hi⟩ := Symbols.callee?_eq_some found
  exact h.bounded i g hi

theorem Informs.setFunction {s : Symbols} (h : u.Informs a s) (distinct : u.numbers.Nodup) {f g : FunctionDef}
    (hf : f ∈ u.allFunctions) (id : g.id = f.id) (more : f.stateAccess.Within g.stateAccess)
    (within : g.stateAccess.Within a) : u.Informs a (s.setFunction g) := by
  constructor
  · intro i k hk
    obtain ⟨l, hl, old⟩ := h.grown i k hk
    rw [Symbols.function?_setFunction]
    split
    · rename_i hi
      refine ⟨g, by rw [hl]; rfl, ?_⟩
      rw [hi, id, function?_own distinct hf] at hk
      cases hk
      exact more
    · exact ⟨l, hl, old⟩
  · intro i k hk
    rw [Symbols.function?_setFunction] at hk
    split at hk
    · obtain ⟨_, -, rfl⟩ := Option.map_eq_some_iff.mp hk
      exact within
    · exact h.bounded i k hk

/-- What becomes of a function in a round. -/
def Learns (u : SourceUnit) (a : Access) (f g : FunctionDef) : Prop :=
  f.Rising a ∧ ∃ s, u.Informs a s ∧ g = f.summarize (f.body.markCalled s)

theorem markCalledOnce_learns (distinct : u.numbers.Nodup) (h : ∀ f ∈ u.allFunctions, f.Rising a) :
    u.Pointwise (u.Learns a) u.markCalledOnce := by
  refine (mapFunctions_keeping (I := u.Informs a) (fun c hc f hf s hs => ?_) (informs_symbols h)).1
  have mem : f ∈ u.allFunctions := List.mem_flatMap.mpr ⟨c, hc, hf⟩
  have rising := (h f mem).round hs.callee
  refine ⟨⟨h f mem, s, hs, rfl⟩, hs.setFunction distinct mem rfl ?_ ?_⟩
  · have grows := (h f mem).grows s
    exact FunctionDef.stateAccess_mono rfl ⟨grows.1.subset, grows.2.subset⟩
  · exact (FunctionDef.stateAccess_within _).trans rising.within

theorem Learns.rising {f g : FunctionDef} (h : u.Learns a f g) : g.Rising a := by
  obtain ⟨rising, s, hs, rfl⟩ := h
  exact rising.round hs.callee

theorem Learns.count_le {f g : FunctionDef} (h : u.Learns a f g) : f.access.count ≤ g.access.count := by
  obtain ⟨rising, s, -, rfl⟩ := h
  have grows := rising.grows s
  exact Nat.add_le_add grows.1.length_le grows.2.length_le

theorem Learns.access_eq {f g : FunctionDef} (h : u.Learns a f g) (same : f.access.count = g.access.count) :
    g.access = f.access := by
  obtain ⟨rising, s, -, rfl⟩ := h
  have grows := rising.grows s
  have writes := grows.1.length_le
  have reads := grows.2.length_le
  unfold Access.count FunctionDef.access at same
  have hw := grows.1.eq_of_length (by simp only at same; omega)
  have hr := grows.2.eq_of_length (by simp only at same; omega)
  unfold FunctionDef.access
  rw [← hw, ← hr]

/-! ### Counting -/

/-- The number of accesses of all functions together. -/
def total : List FunctionDef → Nat
  | [] => 0
  | f :: fs => f.access.count + total fs

theorem accessCount_eq (u : SourceUnit) : u.accessCount = total u.allFunctions := by
  have from_ (fs : List FunctionDef) : ∀ n : Nat,
      fs.foldl (fun n f => n + f.facts.writes.length + f.facts.reads.length) n = n + total fs := by
    induction fs with
    | nil => exact fun _ => rfl
    | cons f fs ih =>
      intro n
      rw [List.foldl_cons, ih, total]
      show n + f.access.writes.length + f.access.reads.length + _ = n + (f.access.writes.length + f.access.reads.length + _)
      omega
  exact (from_ u.allFunctions 0).trans (Nat.zero_add _)

section Counting

variable {fs gs : List FunctionDef}

theorem total_mono (h : List.Forall₂ (u.Learns a) fs gs) : total fs ≤ total gs := by
  induction h with
  | nil => exact Nat.le_refl _
  | cons learns _ ih => exact Nat.add_le_add learns.count_le ih

/-- If nothing was learnt altogether, nothing was learnt of any function. -/
theorem same_of_total (h : List.Forall₂ (u.Learns a) fs gs) (same : total gs = total fs) :
    List.Forall₂ (fun f g => u.Learns a f g ∧ g.access = f.access) fs gs := by
  induction h with
  | nil => exact .nil
  | cons learns rest ih =>
    have here := learns.count_le
    have later := total_mono rest
    unfold total at same
    exact .cons ⟨learns, learns.access_eq (by omega)⟩ (ih (by omega))

theorem total_le (h : ∀ f ∈ fs, f.Rising a) : total fs ≤ fs.length * a.count := by
  induction fs with
  | nil => exact Nat.zero_le _
  | cons f fs ih =>
    rw [List.forall_mem_cons] at h
    rw [total, List.length_cons, Nat.succ_mul, Nat.add_comm]
    exact Nat.add_le_add (ih h.2) h.1.count_le

theorem total_eq (fs : List FunctionDef) : total fs =
    (fs.flatMap fun f => f.facts.writes).length + (fs.flatMap fun f => f.facts.reads).length := by
  induction fs with
  | nil => rfl
  | cons f fs ih =>
    rw [List.flatMap_cons, List.flatMap_cons, List.length_append, List.length_append, total, ih]
    show f.facts.writes.length + f.facts.reads.length + _ = _
    omega

end Counting

/-! ### The last round -/

/-- In the round from the first program to the second one nothing is learnt. -/
def LearnsNothing (u : SourceUnit) (a : Access) (v : SourceUnit) : Prop :=
  List.Forall₂ (fun f g => u.Learns a f g ∧ g.access = f.access) u.allFunctions v.allFunctions

section LastRound

variable (h : u.LearnsNothing a v)

include h

/-- In a round in which nothing was learnt, every function was told what is known in the end. -/
theorem knownTo_of_same (distinct : u.numbers.Nodup) {s : Symbols} (informs : u.Informs a s) :
    v.symbols.KnownTo s := by
  intro c k found
  obtain ⟨n, callee⟩ := Symbols.callee?_eq c
  rw [callee] at found ⊢
  obtain ⟨i, rfl, found⟩ := Option.bind_eq_some_iff.mp found
  obtain ⟨own | builtin, rfl⟩ := function?_found found
  · -- the function was found before the round as well, and nothing was learnt of it
    obtain ⟨f', hf', ⟨_, t, _, hk⟩, same⟩ := exists_mem_of_forall₂_right h own
    have id : k.id = f'.id := by rw [hk]; rfl
    obtain ⟨l, hl, more⟩ := informs.grown f'.id f' (function?_own distinct hf')
    refine .inr ⟨l, by rw [Option.bind_some, id, hl], .trans ?_ more⟩
    exact FunctionDef.stateAccess_mono (by rw [hk]; rfl) (same ▸ .refl _)
  · left
    have none := k.stateAccess_within
    rwa [Builtin.methods_access builtin] at none

/-- After a round in which nothing was learnt, everything is accounted for. -/
theorem accounted_of_same (distinct : u.numbers.Nodup) : ∀ g ∈ v.allFunctions, g.Accounted v.symbols := by
  intro g hg
  obtain ⟨f, hf, ⟨rising, s, informs, rfl⟩, -⟩ := exists_mem_of_forall₂_right h hg
  have known := knownTo_of_same h distinct informs
  exact ⟨Stmt.markCalled_covered (fun _ _ => Access.within_add_left _ _) (.block f.body) rising.own,
    Stmt.markCalled_covered (fun _ e => (e.calledAccess_mono known).trans (Access.within_add_right _ _)) (.block f.body)
      rising.own, rfl⟩

/-- After a round in which nothing was learnt, another round changes nothing at all. -/
theorem settled_of_same (distinct : u.numbers.Nodup) (distinct' : v.numbers.Nodup) :
    v.markCalledOnce.allFunctions = v.allFunctions := by
  have kept : v.Pointwise (fun f g => f = g) v.markCalledOnce := by
    refine (mapFunctions_keeping (I := fun t => ∀ i, t.function? i = v.symbols.function? i)
      (fun c hc g hg t same => ?_) fun _ => rfl).1
    have mem : g ∈ v.allFunctions := List.mem_flatMap.mpr ⟨c, hc, hg⟩
    have still : g.summarize (g.body.markCalled t) = g := by
      obtain ⟨f, -, ⟨-, s, informs, rfl⟩, -⟩ := exists_mem_of_forall₂_right h mem
      have known : t.KnownTo s := by
        intro e k found
        obtain ⟨n, callee⟩ := Symbols.callee?_eq e
        refine knownTo_of_same h distinct informs e k ?_
        rw [callee] at found ⊢
        rwa [← funext same]
      have body := Stmt.markCalled_settled known (.block f.body)
      injection body with body
      show f.summarize ((f.body.markCalled s).markCalled t) = _
      rw [body]
    refine ⟨still.symm, fun i => ?_⟩
    show (t.setFunction (g.summarize (g.body.markCalled t))).function? i = _
    rw [still, Symbols.function?_setFunction, same]
    split
    · rename_i hi
      rw [hi, function?_own distinct' mem]
      rfl
    · rfl
  exact (List.forall₂_eq_eq_eq ▸ allFunctions_pointwise kept : v.allFunctions = _).symm

end LastRound

/-! ### All rounds -/

theorem markCalledOnce_numbers (u : SourceUnit) : u.markCalledOnce.numbers = u.numbers :=
  (mapFunctions_numbers (fun _ f s => FunctionDef.numbers_body (f.body.markCalled_numbers s)) u _).numbers

/-- What rises goes on rising. -/
theorem rising_once (distinct : u.numbers.Nodup) (h : ∀ f ∈ u.allFunctions, f.Rising a) :
    ∀ g ∈ u.markCalledOnce.allFunctions, g.Rising a := by
  intro g hg
  obtain ⟨f, -, learns⟩ :=
    exists_mem_of_forall₂_right (allFunctions_pointwise (markCalledOnce_learns distinct h)) hg
  exact learns.rising

/-- The rounds end: the one after the first `k` rounds is the first in which nothing is learnt. -/
structure EndsAfter (u : SourceUnit) (k : Nat) : Prop where
  learning : ∀ j < k, (markCalledOnce^[j] u).markCalledOnce.accessCount ≠ (markCalledOnce^[j] u).accessCount
  last : (markCalledOnce^[k] u).markCalledOnce.accessCount = (markCalledOnce^[k] u).accessCount

/-- If there may be more rounds than these, the result is that of the last one. -/
theorem EndsAfter.markCalled_eq {k : Nat} (h : u.EndsAfter k) {n : Nat} (more : k < n) :
    markCalled n u = (markCalledOnce^[k] u).markCalledOnce := by
  induction k generalizing u n with
  | zero =>
    obtain ⟨n, rfl⟩ := Nat.exists_eq_add_one.mpr more
    exact if_pos h.last
  | succ k ih =>
    obtain ⟨n, rfl⟩ := Nat.exists_eq_add_one.mpr (Nat.zero_lt_of_lt more)
    have next : u.markCalledOnce.EndsAfter k :=
      ⟨fun j hj => h.learning (j + 1) (Nat.succ_lt_succ hj), h.last⟩
    exact (if_neg (h.learning 0 (Nat.succ_pos k))).trans (ih next (Nat.lt_of_succ_lt_succ more))

/-- A round adds a location to some function, and there are only so many locations. -/
theorem ends_of_rising (n : Nat) {u : SourceUnit} (distinct : u.numbers.Nodup) (h : ∀ f ∈ u.allFunctions, f.Rising a)
    (enough : u.allFunctions.length * a.count < u.accessCount + n) : ∃ k < n, u.EndsAfter k := by
  induction n generalizing u with
  | zero =>
    have bound := total_le h
    rw [accessCount_eq] at enough
    omega
  | succ n ih =>
    have learns := allFunctions_pointwise (markCalledOnce_learns distinct h)
    have more := total_mono learns
    by_cases same : u.markCalledOnce.accessCount = u.accessCount
    · exact ⟨0, Nat.succ_pos n, nofun, same⟩
    · have enough' : u.markCalledOnce.allFunctions.length * a.count < u.markCalledOnce.accessCount + n := by
        rw [accessCount_eq, accessCount_eq] at same
        rw [accessCount_eq] at enough ⊢
        rw [← learns.length_eq]
        omega
      obtain ⟨k, hk, ends⟩ := ih (u.markCalledOnce_numbers ▸ distinct) (rising_once distinct h) enough'
      refine ⟨k + 1, Nat.succ_lt_succ hk, fun j hj => ?_, ends.last⟩
      cases j with
      | zero => exact same
      | succ j => exact ends.learning j (Nat.lt_of_succ_lt_succ hj)

theorem rising_iterate (k : Nat) {u : SourceUnit} (distinct : u.numbers.Nodup) (h : ∀ f ∈ u.allFunctions, f.Rising a) :
    (markCalledOnce^[k] u).numbers.Nodup ∧ ∀ f ∈ (markCalledOnce^[k] u).allFunctions, f.Rising a := by
  induction k generalizing u with
  | zero => exact ⟨distinct, h⟩
  | succ k ih => exact ih (u.markCalledOnce_numbers ▸ distinct) (rising_once distinct h)

/-- The accesses that are named anywhere. -/
def named (u : SourceUnit) : Access :=
  ⟨u.allFunctions.flatMap fun f => f.facts.writes, u.allFunctions.flatMap fun f => f.facts.reads⟩

theorem markOwn_rising (h : u.markOwn = .ok v) : ∀ g ∈ v.allFunctions, g.Rising v.named := by
  intro g hg
  obtain ⟨contracts, hm, hv⟩ := except_bind_ok h
  cases hv
  have marked : u.Pointwise (fun _ g => g.body.Covered Expr.ownAccess ∧ g.access = .ofInfo g.body.info ∧
      g.access.Nodup) { u with contracts } := by
    refine visit_pointwise (fun c f g hg => ?_) hm
    obtain ⟨body, hb, hg⟩ := except_bind_ok hg
    cases hg
    refine ⟨?_, rfl, ?_⟩
    · exact Stmt.markOwn_covered _ (.block f.body) (.block body) (by rw [Stmt.markOwn, hb]; rfl)
    · exact Block.markOwn_nodup hb
  obtain ⟨_, -, own, summary, nodup⟩ := exists_mem_of_forall₂_right (allFunctions_pointwise marked) hg
  exact ⟨own, summary, nodup, fun l hl => List.mem_flatMap.mpr ⟨g, hg, hl⟩, fun l hl => List.mem_flatMap.mpr ⟨g, hg, hl⟩⟩

/-- There are enough rounds to learn everything, and the last one changes nothing that functions are marked with. -/
theorem markAccesses_endsAfter (distinct : u.numbers.Nodup) (h : u.markAccesses = .ok v) :
    ∃ w k, u.markOwn = .ok w ∧ w.EndsAfter k ∧ v = (markCalledOnce^[k] w).markCalledOnce ∧
      (markCalledOnce^[k] w).numbers.Nodup ∧ (markCalledOnce^[k] w).LearnsNothing w.named v := by
  have numbers := markAccesses_numbers h
  obtain ⟨w, hw, hv⟩ := except_bind_ok h
  cases hv
  rw [markCalled_numbers] at numbers
  have rising := markOwn_rising hw
  have count : w.accessCount = w.named.count := (accessCount_eq w).trans (total_eq _)
  have enough : w.allFunctions.length * w.named.count <
      w.accessCount + (w.allFunctions.length * w.accessCount + 2) := by
    rw [count]
    omega
  obtain ⟨k, hk, ends⟩ := ends_of_rising _ (numbers ▸ distinct) rising enough
  obtain ⟨distinct', rising'⟩ := rising_iterate k (numbers ▸ distinct) rising
  have learns := allFunctions_pointwise (markCalledOnce_learns distinct' rising')
  have same := ends.last
  rw [accessCount_eq, accessCount_eq] at same
  rw [ends.markCalled_eq hk]
  exact ⟨w, k, hw, ends, rfl, distinct', same_of_total learns same⟩

/-- Every function accounts for all that its code and the functions it calls access. -/
theorem markAccesses_accounted (distinct : u.numbers.Nodup) (h : u.markAccesses = .ok v) :
    ∀ f ∈ v.allFunctions, f.Accounted v.symbols := by
  obtain ⟨w, k, -, -, -, distinct, same⟩ := markAccesses_endsAfter distinct h
  exact accounted_of_same same distinct

/-- The rounds end, and another one would leave all functions as they are. -/
theorem markAccesses_ends (distinct : u.numbers.Nodup) (h : u.markAccesses = .ok v) :
    (∃ w k, u.markOwn = .ok w ∧ w.EndsAfter k ∧ v = (markCalledOnce^[k] w).markCalledOnce) ∧
      v.markCalledOnce.allFunctions = v.allFunctions := by
  have numbers := markAccesses_numbers h
  obtain ⟨w, k, own, ends, eq, distinct', same⟩ := markAccesses_endsAfter distinct h
  exact ⟨⟨w, k, own, ends, eq⟩, settled_of_same same distinct' (numbers ▸ distinct)⟩

end SourceUnit

end Shroud
