import Shroud.Proofs.Tracking

/-!
# Owners in linked programs

What a variable starts out with is looked at before the program is checked. If its initial value is a bare name, the
variable is made equal to what the name stands for. The label of a variable of the program is known by then; that of a
built-in variable, a function or a type never is.

**Scopes.** `Scope.Covered` says that every variable of the program that the scope finds has its label among those
around. Linking keeps it: a block adds its variables to both.

**Results.**

* `SourceUnit.markAliases_tracks`: marking a program succeeds exactly if all its statements can be tracked.
* `SourceUnit.markAliases_iff`: in a linked program, this depends on the side effects that can be told and on the bare
  names in initial values; if it succeeds, all marks list exactly the labels around.
* `Symbols.haveEffects_told`: side effects can be told wherever every called name leads to a function.
* `clock_untracked`: a variable that starts out with the built-in time.
-/

namespace Shroud

/-! ## Labels in whole programs -/

/-- The labels around the body of a function. Parameters without a name share one. -/
def Contract.labels (c : Contract) (f : FunctionDef) : List Label :=
  [Label.me, .all] ++ c.stateVars.map (fun v => .var .stateVar v.id v.name) ++
    f.params.map fun p => match p.name with
      | some n => .var .parameter p.id n
      | none => .var .parameter 0 "None"

/-- A list that stands for labels of no statement. -/
theorem Contract.labels_outer (c : Contract) (f : FunctionDef) : ∀ l ∈ c.labels f, Store.localId? l = none := by
  intro l hl
  simp only [Contract.labels, List.mem_append, List.mem_cons, List.mem_map, List.not_mem_nil, or_false] at hl
  rcases hl with ((rfl | rfl) | ⟨v, -, rfl⟩) | ⟨p, -, rfl⟩
  · rfl
  · rfl
  · rfl
  · cases p.name <;> rfl

theorem Contract.labels_apart (c : Contract) (f : FunctionDef) (ids : List Nat) : Label.Apart (c.labels f) ids := by
  intro i _ n hl
  cases c.labels_outer f _ hl

/-- At the start of a function exactly these labels are listed. -/
theorem Contract.initialKnowledge_lists (c : Contract) (f : FunctionDef) : (c.initialKnowledge f).Lists (c.labels f) := by
  have members : (c.initialKnowledge f).members = c.labels f := by
    have inserted (ls : List Label) (k : Knowledge) :
        (ls.foldl (fun k l => k.insert l) k).members = k.members ++ ls := by
      induction ls generalizing k with
      | nil => exact (List.append_nil _).symm
      | cons l ls ih => rw [List.foldl_cons, ih, Partition.members_insert, List.append_assoc, List.singleton_append]
    exact inserted (c.labels f) .empty
  refine ⟨fun z => by rw [members], fun i n => ?_⟩
  have absent : Label.var .localVar i n ∉ (c.initialKnowledge f).members := by
    rw [members]
    intro hl
    cases c.labels_outer f _ hl
  rw [List.count_eq_zero.mpr absent]
  exact Nat.zero_le 1

/-- Every statement of the function can be tracked. -/
def FunctionDef.Trackable (symbols : Symbols) (c : Contract) (f : FunctionDef) : Prop :=
  Stmt.AllTrackable symbols (f.body.placed (c.labels f))

/-- Every statement of the program is marked exactly with the labels around it. -/
def SourceUnit.Exact (u : SourceUnit) : Prop :=
  ∀ c ∈ u.contracts, ∀ f ∈ c.allFunctions, Stmt.AllExact (f.body.placed (c.labels f))

section Programs

variable {u : SourceUnit}

theorem forall₂_right {α β : Type} {R : α → β → Prop} {xs : List α} {ys : List β} (h : List.Forall₂ R xs ys) :
    ∀ y ∈ ys, ∃ x ∈ xs, R x y := by
  induction h with
  | nil => nofun
  | cons hxy _ ih =>
    intro z hz
    rcases List.mem_cons.mp hz with rfl | hz
    · exact ⟨_, List.mem_cons_self, hxy⟩
    · obtain ⟨x, hx, hR⟩ := ih z hz
      exact ⟨x, List.mem_cons_of_mem _ hx, hR⟩

/-- Marking a program succeeds exactly if all its statements can be tracked. -/
theorem SourceUnit.markAliases_tracks (numbers : u.numbers.Nodup) :
    Succeeds u.markAliases (∀ c ∈ u.contracts, ∀ f ∈ c.allFunctions, f.Trackable u.symbols c) SourceUnit.Exact := by
  have function {c : Contract} (hc : c ∈ u.contracts) {f : FunctionDef} (hf : f ∈ c.allFunctions) :
      Succeeds (do return { f with body := ← f.body.markAliases u.symbols (c.initialKnowledge f) })
        (f.Trackable u.symbols c) fun g => Stmt.AllExact (g.body.placed (c.labels f)) ∧ g.params = f.params := by
    have own := SourceUnit.body_numbers numbers (List.mem_flatMap.mpr ⟨c, hc, hf⟩)
    have body := Block.tracks (fun s _ => s.tracks u.symbols) (c.initialKnowledge_lists f) own (c.labels_apart f _)
    exact body.andThen fun b hb => .pure ⟨hb.1, rfl⟩
  have contract {c : Contract} (hc : c ∈ u.contracts) :
      Succeeds (do
          let constructors ← c.constructors.mapM fun f => do
            return { f with body := ← f.body.markAliases u.symbols (c.initialKnowledge f) }
          let functions ← c.functions.mapM fun f => do
            return { f with body := ← f.body.markAliases u.symbols (c.initialKnowledge f) }
          return { c with constructors, functions })
        (∀ f ∈ c.allFunctions, f.Trackable u.symbols c) fun d =>
          ∀ g ∈ d.allFunctions, Stmt.AllExact (g.body.placed (d.labels g)) := by
    have constructors := Succeeds.mapM fun f hf => function hc (f := f) (List.mem_append_left _ hf)
    have functions := Succeeds.mapM fun f hf => function hc (f := f) (List.mem_append_right _ hf)
    refine (constructors.bind fun ks hk => functions.andThen fun fs hfs => .pure ?_).iff ?_
    · intro g hg
      have labels {f : FunctionDef} (same : g.params = f.params) :
          Contract.labels { c with constructors := ks, functions := fs } g = c.labels f := by
        unfold Contract.labels
        rw [same]
        rfl
      rcases List.mem_append.mp hg with hg | hg
      · obtain ⟨f, -, exact, same⟩ := forall₂_right hk g hg
        rwa [labels same]
      · obtain ⟨f, -, exact, same⟩ := forall₂_right hfs g hg
        rwa [labels same]
    · exact List.forall_mem_append.symm
  unfold SourceUnit.markAliases
  refine (Succeeds.mapM fun c hc => contract hc).andThen fun contracts hcs => .pure ?_
  intro d hd
  obtain ⟨c, -, exact⟩ := forall₂_right hcs d hd
  exact exact

end Programs

/-! ## Labels that stand for variables of the program -/

/-- A declaration of a variable. -/
def DeclKind.isVariable : DeclKind → Bool
  | .stateVar | .parameter | .localVar => true
  | _ => false

/-- The label is a keyword or stands for a variable of the program. -/
def Label.IsVariable : Label → Prop
  | .me | .all => True
  | .var k i n => k.isVariable = true ∧ (n, Ref.decl k i) ∉ Builtin.names

instance : DecidablePred Label.IsVariable
  | .me | .all => .isTrue trivial
  | .var k i n => inferInstanceAs (Decidable (k.isVariable = true ∧ (n, Ref.decl k i) ∉ Builtin.names))

/-- Built-in names stand for structs and state variables with numbers of their own. -/
theorem Builtin.names_refs : ∀ p ∈ Builtin.names, p.2.id ∈ Builtin.decls.map Prod.fst ∧
    (p.2 = .decl .struct p.2.id ∨ p.2 = .decl .stateVar p.2.id) := by
  decide

theorem LocalVar.label_isVariable (v : LocalVar) : v.label.IsVariable := by
  refine ⟨rfl, fun h => ?_⟩
  rcases (Builtin.names_refs _ h).2 with same | same <;> cases same

theorem StateVar.not_builtin {u : SourceUnit} (numbers : u.numbers.Nodup) {c : Contract} (hc : c ∈ u.contracts)
    {v : StateVar} (hv : v ∈ c.stateVars) : v.id ∉ Builtin.decls.map Prod.fst := by
  unfold SourceUnit.numbers SourceUnit.symbols at numbers
  rw [List.map_append, List.nodup_append] at numbers
  have state : Decl.ofState v ∈ c.decls :=
    List.mem_append_left _ (List.mem_append_right _ (List.mem_map.mpr ⟨v, hv, rfl⟩))
  have own : v.id ∈ (u.contracts.flatMap Contract.decls).map Prod.fst :=
    List.mem_map.mpr ⟨_, List.mem_flatMap.mpr ⟨c, hc, state⟩, rfl⟩
  exact fun builtin => numbers.2.2 _ own _ builtin rfl

theorem Contract.labels_isVariable {u : SourceUnit} (numbers : u.numbers.Nodup) {c : Contract} (hc : c ∈ u.contracts)
    (f : FunctionDef) : ∀ l ∈ c.labels f, l.IsVariable := by
  intro l hl
  simp only [Contract.labels, List.mem_append, List.mem_cons, List.mem_map, List.not_mem_nil, or_false] at hl
  have parameter (i : Nat) (n : String) : Label.IsVariable (.var .parameter i n) := by
    refine ⟨rfl, fun h => ?_⟩
    rcases (Builtin.names_refs _ h).2 with same | same <;> cases same
  rcases hl with ((rfl | rfl) | ⟨v, hv, rfl⟩) | ⟨p, -, rfl⟩
  · trivial
  · trivial
  · exact ⟨rfl, fun h => StateVar.not_builtin numbers hc hv (Builtin.names_refs _ h).1⟩
  · cases p.name with
    | none => exact parameter _ _
    | some n => exact parameter _ _

mutual

/-- The labels around an inner statement are those around the outer one and variables of statements. -/
theorem Stmt.placed_labels {P : Label → Prop} (inner : ∀ v : LocalVar, P v.label) : ∀ (s : Stmt) (ls : List Label),
    (∀ l ∈ ls, P l) → ∀ p ∈ s.placed ls, ∀ l ∈ p.1, P l
  | .ifThen i c t none, ls, h => by
    rw [Stmt.placed]
    exact List.forall_mem_cons.mpr ⟨h, Block.placed_labels inner t ls h⟩
  | .ifThen i c t (some e), ls, h => by
    rw [Stmt.placed]
    exact List.forall_mem_cons.mpr ⟨h, List.forall_mem_append.mpr
      ⟨Block.placed_labels inner t ls h, Block.placed_labels inner e ls h⟩⟩
  | .whileLoop i c b, ls, h | .doWhile i b c, ls, h => by
    rw [Stmt.placed]
    exact List.forall_mem_cons.mpr ⟨h, Block.placed_labels inner b ls h⟩
  | .forLoop i a c u b, ls, h => by
    have inside : ∀ l ∈ ls ++ (Stmt.declared? a ++ Stmt.declared? u).map LocalVar.label, P l :=
      List.forall_mem_append.mpr ⟨h, List.forall_mem_map.mpr fun v _ => inner v⟩
    rw [Stmt.placed_forLoop]
    refine List.forall_mem_cons.mpr ⟨h, List.forall_mem_append.mpr ⟨?_, List.forall_mem_append.mpr
      ⟨Block.placed_labels inner b _ inside, ?_⟩⟩⟩
    · cases a with
      | none => nofun
      | some s => exact Stmt.placed_labels inner s _ inside
    · cases u with
      | none => nofun
      | some s => exact Stmt.placed_labels inner s _ inside
  | .block b, ls, h => by
    rw [Stmt.placed]
    exact Block.placed_labels inner b ls h
  | .seq i ss x, ls, h => by
    rw [Stmt.placed]
    exact List.forall_mem_cons.mpr ⟨h, Stmt.placedAll_labels inner ss ls h⟩
  | .breakLoop _, _, h | .continueLoop _, _, h | .ret .., _, h | .eval .., _, h | .require .., _, h
  | .assign .., _, h | .declare .., _, h | .compute .., _, h | .enterKey .., _, h | .comment _, _, h | .blank, _, h =>
    List.forall_mem_singleton.mpr h

theorem Block.placed_labels {P : Label → Prop} (inner : ∀ v : LocalVar, P v.label) : ∀ (b : Block) (ls : List Label),
    (∀ l ∈ ls, P l) → ∀ p ∈ b.placed ls, ∀ l ∈ p.1, P l
  | ⟨i, ss, x⟩, ls, h => by
    have inside : ∀ l ∈ ls ++ (Stmt.declaredAll ss).map LocalVar.label, P l :=
      List.forall_mem_append.mpr ⟨h, List.forall_mem_map.mpr fun v _ => inner v⟩
    rw [Block.placed]
    exact List.forall_mem_cons.mpr ⟨h, Stmt.placedAll_labels inner ss _ inside⟩

theorem Stmt.placedAll_labels {P : Label → Prop} (inner : ∀ v : LocalVar, P v.label) :
    ∀ (ss : List Stmt) (ls : List Label), (∀ l ∈ ls, P l) → ∀ p ∈ Stmt.placedAll ls ss, ∀ l ∈ p.1, P l
  | [], _, _ => nofun
  | s :: ss, ls, h => by
    rw [Stmt.placedAll]
    exact List.forall_mem_append.mpr ⟨Stmt.placed_labels inner s ls h, Stmt.placedAll_labels inner ss ls h⟩

end

/-! ## What linking finds -/

/-- Every variable of the program that the scope finds has its label in the list. -/
structure Scope.Covered (s : Scope) (ls : List Label) : Prop where
  me : Label.me ∈ ls
  all : Label.all ∈ ls
  names : ∀ f ∈ s.frames, ∀ p ∈ f.names, ∃ k i, p.2 = .decl k i ∧ (Label.IsVariable (.var k i p.1) → .var k i p.1 ∈ ls)

namespace Scope.Covered

variable {s : Scope} {ls : List Label}

/-- Inside a new scope, where more labels are known. -/
theorem extend {s' : Scope} {f : Frame} {more : List Label} (h : s.Covered ls) (frames : s'.frames = f :: s.frames)
    (own : ∀ p ∈ f.names, ∃ k i, p.2 = .decl k i ∧ (Label.IsVariable (.var k i p.1) → .var k i p.1 ∈ ls ++ more)) :
    s'.Covered (ls ++ more) where
  me := List.mem_append_left _ h.me
  all := List.mem_append_left _ h.all
  names := by
    rw [frames]
    refine List.forall_mem_cons.mpr ⟨own, fun g hg p hp => ?_⟩
    obtain ⟨k, i, ref, known⟩ := h.names g hg p hp
    exact ⟨k, i, ref, fun v => List.mem_append_left _ (known v)⟩

theorem enterBlock (h : s.Covered ls) (pos : Pos) (vs : List LocalVar) :
    (s.enterBlock pos vs).Covered (ls ++ vs.map LocalVar.label) := by
  refine h.extend rfl fun p hp => ?_
  obtain ⟨v, hv, rfl⟩ := List.mem_map.mp hp
  exact ⟨.localVar, v.id, rfl, fun _ => List.mem_append_right _ (List.mem_map.mpr ⟨v, hv, rfl⟩)⟩

/-- A name that is found stands in some frame. -/
theorem value (h : s.Covered ls) {n : String} {r : Ref} (found : s.value n = .ok r) :
    ∃ k i, r = .decl k i ∧ (Label.IsVariable (.var k i n) → .var k i n ∈ ls) := by
  have listed : ∀ (fs : List Frame) (blamed : Option Pos), Scope.searchValue s.later s.own n fs blamed = .ok r →
      ∃ f ∈ fs, (n, r) ∈ f.names := by
    intro fs
    induction fs with
    | nil => exact fun _ h => nomatch h
    | cons f fs ih =>
      intro blamed h
      unfold Scope.searchValue at h
      have later {blamed : Option Pos} (h : Scope.searchValue s.later s.own n fs blamed = .ok r) :
          ∃ g ∈ f :: fs, (n, r) ∈ g.names := by
        obtain ⟨g, hg, hr⟩ := ih blamed h
        exact ⟨g, List.mem_cons_of_mem _ hg, hr⟩
      split at h
      · exact later h
      · rename_i q hq
        split at h
        · exact later h
        · split at h
          · exact later h
          · cases h
            exact ⟨f, List.mem_cons_self, mem_of_name hq⟩
  obtain ⟨f, hf, hr⟩ := listed s.frames none found
  exact h.names f hf (n, r) hr

end Scope.Covered

/-- If the label of the expression is that of a variable, it is in the list. -/
def Expr.Knows (ls : List Label) (e : Expr) : Prop := ∀ l, e.label? = some l → l.IsVariable → l ∈ ls

section Linking

variable {c : LinkContext} {ls : List Label}

theorem Expr.link_knows (covered : c.scope.Covered ls) (e : Expr) : Yields (Expr.Knows ls) (e.link c) := by
  cases e with
  | ident i n t =>
    intro st r h
    obtain ⟨q, st', hq, h⟩ := state_bind_ok h
    cases state_pure_ok h
    unfold linkValue at hq
    cases hv : c.scope.value n.name with
    | ok q' =>
      rw [hv] at hq
      cases state_pure_ok hq
      obtain ⟨k, j, rfl, known⟩ := covered.value hv
      rintro l ⟨⟩ own
      exact known own
    | error blamed =>
      rw [hv] at hq
      cases blamed <;> cases hq
  | me i =>
    refine .pure ?_
    rintro l ⟨⟩ -
    exact covered.me
  | all i =>
    refine .pure ?_
    rintro l ⟨⟩ -
    exact covered.all
  | operator | boolLit | numLit => exact .pure nofun
  | call | new | cast | reclassify => exact .after fun _ => .after fun _ => .pure nofun
  | index => exact .after fun _ => .after fun _ => .after fun _ => .pure nofun
  | arrayLit | tuple => exact .after fun _ => .pure nofun
  | member => exact .after fun _ => .after fun _ => .pure nofun

/-- What every statement in the list starts a variable with is a label around it, if it is a variable. -/
abbrev Stmt.AllKnow (ps : List (List Label × Stmt)) : Prop :=
  ∀ p ∈ ps, ∀ l, p.2.initial? = some l → l.IsVariable → l ∈ p.1

/-- Linking knows the labels of initial values, and keeps the variables. -/
structure Stmt.LinkKnows (ls : List Label) (s s' : Stmt) : Prop where
  knows : Stmt.AllKnow (s'.placed ls)
  declared : s'.declared.map LocalVar.label = s.declared.map LocalVar.label

theorem Stmt.AllKnow.cons {s : Stmt} {ps : List (List Label × Stmt)} (initial : s.initial? = none)
    (h : Stmt.AllKnow ps) : Stmt.AllKnow ((ls, s) :: ps) :=
  List.forall_mem_cons.mpr ⟨fun _ hl => (nomatch initial.symm.trans hl), h⟩

theorem Stmt.AllKnow.append {ps qs : List (List Label × Stmt)} (h : Stmt.AllKnow ps) (h' : Stmt.AllKnow qs) :
    Stmt.AllKnow (ps ++ qs) := List.forall_mem_append.mpr ⟨h, h'⟩

theorem Stmt.linkAll_knows {ss : List Stmt}
    (each : ∀ s ∈ ss, ∀ (c : LinkContext) (ls : List Label), c.scope.Covered ls → Yields (s.LinkKnows ls) (s.link c))
    (covered : c.scope.Covered ls) : Yields (fun ss' => Stmt.AllKnow (Stmt.placedAll ls ss') ∧
      (Stmt.declaredAll ss').map LocalVar.label = (Stmt.declaredAll ss).map LocalVar.label) (Stmt.linkAll c ss) := by
  induction ss generalizing c with
  | nil => exact .pure ⟨List.forall_mem_nil _, rfl⟩
  | cons s ss ih =>
    refine (each s List.mem_cons_self c ls covered).bind fun s' hs => ?_
    have after : Scope.Covered (c.scope.declare s.declared) ls := ⟨covered.me, covered.all, covered.names⟩
    have rest := ih (fun t ht => each t (List.mem_cons_of_mem _ ht)) (c := { c with scope := c.scope.declare s.declared })
      after
    refine rest.bind fun ss' hss => .pure ⟨?_, ?_⟩
    · exact hs.knows.append hss.1
    · rw [Stmt.declaredAll, Stmt.declaredAll, List.map_append, List.map_append, hs.declared, hss.2]

theorem Block.link_knows {b : Block}
    (each : ∀ s ∈ b.stmts, ∀ (c : LinkContext) (ls : List Label), c.scope.Covered ls →
      Yields (s.LinkKnows ls) (s.link c))
    (covered : c.scope.Covered ls) : Yields (fun b' => Stmt.AllKnow (b'.placed ls)) (b.link c) := by
  obtain ⟨i, ss, x⟩ := b
  have inner := Stmt.linkAll_knows each (c := { c with scope := c.scope.enterBlock i.pos (Stmt.declaredAll ss) })
    (covered.enterBlock i.pos (Stmt.declaredAll ss))
  refine inner.bind fun ss' hss => .pure ?_
  rw [Block.placed, hss.2]
  exact .cons rfl hss.1

theorem Stmt.link?_knows {a : Option Stmt}
    (each : ∀ s, a = some s → ∀ (c : LinkContext) (ls : List Label), c.scope.Covered ls →
      Yields (s.LinkKnows ls) (s.link c))
    (covered : c.scope.Covered ls) : Yields (fun a' => Stmt.AllKnow (Stmt.placed? ls a') ∧
      (Stmt.declared? a').map LocalVar.label = (Stmt.declared? a).map LocalVar.label) (Stmt.link? c a) := by
  cases a with
  | none => exact .pure ⟨List.forall_mem_nil _, rfl⟩
  | some s => exact (each s rfl c ls covered).bind fun s' hs => .pure ⟨hs.knows, hs.declared⟩

theorem Stmt.link_knows (s : Stmt) : ∀ (c : LinkContext) (ls : List Label), c.scope.Covered ls →
    Yields (s.LinkKnows ls) (s.link c) := by
  induction s using Stmt.inductOn with
  | ifThen i e t f thens elses =>
    intro c ls covered
    cases f with
    | none =>
      exact .after fun e' => (Block.link_knows thens covered).bind fun t' ht => .pure ⟨.cons rfl ht, rfl⟩
    | some f =>
      exact .after fun e' => (Block.link_knows thens covered).bind fun t' ht =>
        (Block.link_knows (elses f rfl) covered).bind fun f' hf => .pure ⟨.cons rfl (ht.append hf), rfl⟩
  | whileLoop i e b body =>
    intro c ls covered
    exact .after fun e' => (Block.link_knows body covered).bind fun b' hb => .pure ⟨.cons rfl hb, rfl⟩
  | doWhile i b e body =>
    intro c ls covered
    exact (Block.link_knows body covered).bind fun b' hb => .after fun e' => .pure ⟨.cons rfl hb, rfl⟩
  | forLoop i a e u b inits updates body =>
    intro c ls covered
    have entered := covered.enterBlock i.pos (Stmt.declared? a ++ Stmt.declared? u)
    have inside : Scope.Covered ((c.scope.enterBlock i.pos (Stmt.declared? a ++ Stmt.declared? u)).declare
        (Stmt.declared? a)) _ := ⟨entered.me, entered.all, entered.names⟩
    rw [Stmt.link_forLoop]
    refine (Stmt.link?_knows inits entered).bind fun a' ha => .after fun e' => ?_
    refine (Stmt.link?_knows updates inside).bind fun u' hu => ?_
    refine (Block.link_knows body inside).bind fun b' hb => .pure ⟨?_, rfl⟩
    rw [Stmt.placed_forLoop, List.map_append, ha.2, hu.2, ← List.map_append]
    exact .cons rfl (ha.1.append (hb.append hu.1))
  | block b body =>
    intro c ls covered
    exact (Block.link_knows body covered).bind fun b' hb => .pure ⟨hb, rfl⟩
  | seq i ss x each =>
    intro c ls covered
    exact (Stmt.linkAll_knows each covered).bind fun ss' hss => .pure ⟨.cons rfl hss.1, hss.2⟩
  | simple s leaf =>
    intro c ls covered
    have plain {s' : Stmt} (placed : s'.placed ls = [(ls, s')]) (initial : s'.initial? = none)
        (declared : s'.declared.map LocalVar.label = s.declared.map LocalVar.label) : s.LinkKnows ls s' := by
      refine ⟨?_, declared⟩
      rw [placed]
      exact .cons initial (List.forall_mem_nil _)
    cases s with
    | declare i v e =>
      refine .bind (P := fun v' => v'.label = v.label) (.after fun t => .after fun _ => .pure rfl) fun v' hv => ?_
      have inside : Scope.Covered (c.scope.declaring v) ls := ⟨covered.me, covered.all, covered.names⟩
      have initial : Yields (fun e' : Option Expr => ∀ l, e'.bind Expr.label? = some l → l.IsVariable → l ∈ ls)
          (Expr.link? ((c.withStmt (.declare i v e)).declaring v) e) := by
        cases e with
        | none => exact .pure nofun
        | some e => exact (e.link_knows inside).bind fun e' he => .pure he
      refine initial.bind fun e' he => .pure ⟨?_, congrArg (fun l => [l]) hv⟩
      rw [Stmt.placed_leaf rfl]
      exact List.forall_mem_singleton.mpr he
    | eval | require | ret => exact .after fun _ => .pure (plain (Stmt.placed_leaf rfl) rfl rfl)
    | assign => exact .after fun _ => .after fun _ => .pure (plain (Stmt.placed_leaf rfl) rfl rfl)
    | breakLoop | continueLoop | compute | enterKey | comment | blank =>
      exact .pure (plain (Stmt.placed_leaf rfl) rfl rfl)
    | ifThen | whileLoop | doWhile | forLoop | block | seq => cases leaf

end Linking

/-! ## Linked programs -/

/-- The names around the members of a contract are those of its state variables, of other declarations, or built in. -/
theorem Contract.context_covered (u : SourceUnit) (c : Contract) (f : FunctionDef) :
    (c.context u).scope.Covered (c.labels f) where
  me := by simp [Contract.labels]
  all := by simp [Contract.labels]
  names := by
    have other {k : DeclKind} {n : String} {i : Nat} (kind : k.isVariable = false) :
        ∃ k' i', Ref.decl k i = .decl k' i' ∧ (Label.IsVariable (.var k' i' n) → .var k' i' n ∈ c.labels f) :=
      ⟨k, i, rfl, fun h => absurd (kind.symm.trans h.1) Bool.false_ne_true⟩
    refine List.forall_mem_cons.mpr ⟨fun p hp => ?_, List.forall_mem_cons.mpr ⟨fun p hp => ?_, List.forall_mem_nil _⟩⟩
    · have hp := mem_collectNames hp
      simp only [Contract.nameGroups, List.flatten_cons, List.flatten_nil, List.append_nil, List.mem_append] at hp
      rcases hp with hp | hp | hp | hp
      · obtain ⟨v, hv, rfl⟩ := List.mem_map.mp (mem_collectNames hp)
        refine ⟨.stateVar, v.id, rfl, fun _ => ?_⟩
        exact List.mem_append_left _ (List.mem_append_right _ (List.mem_map.mpr ⟨v, hv, rfl⟩))
      all_goals
        obtain ⟨d, hd, rfl⟩ := List.mem_map.mp (mem_collectNames hp)
        exact other rfl
    · rcases List.mem_append.mp (mem_collectNames hp) with hp | hp
      · obtain ⟨d, hd, rfl⟩ := List.mem_map.mp hp
        exact other rfl
      · obtain ⟨n, r⟩ := p
        rcases (Builtin.names_refs _ hp).2 with same | same
        · exact ⟨_, _, same, fun h => absurd h.1 Bool.false_ne_true⟩
        · exact ⟨_, _, same, fun h => absurd (same ▸ hp) h.2⟩

theorem FunctionDef.body_covered (u : SourceUnit) (c : Contract) (f : FunctionDef) :
    ((c.context u).ofBody f).scope.Covered (c.labels f) := by
  have outer := c.context_covered u f
  have inside : ((c.context u).ofBody f).scope.Covered (c.labels f ++ []) := by
    refine outer.extend (f := ⟨f.names, none⟩) rfl fun p hp => ?_
    obtain ⟨q, hq, named⟩ := List.mem_filterMap.mp (mem_collectNames hp)
    obtain ⟨n, hn, rfl⟩ := Option.map_eq_some_iff.mp named
    refine ⟨.parameter, q.id, rfl, fun _ => List.mem_append_left _ (List.mem_append_right _ ?_)⟩
    exact List.mem_map.mpr ⟨q, hq, by rw [hn]⟩
  rwa [List.append_nil] at inside

theorem Param.linkAll_names (c : LinkContext) (ps : List Param) :
    Yields (fun qs => qs.map (fun q => (q.name, q.id)) = ps.map fun p => (p.name, p.id)) (Param.linkAll c ps) := by
  induction ps with
  | nil => exact .pure rfl
  | cons p ps ih =>
    obtain ⟨i, k, t, n, s, o⟩ := p
    refine .bind (P := fun q => (q.name, q.id) = (n, i)) (.after fun _ => .after fun _ => .pure rfl) fun q hq => ?_
    refine ih.bind fun qs hqs => .pure ?_
    rw [List.map_cons, List.map_cons, hq, hqs]

/-- The labels around a body depend on the names and numbers of state variables and parameters only. -/
theorem Contract.labels_congr {c d : Contract} {f g : FunctionDef}
    (state : d.state.map StateItem.entry? = c.state.map StateItem.entry?)
    (params : g.params.map (fun q => (q.name, q.id)) = f.params.map fun p => (p.name, p.id)) :
    d.labels g = c.labels f := by
  have stateLabels (c : Contract) : c.stateVars.map (fun v => Label.var .stateVar v.id v.name) =
      (c.stateVars.map fun v => (v.name, v.ref)).map fun p => .var .stateVar p.2.id p.1 := by
    rw [List.map_map]
    rfl
  have paramLabels (f : FunctionDef) : (f.params.map fun p => match p.name with
        | some n => Label.var .parameter p.id n
        | none => .var .parameter 0 "None") =
      (f.params.map fun p => (p.name, p.id)).map fun p => match p.1 with
        | some n => .var .parameter p.2 n
        | none => .var .parameter 0 "None" := by
    rw [List.map_map]
    rfl
  rw [Contract.labels, Contract.labels, stateLabels, stateLabels, paramLabels, paramLabels, Contract.stateVars_entries,
    Contract.stateVars_entries, state, params]

theorem FunctionDef.link_knows (u : SourceUnit) (c : Contract) (f : FunctionDef) :
    Yields (fun g => Stmt.AllKnow (g.body.placed (c.labels f)) ∧
      g.params.map (fun q => (q.name, q.id)) = f.params.map fun p => (p.name, p.id)) (f.link (c.context u)) := by
  refine (Param.linkAll_names _ f.params).bind fun ps hps => .after fun rs => ?_
  refine (Block.link_knows (fun s _ => s.link_knows) (f.body_covered u c)).bind fun b hb => .after fun _ => ?_
  exact .pure ⟨hb, hps⟩

theorem Contract.link_knows (u : SourceUnit) (c : Contract) :
    Yields (fun d => ∀ g ∈ d.allFunctions, Stmt.AllKnow (g.body.placed (d.labels g))) (c.link u) := by
  refine .after fun structs => (links_mapM (StateItem.link_entry _) c.state).bind fun state hs => ?_
  refine (links_mapM (FunctionDef.link_knows u c) c.constructors).bind fun constructors hc => ?_
  refine (links_mapM (FunctionDef.link_knows u c) c.functions).bind fun functions hf => .pure fun g hg => ?_
  have labels {f : FunctionDef} (params : g.params.map (fun q => (q.name, q.id)) = f.params.map fun p => (p.name, p.id)) :
      Contract.labels { c with structs, state, constructors, functions } g = c.labels f :=
    Contract.labels_congr (forall₂_map_eq hs) params
  rcases List.mem_append.mp hg with hg | hg
  · obtain ⟨f, -, knows, params⟩ := forall₂_right hc g hg
    rwa [labels params]
  · obtain ⟨f, -, knows, params⟩ := forall₂_right hf g hg
    rwa [labels params]

theorem SourceUnit.link_knows {u₀ u : SourceUnit} {n m : Nat} (linked : u₀.link n = .ok (u, m)) :
    ∀ c ∈ u.contracts, ∀ f ∈ c.allFunctions, Stmt.AllKnow (f.body.placed (c.labels f)) := by
  unfold SourceUnit.link at linked
  obtain ⟨_, _, linked⟩ := except_bind_ok linked
  obtain ⟨⟨contracts, s⟩, hm, linked⟩ := except_bind_ok linked
  cases linked
  intro d hd
  obtain ⟨c, -, knows⟩ := forall₂_right (links_mapM (Contract.link_knows u₀) u₀.contracts _ _ hm) d hd
  exact knows

/-! ## When marking succeeds -/

/-- The statement is part of a source program, the side effects of its parts can be told, and if it starts a variable
with a bare name, this is a keyword or a variable of the program. -/
structure Stmt.Startable (symbols : Symbols) (s : Stmt) : Prop where
  source : s.isDirective = false
  told : symbols.Tells s.consulted
  initial : ∀ l, s.initial? = some l → l.IsVariable

/-- In a linked program the labels around a statement are those of the variables of the program that it may name. -/
theorem SourceUnit.trackable_iff {u₀ u : SourceUnit} {n m : Nat} (linked : u₀.link n = .ok (u, m))
    (numbers : u.numbers.Nodup) {c : Contract} (hc : c ∈ u.contracts) {f : FunctionDef} (hf : f ∈ c.allFunctions) :
    f.Trackable u.symbols c ↔ ∀ p ∈ f.body.placed (c.labels f), p.2.Startable u.symbols := by
  have known := SourceUnit.link_knows linked c hc f hf
  have labels := Block.placed_labels LocalVar.label_isVariable f.body (c.labels f) (c.labels_isVariable numbers hc f)
  refine forall₂_congr fun p hp => ⟨fun h => ⟨h.source, h.told, fun l hl => ?_⟩, fun h => ⟨h.source, h.told, fun l hl => ?_⟩⟩
  · exact labels p hp l (h.initial l hl)
  · exact known p hp l hl (h.initial l hl)

theorem SourceUnit.markAliases_succeeds {u₀ u : SourceUnit} {n m : Nat} (linked : u₀.link n = .ok (u, m))
    (numbers : u₀.numbers.Nodup) : Succeeds u.markAliases
      (∀ c ∈ u.contracts, ∀ f ∈ c.allFunctions, ∀ p ∈ f.body.placed (c.labels f), p.2.Startable u.symbols)
      SourceUnit.Exact := by
  have numbers : u.numbers.Nodup := SourceUnit.link_numbers linked ▸ numbers
  refine (SourceUnit.markAliases_tracks numbers).iff ?_
  exact forall₂_congr fun c hc => forall₂_congr fun f hf => SourceUnit.trackable_iff linked numbers hc hf

/-- In a linked program, marking succeeds exactly if the side effects of all parts can be told and no variable starts
out with the bare name of something built in, a function or a type. Then all marks list exactly the labels around:
the keywords, the state variables, the parameters and the variables of enclosing blocks and `for` statements. -/
theorem SourceUnit.markAliases_iff {u₀ u : SourceUnit} {n m : Nat} (linked : u₀.link n = .ok (u, m))
    (numbers : u₀.numbers.Nodup) :
    ((∃ v, u.markAliases = .ok v) ↔
      ∀ c ∈ u.contracts, ∀ f ∈ c.allFunctions, ∀ p ∈ f.body.placed (c.labels f), p.2.Startable u.symbols) ∧
    ∀ v, u.markAliases = .ok v → v.Exact :=
  have succeeds := SourceUnit.markAliases_succeeds linked numbers
  ⟨succeeds.exists_iff, fun _ hv => succeeds.result hv⟩

theorem shadowing_tracked : ∃ u m v, shadowing.link 120 = .ok (u, m) ∧ shadowing.numbers.Nodup ∧
    u.markAliases = .ok v ∧ v.Exact ∧
    ∀ c ∈ u.contracts, ∀ f ∈ c.allFunctions, ∀ p ∈ f.body.placed (c.labels f), p.2.Startable u.symbols := by
  obtain ⟨_, h, -⟩ := exists_ok_of_any
    (x := do let l ← shadowing.link 120; let v ← l.1.markAliases; return (l.1, l.2, v)) (p := fun _ => true)
    (by decide +kernel)
  obtain ⟨⟨u, m⟩, link, h⟩ := except_bind_ok h
  obtain ⟨v, aliases, -⟩ := except_bind_ok h
  have marking := SourceUnit.markAliases_iff link shadowing_distinct.numbers
  exact ⟨u, m, v, link, shadowing_distinct.numbers, aliases, marking.2 v aliases, marking.1.mp ⟨v, aliases⟩⟩

/-! ## Calls of functions -/

/-- If the node calls something by name, it is a function or a type. -/
def Node.CallsFunction (symbols : Symbols) : Node → Prop
  | .expr (.call i f as o k) =>
    f.isLocation = true → (Expr.call i f as o k).isCastCall = false → ∃ g, symbols.callee? f = some g
  | _ => True

section Calls

variable {symbols : Symbols}

theorem Symbols.callHasEffects_told {e : Expr} (h : (Node.expr e).CallsFunction symbols) :
    ∃ effects, symbols.callHasEffects e = .ok (some effects) := by
  cases e with
  | call i f as o k =>
    unfold Symbols.callHasEffects
    by_cases plain : (!f.isLocation || (Expr.call i f as o k).isCastCall) = true
    · exact ⟨false, by simp only [plain, if_true]⟩
    · simp only [Bool.or_eq_true, Bool.not_eq_true', not_or, Bool.not_eq_false, Bool.not_eq_true] at plain
      obtain ⟨g, hg⟩ := h plain.1 plain.2
      simp only [plain.1, plain.2, Bool.not_true, Bool.or_self, Bool.false_eq_true, if_false, hg]
      cases ht : f.target? with
      | none =>
        unfold Symbols.callee? at hg
        rw [ht] at hg
        cases hg
      | some r => exact ⟨_, rfl⟩
  | _ => exact ⟨false, rfl⟩

/-- Side effects of functions are always known. -/
theorem Symbols.haveEffects_told {ns : List Node} (h : ∀ n ∈ ns, n.CallsFunction symbols) :
    ∃ effects, symbols.haveEffects ns = .ok effects := by
  induction ns with
  | nil => exact ⟨false, by rw [haveEffects]⟩
  | cons n ns ih =>
    obtain ⟨own, rest⟩ := List.forall_mem_cons.mp h
    obtain ⟨later, hl⟩ := ih rest
    rw [haveEffects.eq_def]
    dsimp only
    rw [hl]
    cases n with
    | expr e =>
      obtain ⟨effects, he⟩ := Symbols.callHasEffects_told own
      dsimp only
      rw [he]
      exact ⟨_, rfl⟩
    | stmt s => cases s <;> exact ⟨_, rfl⟩
    | _ => exact ⟨_, rfl⟩

end Calls

/-! ## A variable that starts out with something built in -/

/-- A variable that starts out with the current time. -/
def clock : SourceUnit :=
  .sketch 100 "Clock" [] [.sketch 101 "run" "public" [] [.declareAt 102 .publicUint "start" (.nameAt 103 "now")]]

/-- The program is linked and returns nowhere, all of its statements are source statements, and yet it is not marked. -/
theorem clock_untracked : ∃ u m, clock.link 110 = .ok (u, m) ∧ clock.numbers.Nodup ∧ u.checkReturns = .ok () ∧
    (∀ c ∈ u.contracts, ∀ f ∈ c.allFunctions, ∀ p ∈ f.body.placed (c.labels f), p.2.isDirective = false) ∧
    ∃ e, u.markAliases = .error e := by
  obtain ⟨⟨u, m⟩, link, tested⟩ := exists_ok_of_any (x := clock.link 110)
    (p := fun l => l.1.checkReturns.toOption.isSome && !l.1.markAliases.toOption.isSome &&
      decide (∀ c ∈ l.1.contracts, ∀ f ∈ c.allFunctions, ∀ p ∈ f.body.placed (c.labels f), p.2.isDirective = false))
    (by decide +kernel)
  simp only [Bool.and_eq_true, Bool.not_eq_true', decide_eq_true_eq] at tested
  obtain ⟨⟨returns, failed⟩, source⟩ := tested
  refine ⟨u, m, link, by decide, ?_, source, ?_⟩
  · cases h : u.checkReturns with
    | error e =>
      rw [h] at returns
      cases returns
    | ok _ => rfl
  · cases h : u.markAliases with
    | error e => exact ⟨e, rfl⟩
    | ok v =>
      rw [h] at failed
      cases failed

end Shroud
