import Shroud.Proofs.Scoping

/-!
# Clashing names

A scope holds declarations of one or several sorts: a contract has state variables, functions, structs and enums, a
block has its variables. Before anything is linked, the names of the scopes are compared.

**Groups.** The declarations of one sort in one scope are a group. The names of functions and those of the variables of
a block or loop are compared with each other, which makes their group *guarded*; the groups of a contract are compared
with one another. Nothing compares two contracts, two state variables, two structs or enums, two parameters, members
or values: their names are collected, and of two equal names the later one counts.

**Results.**

* `SourceUnit.checkNames_iff`: the comparison accepts exactly the programs whose scopes are separate, which means that
  declarations of guarded groups and declarations of different groups do not share a name.
* `SourceUnit.link_separate`: a program that can be linked has separate scopes, and without them linking fails with a
  complaint about two declarations of the same name.
  A name that is declared twice in an accepted program stands for the last of its declarations.
* `redeclaring_links`: a contract with two state variables of the same name can be linked.
-/

namespace Shroud

/-! ## Groups of declarations -/

/-- Declarations of one sort that stand directly in one scope. -/
structure NameGroup where
  guarded : Bool
  names : Env

/-- A scope with the sorts of declarations in it. -/
abbrev NameScope := List NameGroup

namespace NameScope

/-- All names that are declared in the scope. -/
def names (s : NameScope) : Env := s.flatMap NameGroup.names

/-- What is guarded has one declaration for each name, and declarations of different sorts have different names. -/
structure IsSeparate (s : NameScope) : Prop where
  guarded : ∀ g ∈ s, g.guarded = true → g.names.Agrees
  apart : s.Pairwise fun g h => ∀ p ∈ g.names, ∀ q ∈ h.names, p.1 ≠ q.1

/-- The scope of a block or loop. -/
def ofLocals (vs : List LocalVar) : NameScope := [⟨true, vs.map LocalVar.entry⟩]

/-- A scope with one sort of declarations that nothing compares. -/
def unguarded (names : Env) : NameScope := [⟨false, names⟩]

theorem ofLocals_isSeparate {vs : List LocalVar} : (ofLocals vs).IsSeparate ↔ checkLocals vs = .ok () := by
  rw [checkLocals_iff]
  constructor
  · exact fun h => h.guarded _ (List.mem_singleton_self _) rfl
  · exact fun h => ⟨fun g hg _ => List.mem_singleton.mp hg ▸ h, List.pairwise_singleton _ _⟩

theorem unguarded_isSeparate (names : Env) : (unguarded names).IsSeparate :=
  ⟨fun g hg h => (by cases List.mem_singleton.mp hg; cases h), List.pairwise_singleton _ _⟩

end NameScope

section Agreement

variable {xs ys : Env}

theorem Env.agrees_append : Agrees (xs ++ ys) ↔ Agrees xs ∧ Agrees ys ∧ ∀ p ∈ xs, ∀ q ∈ ys, p.1 = q.1 → p.2 = q.2 := by
  constructor
  · intro h
    exact ⟨fun p hp q hq => h p (List.mem_append_left _ hp) q (List.mem_append_left _ hq),
      fun p hp q hq => h p (List.mem_append_right _ hp) q (List.mem_append_right _ hq),
      fun p hp q hq => h p (List.mem_append_left _ hp) q (List.mem_append_right _ hq)⟩
  · rintro ⟨left, right, across⟩ p hp q hq same
    rcases List.mem_append.mp hp with hp | hp <;> rcases List.mem_append.mp hq with hq | hq
    · exact left p hp q hq same
    · exact across p hp q hq same
    · exact (across q hq p hp same.symm).symm
    · exact right p hp q hq same

/-- Different declarations agree only if no name is used twice. -/
theorem Env.agrees_iff_nodup (different : (xs.map Prod.snd).Nodup) : Agrees xs ↔ (xs.map Prod.fst).Nodup := by
  induction xs with
  | nil => exact iff_of_true nofun List.nodup_nil
  | cons x xs ih =>
    obtain ⟨fresh, different⟩ := List.nodup_cons.mp different
    rw [agrees_cons, List.map_cons, List.nodup_cons, ih different]
    refine and_congr_left fun _ => ⟨fun h hx => ?_, fun h q hq same => ?_⟩
    · obtain ⟨q, hq, same⟩ := List.mem_map.mp hx
      exact fresh (List.mem_map.mpr ⟨q, hq, h q hq same⟩)
    · exact absurd (List.mem_map.mpr ⟨q, hq, same⟩) h

theorem Env.agrees_of_nodup (h : (xs.map Prod.fst).Nodup) : Agrees xs := fun _ hp _ hq same =>
  congrArg Prod.snd (List.inj_on_of_nodup_map h hp hq same)

/-- The names of an environment stay when they are collected. -/
theorem exists_mem_collectNames {p : String × Ref} (h : p ∈ xs) : ∃ q ∈ collectNames xs, q.1 = p.1 := by
  have known : ((collectNames xs).lookup p.1).isSome := by
    rw [lookup_collectNames, List.lookup_isSome_iff]
    exact ⟨p, List.mem_reverse.mpr h, beq_self_eq_true _⟩
  obtain ⟨r, hr⟩ := Option.isSome_iff_exists.mp known
  exact ⟨(p.1, r), mem_of_name hr, rfl⟩

/-- Collected groups of different sorts agree just when the groups share no name. -/
theorem agrees_collected {groups : List Env} (sorts : groups.Pairwise fun g h => ∀ p ∈ g, ∀ q ∈ h, p.2 ≠ q.2) :
    Env.Agrees (groups.map collectNames).flatten ↔ groups.Pairwise fun g h => ∀ p ∈ g, ∀ q ∈ h, p.1 ≠ q.1 := by
  induction groups with
  | nil => exact iff_of_true nofun .nil
  | cons g groups ih =>
    obtain ⟨first, sorts⟩ := List.pairwise_cons.mp sorts
    rw [List.map_cons, List.flatten_cons, Env.agrees_append, List.pairwise_cons, ih sorts]
    rw [and_iff_right (Env.agrees_of_nodup (nodup_collectNames g)), and_comm]
    refine and_congr_left fun _ => ⟨fun h k hk p hp q hq same => ?_, fun h p hp q hq same => ?_⟩
    · obtain ⟨p', hp', name⟩ := exists_mem_collectNames hp
      obtain ⟨q', hq', name'⟩ := exists_mem_collectNames hq
      exact first k hk p' (mem_collectNames hp') q' (mem_collectNames hq')
        (h p' hp' q' (List.mem_flatten.mpr ⟨_, List.mem_map_of_mem hk, hq'⟩) (by rw [name, name', same]))
    · obtain ⟨_, collected, hq⟩ := List.mem_flatten.mp hq
      obtain ⟨k, hk, rfl⟩ := List.mem_map.mp collected
      exact absurd same (h k hk p (mem_collectNames hp) q (mem_collectNames hq))

end Agreement

/-! ## The scopes of a program -/

mutual

/-- The scopes inside a statement. -/
def Stmt.scopes : Stmt → List NameScope
  | .ifThen _ _ t none => t.scopes
  | .ifThen _ _ t (some e) => t.scopes ++ e.scopes
  | .whileLoop _ _ b => b.scopes
  | .doWhile _ b _ => b.scopes
  | .forLoop _ init _ update b =>
    let inits := match init with
      | none => []
      | some s => s.scopes
    let updates := match update with
      | none => []
      | some s => s.scopes
    .ofLocals (Stmt.declared? init ++ Stmt.declared? update) :: (inits ++ (updates ++ b.scopes))
  | .block b => b.scopes
  | .seq _ ss _ => .ofLocals (Stmt.declaredAll ss) :: Stmt.scopesAll ss
  | _ => []

def Block.scopes : Block → List NameScope
  | ⟨_, ss, _⟩ => .ofLocals (Stmt.declaredAll ss) :: Stmt.scopesAll ss

def Stmt.scopesAll : List Stmt → List NameScope
  | [] => []
  | s :: ss => s.scopes ++ Stmt.scopesAll ss

end

/-- The parameters of a function, and the scopes of its body. -/
def FunctionDef.scopes (f : FunctionDef) : List NameScope := .unguarded f.entries :: f.body.scopes

namespace Contract

/-- The members of a contract; the functions have distinct names among themselves. -/
def scope (c : Contract) : NameScope :=
  [⟨false, c.stateVars.map fun v => (v.name, v.ref)⟩, ⟨true, c.functions.map fun f => (f.title, f.ref)⟩,
    ⟨false, c.structs.map fun s => (s.name, s.ref)⟩, ⟨false, c.enums.map fun e => (e.name, e.ref)⟩]

def scopes (c : Contract) : List NameScope :=
  c.scope :: (c.structs.map (fun s => .unguarded s.entries) ++
    (c.enums.map (fun e => .unguarded (e.values.map fun v => (v.name, Ref.decl .enumValue v.id))) ++
      c.allFunctions.flatMap FunctionDef.scopes))

end Contract

def SourceUnit.scopes (u : SourceUnit) : List NameScope := .unguarded u.entries :: u.contracts.flatMap Contract.scopes

/-! ## What linking compares -/

theorem Except.seq_ok_iff {x : Except Error Unit} {f : Unit → Except Error Unit} :
    (x >>= f) = .ok () ↔ x = .ok () ∧ f () = .ok () := by
  cases x with
  | error e => exact iff_of_false nofun fun h => nomatch h.1
  | ok _ => exact (and_iff_right rfl).symm

theorem except_for_ok_iff {α : Type} {f : α → Except Error Unit} {xs : List α} :
    (forIn xs PUnit.unit fun x _ => do f x; pure (.yield PUnit.unit)) = Except.ok PUnit.unit ↔
      ∀ x ∈ xs, f x = .ok () := by
  refine ⟨except_for_ok, fun h => ?_⟩
  induction xs with
  | nil => rfl
  | cons x xs ih =>
    rw [List.forIn_cons, h x List.mem_cons_self]
    exact ih fun y hy => h y (List.mem_cons_of_mem _ hy)

/-- All scopes are separate. -/
abbrev AllSeparate (scopes : List NameScope) : Prop := ∀ s ∈ scopes, s.IsSeparate

theorem Stmt.checkNamesAll_iff {ss : List Stmt} (each : ∀ s ∈ ss, s.checkNames = .ok () ↔ AllSeparate s.scopes) :
    Stmt.checkNamesAll ss = .ok () ↔ AllSeparate (Stmt.scopesAll ss) := by
  induction ss with
  | nil => exact iff_of_true rfl nofun
  | cons s ss ih =>
    refine Except.seq_ok_iff.trans ?_
    rw [each s List.mem_cons_self, ih fun t ht => each t (List.mem_cons_of_mem _ ht)]
    exact List.forall_mem_append.symm

/-- A list of statements and the scope that they share. -/
theorem checkLocals_scopes_iff {vs : List LocalVar} {x : Except Error Unit} {scopes : List NameScope}
    (h : x = .ok () ↔ AllSeparate scopes) :
    (x >>= fun _ => checkLocals vs) = .ok () ↔ AllSeparate (.ofLocals vs :: scopes) := by
  rw [Except.seq_ok_iff, h, ← NameScope.ofLocals_isSeparate, and_comm]
  exact List.forall_mem_cons.symm

theorem Block.checkNames_iff {b : Block} (each : ∀ s ∈ b.stmts, s.checkNames = .ok () ↔ AllSeparate s.scopes) :
    b.checkNames = .ok () ↔ AllSeparate b.scopes := by
  obtain ⟨i, ss, x⟩ := b
  exact checkLocals_scopes_iff (Stmt.checkNamesAll_iff each)

theorem Stmt.checkNames_iff (s : Stmt) : s.checkNames = .ok () ↔ AllSeparate s.scopes := by
  induction s using Stmt.inductOn with
  | ifThen i e t f thens elses =>
    cases f with
    | none => exact Block.checkNames_iff thens
    | some f =>
      refine Except.seq_ok_iff.trans ?_
      rw [Block.checkNames_iff thens, Block.checkNames_iff (elses f rfl)]
      exact List.forall_mem_append.symm
  | whileLoop i e b body => exact Block.checkNames_iff body
  | doWhile i b e body => exact Block.checkNames_iff body
  | forLoop i a e u b inits updates body =>
    have optional (t : Option Stmt) (h : ∀ s, t = some s → (s.checkNames = .ok () ↔ AllSeparate s.scopes)) :
        checkNames? t = .ok () ↔ AllSeparate ((t.map Stmt.scopes).getD []) := by
      cases t with
      | none => exact iff_of_true rfl nofun
      | some t => exact h t rfl
    have whole : (do checkNames? a; checkNames? u; b.checkNames; checkLocals (declared? a ++ declared? u)) = .ok () ↔
        AllSeparate (.ofLocals (declared? a ++ declared? u) ::
          ((a.map Stmt.scopes).getD [] ++ ((u.map Stmt.scopes).getD [] ++ b.scopes))) := by
      rw [AllSeparate, List.forall_mem_cons, List.forall_mem_append, List.forall_mem_append,
        NameScope.ofLocals_isSeparate, Except.seq_ok_iff, Except.seq_ok_iff, Except.seq_ok_iff, optional a inits,
        optional u updates, Block.checkNames_iff body]
      tauto
    cases a <;> cases u <;> exact whole
  | block b body => exact Block.checkNames_iff body
  | seq i ss x each => exact checkLocals_scopes_iff (Stmt.checkNamesAll_iff each)
  | simple s h => cases s <;> first | exact iff_of_true rfl nofun | cases h

theorem firstOverload?_none_iff {fs : List FunctionDef} {seen : List String} :
    firstOverload? seen fs = none ↔ (∀ f ∈ fs, f.title ∉ seen) ∧ (fs.map FunctionDef.title).Nodup := by
  induction fs generalizing seen with
  | nil => exact iff_of_true rfl ⟨List.forall_mem_nil _, List.nodup_nil⟩
  | cons f fs ih =>
    unfold firstOverload?
    rw [List.forall_mem_cons, List.map_cons, List.nodup_cons]
    split
    · rename_i h
      exact iff_of_false (Option.some_ne_none f) fun hf => hf.1.1 (List.contains_iff_mem.mp h)
    · rename_i h
      rw [ih]
      simp only [List.mem_cons, not_or, List.mem_map, not_exists, not_and]
      constructor
      · rintro ⟨other, nodup⟩
        exact ⟨⟨fun hf => h (List.contains_iff_mem.mpr hf), fun g hg => (other g hg).2⟩,
          fun g hg => (other g hg).1, nodup⟩
      · rintro ⟨⟨-, other⟩, fresh, nodup⟩
        exact ⟨fun g hg => ⟨fresh g hg, other g hg⟩, nodup⟩

/-- In the collected names the last entry of each name counts. -/
def Env.Overrides (entries names : Env) : Prop := ∀ n, names.lookup n = entries.reverse.lookup n

/-- Collecting the groups of a list before collecting them all changes no meaning. -/
theorem overrides_collected (groups : List Env) :
    Env.Overrides groups.flatten (collectNames (groups.map collectNames).flatten) := by
  intro n
  rw [lookup_collectNames]
  induction groups with
  | nil => rfl
  | cons g groups ih =>
    have last : (collectNames g).reverse.lookup n = g.reverse.lookup n := by
      rw [← lookup_collectNames, collectNames_of_nodup (nodup_collectNames g), lookup_collectNames]
    rw [List.map_cons, List.flatten_cons, List.flatten_cons, List.reverse_append, List.reverse_append,
      List.lookup_append, List.lookup_append, ih, last]

namespace Contract

/-- A member that is declared twice is the last of its declarations. -/
theorem overrides_names (c : Contract) : Env.Overrides c.entries c.names := by
  have groups : c.entries = [c.stateVars.map fun v => (v.name, v.ref), c.functions.map fun f => (f.title, f.ref),
      c.structs.map fun s => (s.name, s.ref), c.enums.map fun e => (e.name, e.ref)].flatten := by
    simp only [entries, List.flatten_cons, List.flatten_nil, List.append_nil, List.append_assoc]
  rw [groups]
  exact overrides_collected [_, _, _, _]

/-- The functions do not repeat names, and no name is used for different sorts of members. -/
theorem scope_isSeparate_iff {c : Contract} (different : (c.functions.map (·.id)).Nodup) :
    c.scope.IsSeparate ↔ firstOverload? [] c.functions = none ∧ checkConflict c.nameGroups.flatten = .ok () := by
  have functions : (Env.Agrees (c.functions.map fun f => (f.title, f.ref))) ↔ firstOverload? [] c.functions = none := by
    rw [Env.agrees_iff_nodup, firstOverload?_none_iff, List.map_map]
    · exact (and_iff_right fun f _ => List.not_mem_nil).symm
    · rw [List.map_map]
      exact List.Nodup.of_map Ref.id (by rw [List.map_map]; exact different)
  have groups : c.nameGroups = [c.stateVars.map fun v => (v.name, v.ref), c.functions.map fun f => (f.title, f.ref),
      c.structs.map fun s => (s.name, s.ref), c.enums.map fun e => (e.name, e.ref)].map collectNames := rfl
  have apart : (c.scope.map NameGroup.names).Pairwise (fun g h => ∀ p ∈ g, ∀ q ∈ h, p.1 ≠ q.1) ↔
      c.scope.Pairwise fun g h => ∀ p ∈ g.names, ∀ q ∈ h.names, p.1 ≠ q.1 := List.pairwise_map
  rw [checkConflict_iff, groups, agrees_collected, ← functions]
  · constructor
    · intro h
      exact ⟨h.guarded _ (List.mem_cons_of_mem _ List.mem_cons_self) rfl, apart.mpr h.apart⟩
    · rintro ⟨agrees, other⟩
      refine ⟨fun g hg guarded => ?_, apart.mp other⟩
      simp only [scope, List.mem_cons, List.not_mem_nil, or_false] at hg
      obtain rfl | rfl | rfl | rfl := hg
      · cases guarded
      · exact agrees
      · cases guarded
      · cases guarded
  · simp only [List.pairwise_cons, List.mem_cons, List.not_mem_nil, or_false, forall_eq_or_imp, forall_eq,
      List.forall_mem_map, StateVar.ref, FunctionDef.ref, StructDef.ref, EnumDef.ref, ne_eq, Ref.decl.injEq,
      reduceCtorEq, false_and, not_false_eq_true, implies_true, and_self, List.Pairwise.nil, false_imp_iff]

theorem checkNames_iff {c : Contract} (different : (c.functions.map (·.id)).Nodup) (text : List String) :
    c.checkNames text = .ok () ↔ AllSeparate c.scopes := by
  have bodies : (forIn c.allFunctions PUnit.unit fun f _ => do f.body.checkNames; pure (.yield PUnit.unit)) =
      Except.ok PUnit.unit ↔ AllSeparate (c.allFunctions.flatMap FunctionDef.scopes) := by
    rw [except_for_ok_iff]
    simp only [AllSeparate, List.forall_mem_flatMap, FunctionDef.scopes, List.forall_mem_cons,
      NameScope.unguarded_isSeparate, true_and]
    exact forall₂_congr fun f _ => Block.checkNames_iff fun s _ => s.checkNames_iff
  have spaces : AllSeparate c.scopes ↔
      c.scope.IsSeparate ∧ AllSeparate (c.allFunctions.flatMap FunctionDef.scopes) := by
    simp only [AllSeparate, scopes, List.forall_mem_cons, List.forall_mem_append, List.forall_mem_map,
      NameScope.unguarded_isSeparate, implies_true, true_and]
  unfold checkNames
  rw [Except.seq_ok_iff, bodies, spaces, scope_isSeparate_iff different, and_comm]
  refine and_congr_left fun _ => ?_
  split
  · rename_i h
    rw [h]
    exact iff_of_false (fun failed => by cases failed) fun hn => Option.some_ne_none _ hn.1
  · rename_i h
    exact (and_iff_right h).symm

end Contract

/-- The comparison of names accepts just the programs with separate scopes. -/
theorem SourceUnit.checkNames_iff {u : SourceUnit} (distinct : u.numbers.Nodup) :
    u.checkNames = .ok () ↔ AllSeparate u.scopes := by
  have contracts : (forIn u.contracts PUnit.unit fun c _ => do c.checkNames u.text; pure (.yield PUnit.unit)) =
      Except.ok PUnit.unit ↔ AllSeparate (u.contracts.flatMap Contract.scopes) := by
    rw [except_for_ok_iff]
    simp only [AllSeparate, List.forall_mem_flatMap]
    refine forall₂_congr fun c hc => Contract.checkNames_iff ?_ u.text
    have different := distinct.sublist u.functions_sublist
    rw [SourceUnit.allFunctions, List.map_flatMap] at different
    exact ((List.nodup_flatMap.mp different).1 c hc).sublist ((List.sublist_append_right _ _).map _)
  have first : AllSeparate u.scopes ↔ AllSeparate (u.contracts.flatMap Contract.scopes) := by
    simp only [AllSeparate, scopes, List.forall_mem_cons, NameScope.unguarded_isSeparate, true_and]
  rw [first, ← contracts]
  exact Except.seq_ok_iff.trans (and_iff_left rfl)

/-- A program that can be linked has separate scopes: the variables of a block or loop and the functions of a contract
have names of their own, and so have members of different sorts. If some scope is not separate, linking complains about
two declarations of the same name. Apart from that, the last declaration of a name is the one that counts. -/
theorem SourceUnit.link_separate {u : SourceUnit} (distinct : u.numbers.Nodup) (next : Nat) :
    (∀ r, u.link next = .ok r → ∀ s ∈ u.scopes, s.IsSeparate) ∧
    ((∃ s ∈ u.scopes, ¬ s.IsSeparate) → ∃ e, u.link next = .error e ∧ e.IsClash) ∧
    Env.Overrides u.entries u.names ∧ ∀ c ∈ u.contracts, Env.Overrides c.entries c.names ∧
      (∀ s ∈ c.structs, Env.Overrides s.entries s.names) ∧ ∀ f ∈ c.allFunctions, Env.Overrides f.entries f.names := by
  have start : (∃ e, u.checkNames = .error e ∧ u.link next = .error e) ∨ AllSeparate u.scopes := by
    cases names : u.checkNames with
    | error e => exact .inl ⟨e, rfl, by rw [link, names]; rfl⟩
    | ok _ => exact .inr ((checkNames_iff distinct).mp names)
  refine ⟨fun r hr => ?_, ?_, lookup_collectNames _, fun c _ => ⟨c.overrides_names,
    fun s _ => lookup_collectNames _, fun f _ => lookup_collectNames _⟩⟩
  · refine start.resolve_left fun stopped => ?_
    obtain ⟨e, _, he⟩ := stopped
    cases he.symm.trans hr
  · rintro ⟨s, hs, clash⟩
    obtain ⟨e, names, he⟩ := start.resolve_right fun separate => clash (separate s hs)
    exact ⟨e, he, u.checkNames_clashes e names⟩

/-- A parameter, a state variable and a variable of the body share a name, which is no clash; the second variable of
the body makes one. -/
def repeating : SourceUnit :=
  .sketch 100 "C" [⟨101, [], .publicUint, "x", none⟩]
    [.sketch 102 "write" "public" [.sketch 103 .publicUint "x"]
      [.declareAt 104 .publicUint "x" (.nameAt 105 "x"), .declareAt 106 .publicUint "x" (.nameAt 107 "x")]]

theorem repeating_fails : repeating.numbers.Nodup ∧ (∃ s ∈ repeating.scopes, ¬ s.IsSeparate) ∧
    ∃ e, repeating.link 120 = .error e ∧ e.IsClash := by
  have body : NameScope.ofLocals [⟨104, [], .publicUint, "x", none⟩, ⟨106, [], .publicUint, "x", none⟩] ∈
      repeating.scopes := List.mem_of_getElem? (i := 3) rfl
  have clash : ∃ s ∈ repeating.scopes, ¬ s.IsSeparate := ⟨_, body, fun h => by
    cases NameScope.ofLocals_isSeparate.mp h⟩
  exact ⟨by decide, clash, (SourceUnit.link_separate (by decide) 120).2.1 clash⟩

/-- Two state variables have the same name. -/
def redeclaring : SourceUnit :=
  .sketch 100 "C" [⟨101, [], .publicUint, "x", none⟩, ⟨102, [], .publicUint, "x", none⟩]
    [.sketch 103 "read" "public" [] [.eval default (.nameAt 104 "x")]]

/-- The contract can be linked although its scope has two declarations of one name. -/
theorem redeclaring_links : ∃ v n, redeclaring.link 120 = .ok (v, n) ∧ redeclaring.numbers.Nodup ∧
    (∃ s ∈ redeclaring.scopes, ¬ s.names.Agrees) ∧ Node.names v.nodes = [("x", some (.decl .stateVar 102))] := by
  obtain ⟨⟨v, n⟩, hv, names⟩ := exists_ok_of_any (x := redeclaring.link 120)
    (p := fun r => Node.names r.1.nodes = [("x", some (.decl .stateVar 102))]) (by decide +kernel)
  refine ⟨v, n, hv, by decide, ?_, of_decide_eq_true names⟩
  have members : redeclaring.scopes = [NameScope.unguarded redeclaring.entries,
      [⟨false, [("x", .decl .stateVar 101), ("x", .decl .stateVar 102)]⟩, ⟨true, [("read", .decl .function 103)]⟩,
        ⟨false, []⟩, ⟨false, []⟩], NameScope.unguarded [], NameScope.ofLocals []] := rfl
  refine ⟨_, members ▸ List.mem_cons_of_mem _ List.mem_cons_self, fun agrees => ?_⟩
  cases agrees ("x", .decl .stateVar 101) List.mem_cons_self ("x", .decl .stateVar 102)
    (List.mem_cons_of_mem _ List.mem_cons_self) rfl

end Shroud
