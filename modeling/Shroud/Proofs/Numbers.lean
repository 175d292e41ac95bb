import Mathlib.Data.List.Nodup
import Shroud.Proofs.Nodes
import Shroud.Proofs.Passes

/-!
# Numbers of declarations

Functions are looked up by their numbers. If no two declarations have the same number, the function that is found is
the one that bears the number.

**Kept by all passes.** The passes change types, marks and expressions, but neither add nor remove declarations: an
accepted program has the numbers of the fresh one.
-/

namespace Shroud

/-! ## Looking up functions -/

/-- The numbers of all declarations, the built-in ones included. -/
def SourceUnit.numbers (u : SourceUnit) : List Nat := u.symbols.entries.map Prod.fst

theorem lookup_of_mem {β : Type} {entries : List (Nat × β)} (h : (entries.map Prod.fst).Nodup) {k : Nat} {v : β}
    (hv : (k, v) ∈ entries) : entries.lookup k = some v := by
  induction entries with
  | nil => cases hv
  | cons e entries ih =>
    obtain ⟨fresh, nodup⟩ := List.nodup_cons.mp h
    rcases List.mem_cons.mp hv with rfl | hv
    · exact List.lookup_cons_self
    · have other : k ≠ e.1 := fun hk => fresh (List.mem_map.mpr ⟨(k, v), hv, hk⟩)
      rw [List.lookup_cons, beq_false_of_ne other]
      exact ih nodup hv

theorem mem_of_lookup {β : Type} {entries : List (Nat × β)} {k : Nat} {v : β} (h : entries.lookup k = some v) :
    (k, v) ∈ entries := by
  induction entries with
  | nil => cases h
  | cons e entries ih =>
    rw [List.lookup_cons] at h
    split at h
    · rename_i hk
      cases h
      rw [eq_of_beq hk]
      exact List.mem_cons_self
    · exact List.mem_cons_of_mem _ (ih h)

theorem Symbols.function?_eq_some {s : Symbols} {i : Nat} {f : FunctionDef} :
    s.function? i = some f ↔ ∃ c, s.entries.lookup i = some (.function f c) := by
  unfold function? find?
  cases s.entries.lookup i with
  | none => simp
  | some d => cases d <;> simp [Decl.function?]

theorem FunctionDef.mem_decls {f g : FunctionDef} {i : Nat} {c d : String} (h : (i, .function g d) ∈ f.decls c) :
    g = f ∧ i = f.id := by
  simp only [FunctionDef.decls, List.cons_append, List.mem_cons, List.mem_append, List.mem_map, Prod.mk.injEq,
    Decl.function.injEq] at h
  rcases h with ⟨rfl, rfl, rfl⟩ | ⟨p, _, hp⟩ | ⟨v, _, hv⟩
  · exact ⟨rfl, rfl⟩
  · cases hp
  · cases hv

theorem Contract.mem_decls {c : Contract} {f : FunctionDef} {i : Nat} {d : String}
    (h : (i, .function f d) ∈ c.decls) : f ∈ c.allFunctions ∧ i = f.id := by
  simp only [Contract.decls, List.cons_append, List.mem_cons, List.mem_append, List.mem_flatMap, List.mem_map] at h
  rcases h with h | ((⟨e, _, h⟩ | ⟨s, _, h⟩) | ⟨v, _, h⟩) | ⟨g, hg, h⟩
  · cases h
  · simp [EnumDef.decls] at h
  · simp [StructDef.decls, Decl.ofLocal] at h
  · cases h
  · obtain ⟨rfl, rfl⟩ := FunctionDef.mem_decls h
    exact ⟨hg, rfl⟩

/-- The only built-in functions are methods. -/
theorem Builtin.mem_decls {f : FunctionDef} {i : Nat} {c : String} (h : (i, .function f c) ∈ Builtin.decls) :
    f ∈ Builtin.methods ∧ f.id = i := by
  have functions : (Builtin.decls.filterMap fun e => e.2.function?.map fun g => (e.1, g)) =
      Builtin.methods.map fun g => (g.id, g) := rfl
  have found : (i, f) ∈ Builtin.methods.map fun g => (g.id, g) := by
    rw [← functions]
    exact List.mem_filterMap.mpr ⟨_, h, rfl⟩
  obtain ⟨g, hg, e⟩ := List.mem_map.mp found
  cases e
  exact ⟨hg, rfl⟩

namespace SourceUnit

/-- Every function that is found by a number bears it. -/
theorem function?_found {u : SourceUnit} {i : Nat} {f : FunctionDef} (h : u.symbols.function? i = some f) :
    (f ∈ u.allFunctions ∨ f ∈ Builtin.methods) ∧ f.id = i := by
  obtain ⟨c, h⟩ := Symbols.function?_eq_some.mp h
  rcases List.mem_append.mp (mem_of_lookup h) with h | h
  · obtain ⟨k, hk, h⟩ := List.mem_flatMap.mp h
    obtain ⟨hf, rfl⟩ := Contract.mem_decls h
    exact ⟨.inl (List.mem_flatMap.mpr ⟨k, hk, hf⟩), rfl⟩
  · obtain ⟨hf, hi⟩ := Builtin.mem_decls h
    exact ⟨.inr hf, hi⟩

/-- If no two declarations have the same number, every function is found by its own. -/
theorem function?_own {u : SourceUnit} (h : u.numbers.Nodup) {f : FunctionDef} (hf : f ∈ u.allFunctions) :
    u.symbols.function? f.id = some f := by
  obtain ⟨c, hc, hf⟩ := List.mem_flatMap.mp hf
  refine Symbols.function?_eq_some.mpr ⟨c.name, lookup_of_mem h ?_⟩
  refine List.mem_append_left _ (List.mem_flatMap.mpr ⟨c, hc, List.mem_append_right _ ?_⟩)
  exact List.mem_flatMap.mpr ⟨f, hf, List.mem_append_left _ List.mem_cons_self⟩

theorem eq_of_id {u : SourceUnit} (h : u.numbers.Nodup) {f g : FunctionDef} (hf : f ∈ u.allFunctions)
    (hg : g ∈ u.allFunctions) (same : f.id = g.id) : f = g := by
  have found := function?_own h hf
  rw [same, function?_own h hg] at found
  exact (Option.some.inj found).symm

end SourceUnit

/-! ## Numbers of the variables in a statement -/

/-- The numbers of the variables that the statement declares, on any level. -/
def Stmt.numbers (s : Stmt) : List Nat := (Node.locals s.nodes).map (·.id)

/-- The numbers of the variables that the block declares, on any level. -/
def Block.numbers (b : Block) : List Nat := b.locals.map (·.id)

/-- The numbers of the variables in an optional part. -/
def Stmt.numbers? (s : Option Stmt) : List Nat := (s.map Stmt.numbers).getD []

theorem Block.numbers_eq (b : Block) : b.numbers = (Node.locals b.nodes).map (·.id) := rfl

section Equations

variable (i : StmtInfo) (a u : Option Stmt) (c l r : Expr) (b t : Block) (ss : List Stmt) (x : Bool)

@[simp]
theorem Block.numbers_mk : Block.numbers ⟨i, ss, x⟩ = ss.flatMap Stmt.numbers := by
  show (Node.locals (.stmt _ :: Stmt.nodesAll ss)).map _ = _
  rw [Node.locals_stmt]
  induction ss with
  | nil => rfl
  | cons s ss ih =>
    rw [Stmt.nodesAll, Node.locals_append, List.map_append, ih]
    rfl

namespace Stmt

@[simp]
theorem numbers_block : (Stmt.block b).numbers = b.numbers := rfl

@[simp]
theorem numbers_ifThen (e : Option Block) :
    (Stmt.ifThen i c t e).numbers = t.numbers ++ (e.map Block.numbers).getD [] := by
  cases e <;> simp [numbers, nodes, Block.numbers_eq]

@[simp]
theorem numbers_whileLoop : (Stmt.whileLoop i c b).numbers = b.numbers := by
  simp [numbers, nodes, Block.numbers_eq]

@[simp]
theorem numbers_doWhile : (Stmt.doWhile i b c).numbers = b.numbers := by
  simp [numbers, nodes, Block.numbers_eq]

@[simp]
theorem numbers_forLoop :
    (Stmt.forLoop i a c u b).numbers = numbers? a ++ (numbers? u ++ b.numbers) := by
  cases a <;> cases u <;> simp [numbers, numbers?, nodes, Block.numbers_eq]

@[simp]
theorem numbers_seq : (Stmt.seq i ss x).numbers = ss.flatMap numbers := by
  rw [← Block.numbers_mk i ss x]
  rfl

@[simp]
theorem numbers_ret (e : Option Expr) : (Stmt.ret i e).numbers = [] := by
  simp [numbers, nodes]

@[simp]
theorem numbers_eval : (Stmt.eval i c).numbers = [] := by
  simp [numbers, nodes]

@[simp]
theorem numbers_require : (Stmt.require i c).numbers = [] := by
  simp [numbers, nodes]

@[simp]
theorem numbers_assign (o : String) : (Stmt.assign i l r o x).numbers = [] := by
  simp [numbers, nodes]

@[simp]
theorem numbers_declare (v : LocalVar) (e : Option Expr) : (Stmt.declare i v e).numbers = [v.id] := by
  have name (ns : List Node) : Node.locals (.name v.name :: ns) = Node.locals ns := rfl
  simp [numbers, nodes, LocalVar.nodes, name]

end Stmt

end Equations

/-- The variables of a function have different numbers if all declarations have. -/
theorem SourceUnit.body_numbers {u : SourceUnit} (h : u.numbers.Nodup) {f : FunctionDef} (hf : f ∈ u.allFunctions) :
    f.body.numbers.Nodup := by
  obtain ⟨c, hc, hf⟩ := List.mem_flatMap.mp hf
  have inContract : (c.decls.map Prod.fst).Nodup := by
    unfold SourceUnit.numbers SourceUnit.symbols at h
    rw [List.map_append, List.map_flatMap] at h
    exact (List.nodup_flatMap.mp (List.nodup_append.mp h).1).1 c hc
  have inFunction : ((f.decls c.name).map Prod.fst).Nodup := by
    unfold Contract.decls at inContract
    rw [List.map_append, List.map_flatMap] at inContract
    exact (List.nodup_flatMap.mp (List.nodup_append.mp inContract).2.1).1 f hf
  unfold FunctionDef.decls at inFunction
  rw [List.map_append, List.map_map] at inFunction
  exact (List.nodup_append.mp inFunction).2.1

/-! ## Passes over statements -/

/-- The second statement declares variables with the numbers of the first. -/
def Stmt.SameNumbers (s s' : Stmt) : Prop := s'.numbers = s.numbers

def Stmt.SameNumbers? (a a' : Option Stmt) : Prop := Stmt.numbers? a' = Stmt.numbers? a

def Stmt.SameNumbersAll (ss ss' : List Stmt) : Prop := ss'.flatMap Stmt.numbers = ss.flatMap Stmt.numbers

def Block.SameNumbers (b b' : Block) : Prop := b'.numbers = b.numbers

section SameNumbers

variable {i i' : StmtInfo} {s s' : Stmt} {ss ss' : List Stmt} {a a' u u' : Option Stmt} {c c' d d' : Expr}
  {b b' t t' : Block} {e e' : Option Expr} {v v' : LocalVar} {o o' : String} {x x' : Bool}

theorem Stmt.SameNumbersAll.cons (h : s.SameNumbers s') (hs : SameNumbersAll ss ss') :
    SameNumbersAll (s :: ss) (s' :: ss') := by
  unfold SameNumbersAll
  rw [List.flatMap_cons, List.flatMap_cons, h, hs]

theorem Block.SameNumbers.mk (h : Stmt.SameNumbersAll ss ss') : Block.SameNumbers ⟨i, ss, x⟩ ⟨i', ss', x'⟩ := by
  unfold SameNumbers
  rw [numbers_mk, numbers_mk, h]

namespace Stmt.SameNumbers

theorem some (h : s.SameNumbers s') : SameNumbers? (.some s) (.some s') := h

theorem ifThen (h : t.SameNumbers t') : (Stmt.ifThen i c t none).SameNumbers (.ifThen i' c' t' none) := by
  unfold SameNumbers
  rw [numbers_ifThen, numbers_ifThen, h]

theorem ifElse (h : t.SameNumbers t') (hb : b.SameNumbers b') :
    (Stmt.ifThen i c t (.some b)).SameNumbers (.ifThen i' c' t' (.some b')) := by
  unfold SameNumbers
  rw [numbers_ifThen, numbers_ifThen, h]
  exact congrArg _ hb

theorem whileLoop (h : b.SameNumbers b') : (Stmt.whileLoop i c b).SameNumbers (.whileLoop i' c' b') := by
  unfold SameNumbers
  rw [numbers_whileLoop, numbers_whileLoop, h]

theorem doWhile (h : b.SameNumbers b') : (Stmt.doWhile i b c).SameNumbers (.doWhile i' b' c') := by
  unfold SameNumbers
  rw [numbers_doWhile, numbers_doWhile, h]

theorem forLoop (ha : SameNumbers? a a') (hu : SameNumbers? u u') (hb : b.SameNumbers b') :
    (Stmt.forLoop i a c u b).SameNumbers (.forLoop i' a' c' u' b') := by
  unfold SameNumbers
  rw [numbers_forLoop, numbers_forLoop, ha, hu, hb]

theorem block (h : b.SameNumbers b') : (Stmt.block b).SameNumbers (.block b') := h

theorem seq (h : SameNumbersAll ss ss') : (Stmt.seq i ss x).SameNumbers (.seq i' ss' x') := by
  unfold SameNumbers
  rw [numbers_seq, numbers_seq, h]

theorem ret : (Stmt.ret i e).SameNumbers (.ret i' e') := by simp [SameNumbers]

theorem eval : (Stmt.eval i c).SameNumbers (.eval i' c') := by simp [SameNumbers]

theorem require : (Stmt.require i c).SameNumbers (.require i' c') := by simp [SameNumbers]

theorem assign : (Stmt.assign i c d o x).SameNumbers (.assign i' c' d' o' x') := by simp [SameNumbers]

theorem declare (h : v'.id = v.id) : (Stmt.declare i v e).SameNumbers (.declare i' v' e') := by
  simp [SameNumbers, h]

end Stmt.SameNumbers

end SameNumbers

/-! ### Accesses -/

theorem Stmt.markCalled_numbers (symbols : Symbols) (s : Stmt) : s.SameNumbers (s.markCalled symbols) := by
  have all (ss : List Stmt) (ih : ∀ s ∈ ss, s.SameNumbers (s.markCalled symbols)) :
      SameNumbersAll ss (Stmt.markCalledAll symbols ss) := by
    induction ss with
    | nil => rfl
    | cons s ss hss => exact .cons (ih s List.mem_cons_self) (hss fun t ht => ih t (List.mem_cons_of_mem _ ht))
  have body : ∀ b : Block, (∀ s ∈ b.stmts, s.SameNumbers (s.markCalled symbols)) →
      b.SameNumbers (b.markCalled symbols)
    | ⟨_, ss, _⟩, ih => .mk (all ss ih)
  induction s using Stmt.inductOn with
  | ifThen i c t e ht he =>
    cases e with
    | none => exact .ifThen (body t ht)
    | some e => exact .ifElse (body t ht) (body e (he e rfl))
  | whileLoop i c b hb => exact .whileLoop (body b hb)
  | doWhile i b c hb => exact .doWhile (body b hb)
  | forLoop i a c u b ha hu hb =>
    unfold Stmt.markCalled
    refine .forLoop ?_ ?_ (body b hb)
    · cases a with
      | none => rfl
      | some a => exact ha a rfl
    · cases u with
      | none => rfl
      | some u => exact hu u rfl
  | block b hb => exact body b hb
  | seq i ss x hs => exact .seq (all ss hs)
  | simple s hs =>
    cases s with
    | ret => exact .ret
    | eval => exact .eval
    | require => exact .require
    | assign => exact .assign
    | declare => exact .declare rfl
    | breakLoop | continueLoop | compute | enterKey | comment | blank => rfl
    | ifThen | whileLoop | doWhile | forLoop | block | seq => cases hs

section Failing

/-- The result has the property if the activity ends well. -/
def Delivers {ε α : Type} (P : α → Prop) (x : Except ε α) : Prop := ∀ a, x = .ok a → P a

variable {ε α β : Type} {P : α → Prop} {Q : β → Prop} {x : Except ε α} {f : α → Except ε β}

theorem Delivers.ok {a : α} (h : P a) : Delivers P (.ok a : Except ε α) := by
  rintro _ ⟨⟩
  exact h

theorem Delivers.error {e : ε} : Delivers P (.error e) := nofun

theorem Delivers.bind (hx : Delivers P x) (hf : ∀ a, P a → Delivers Q (f a)) : Delivers Q (x >>= f) := by
  intro b hb
  obtain ⟨a, ha, hb⟩ := except_bind_ok hb
  exact hf a (hx a ha) b hb

theorem Delivers.after (hf : ∀ a, Delivers Q (f a)) : Delivers Q (x >>= f) := by
  intro b hb
  obtain ⟨a, -, hb⟩ := except_bind_ok hb
  exact hf a b hb

end Failing

theorem Stmt.markOwn_numbers (site : Site) (s : Stmt) : Delivers s.SameNumbers (s.markOwn site) := by
  have all (ss : List Stmt) (ih : ∀ s ∈ ss, Delivers s.SameNumbers (s.markOwn site)) :
      Delivers (Stmt.SameNumbersAll ss) (Stmt.markOwnAll site ss) := by
    induction ss with
    | nil => exact .ok rfl
    | cons s ss hss =>
      exact (ih s List.mem_cons_self).bind fun s' h =>
        (hss fun t ht => ih t (List.mem_cons_of_mem _ ht)).bind fun ss' hs => .ok (.cons h hs)
  have body : ∀ b : Block, (∀ s ∈ b.stmts, Delivers s.SameNumbers (s.markOwn site)) →
      Delivers b.SameNumbers (b.markOwn site)
    | ⟨_, ss, _⟩, ih => (all ss ih).bind fun ss' h => .ok (.mk h)
  induction s using Stmt.inductOn with
  | ifThen i c t e ht he =>
    cases e with
    | none => exact (body t ht).bind fun t' h => .ok (.ifThen h)
    | some e => exact (body t ht).bind fun t' h => (body e (he e rfl)).bind fun e' h' => .ok (.ifElse h h')
  | whileLoop i c b hb => exact (body b hb).bind fun b' h => .ok (.whileLoop h)
  | doWhile i b c hb => exact (body b hb).bind fun b' h => .ok (.doWhile h)
  | forLoop i a c u b ha hu hb =>
    unfold Stmt.markOwn
    refine .bind (P := SameNumbers? a) ?_ fun a' ha' => .bind (P := SameNumbers? u) ?_ fun u' hu' =>
      (body b hb).bind fun b' h => .ok (.forLoop ha' hu' h)
    · cases a with
      | none => exact .ok rfl
      | some a => exact (ha a rfl).bind fun a' h => .ok h
    · cases u with
      | none => exact .ok rfl
      | some u => exact (hu u rfl).bind fun u' h => .ok h
  | block b hb => exact (body b hb).bind fun b' h => .ok h
  | seq i ss x hs => exact (all ss hs).bind fun ss' h => .ok (.seq h)
  | simple s hs =>
    cases s with
    | ret => exact .ok .ret
    | eval => exact .ok .eval
    | require => exact .ok .require
    | assign => exact .after fun _ => .ok .assign
    | declare => exact .ok (.declare rfl)
    | breakLoop | continueLoop | compute | enterKey | comment | blank => exact .ok rfl
    | ifThen | whileLoop | doWhile | forLoop | block | seq => cases hs

theorem Block.markCalled_numbers (symbols : Symbols) (b : Block) : b.SameNumbers (b.markCalled symbols) :=
  Stmt.markCalled_numbers symbols (.block b)

theorem Block.markOwn_numbers (site : Site) (b : Block) : Delivers b.SameNumbers (b.markOwn site) := by
  intro b' hb
  exact Stmt.markOwn_numbers site (.block b) (.block b') (by rw [Stmt.markOwn, hb]; rfl)

/-! ### Aliases -/

theorem Stmt.markAliases_numbers (symbols : Symbols) (k : Knowledge) (s : Stmt) :
    Delivers s.SameNumbers (s.markAliases symbols k) := by
  have all (ss : List Stmt) (ih : ∀ s ∈ ss, ∀ k, Delivers s.SameNumbers (s.markAliases symbols k)) (k : Knowledge) :
      Delivers (fun r => SameNumbersAll ss r.1) (Stmt.markAliasesAll symbols k ss) := by
    induction ss generalizing k with
    | nil => exact .ok rfl
    | cons s ss hss =>
      exact (ih s List.mem_cons_self k).bind fun s' h =>
        (hss (fun t ht => ih t (List.mem_cons_of_mem _ ht)) _).bind fun r hs => .ok (.cons h hs)
  have body : ∀ b : Block, (∀ s ∈ b.stmts, ∀ k, Delivers s.SameNumbers (s.markAliases symbols k)) → ∀ k,
      Delivers b.SameNumbers (b.markAliases symbols k)
    | ⟨_, ss, _⟩, ih, k => (all ss ih _).bind fun r h => .after fun _ => .ok (.mk h)
  induction s using Stmt.inductOn generalizing k with
  | ifThen i c t e ht he =>
    cases e with
    | none => exact .after fun _ => (body t ht _).bind fun t' h => .after fun _ => .ok (.ifThen h)
    | some e =>
      exact .after fun _ => (body t ht _).bind fun t' h => .after fun _ =>
        (body e (he e rfl) _).bind fun e' h' => .after fun _ => .ok (.ifElse h h')
  | whileLoop i c b hb =>
    exact .after fun _ => .after fun _ => (body b hb _).bind fun b' h => .after fun _ => .ok (.whileLoop h)
  | doWhile i b c hb => exact .after fun _ => (body b hb _).bind fun b' h => .after fun _ => .ok (.doWhile h)
  | forLoop i a c u b ha hu hb =>
    unfold Stmt.markAliases
    refine .bind (P := SameNumbers? a) ?_ fun a' ha' => .after fun _ => .after fun _ =>
      (body b hb _).bind fun b' h => .bind (P := SameNumbers? u) ?_ fun u' hu' => .after fun _ => .after fun _ =>
        .ok (.forLoop ha' hu' h)
    · cases a with
      | none => exact .ok rfl
      | some a => exact (ha a rfl _).bind fun a' h => .ok h
    · cases u with
      | none => exact .ok rfl
      | some u => exact (hu u rfl _).bind fun u' h => .ok h
  | block b hb => exact (body b hb _).bind fun b' h => .ok h
  | seq i ss x hs => exact (all ss hs _).bind fun ss' h => .ok (.seq h)
  | simple s hs =>
    cases s with
    | ret => exact .ok .ret
    | eval => exact .after fun _ => .ok .eval
    | require => exact .after fun _ => .after fun _ => .ok .require
    | assign => exact .after fun _ => .after fun _ => .ok .assign
    | declare i v e =>
      refine .after fun k => ?_
      dsimp only
      split
      · exact .error
      · split
        · exact .ok (.declare rfl)
        · exact .after fun _ => .ok (.declare rfl)
    | compute | enterKey => exact .error
    | breakLoop | continueLoop | comment | blank => exact .ok rfl
    | ifThen | whileLoop | doWhile | forLoop | block | seq => cases hs

theorem Block.markAliases_numbers (symbols : Symbols) (k : Knowledge) (b : Block) :
    Delivers b.SameNumbers (b.markAliases symbols k) := by
  intro b' hb
  exact Stmt.markAliases_numbers symbols k (.block b) (.block b') (by rw [Stmt.markAliases, hb]; rfl)

/-! ### Yields -/

theorem LocalVar.link_id (c : LinkContext) (v : LocalVar) : Yields (fun w => w.id = v.id) (v.link c) :=
  .after fun _ => .after fun _ => .pure rfl

theorem Stmt.link_numbers (c : LinkContext) (s : Stmt) : Yields s.SameNumbers (s.link c) := by
  have all (ss : List Stmt) (ih : ∀ s ∈ ss, ∀ c, Yields s.SameNumbers (s.link c)) (c : LinkContext) :
      Yields (SameNumbersAll ss) (Stmt.linkAll c ss) := by
    induction ss generalizing c with
    | nil => exact .pure rfl
    | cons s ss hss =>
      exact (ih s List.mem_cons_self c).bind fun s' h =>
        (hss (fun t ht => ih t (List.mem_cons_of_mem _ ht)) _).bind fun r hs => .pure (.cons h hs)
  have body : ∀ b : Block, (∀ s ∈ b.stmts, ∀ c, Yields s.SameNumbers (s.link c)) → ∀ c,
      Yields b.SameNumbers (b.link c)
    | ⟨_, ss, _⟩, ih, c => (all ss ih _).bind fun r h => .pure (.mk h)
  induction s using Stmt.inductOn generalizing c with
  | ifThen i e t f ht he =>
    cases f with
    | none => exact .after fun _ => (body t ht _).bind fun t' h => .pure (.ifThen h)
    | some f =>
      exact .after fun _ => (body t ht _).bind fun t' h => (body f (he f rfl) _).bind fun e' h' =>
        .pure (.ifElse h h')
  | whileLoop i e b hb => exact .after fun _ => (body b hb _).bind fun b' h => .pure (.whileLoop h)
  | doWhile i b e hb => exact (body b hb _).bind fun b' h => .after fun _ => .pure (.doWhile h)
  | forLoop i a e u b ha hu hb =>
    unfold Stmt.link
    refine .bind (P := SameNumbers? a) ?_ fun a' ha' => .after fun _ => .bind (P := SameNumbers? u) ?_ fun u' hu' =>
      (body b hb _).bind fun b' h => .pure (.forLoop ha' hu' h)
    · cases a with
      | none => exact .pure rfl
      | some a => exact (ha a rfl _).bind fun a' h => .pure h
    · cases u with
      | none => exact .pure rfl
      | some u => exact (hu u rfl _).bind fun u' h => .pure h
  | block b hb => exact (body b hb _).bind fun b' h => .pure h
  | seq i ss x hs => exact (all ss hs _).bind fun ss' h => .pure (.seq h)
  | simple s hs =>
    cases s with
    | ret => exact .after fun _ => .pure .ret
    | eval => exact .after fun _ => .pure .eval
    | require => exact .after fun _ => .pure .require
    | assign => exact .after fun _ => .after fun _ => .pure .assign
    | declare i v e => exact (v.link_id _).bind fun v' h => .after fun _ => .pure (.declare h)
    | breakLoop | continueLoop | compute | enterKey | comment | blank => exact .pure rfl
    | ifThen | whileLoop | doWhile | forLoop | block | seq => cases hs

theorem Block.link_numbers (c : LinkContext) (b : Block) : Yields b.SameNumbers (b.link c) := by
  intro s r hr
  refine Stmt.link_numbers c (.block b) s (.block r.1, r.2) ?_
  show (b.link c s >>= _) = _
  rw [hr]
  rfl

/-! ### Types -/

section Checking

open CheckM

variable (b : BodyContext)

theorem typeReturn_numbers (i : StmtInfo) (e : Option Expr) :
    Always (Stmt.ret i e).SameNumbers (typeReturn b i e) := by
  refine .after fun symbols => always_ensure rfl ?_
  split
  · exact always_ensure rfl (.pure rfl)
  · exact always_convert (fun _ => .ret) fun _ => .pure .ret
  · refine always_ensure rfl (always_convertAll (fun _ => .ret) fun es => ?_)
    exact always_attempt rfl fun _ => .pure .ret

theorem typeAssign_numbers (i : StmtInfo) (l r : Expr) (o : String) (x : Bool) :
    Always (Stmt.assign i l r o x).SameNumbers (typeAssign b i l r o x) :=
  .after fun _ => always_ensure .assign <| always_convert (fun _ => .assign) fun _ =>
    always_attempt .assign fun _ => .pure .assign

theorem typeDeclare_numbers (i : StmtInfo) (v : LocalVar) (e : Option Expr) :
    Always (Stmt.declare i v e).SameNumbers (typeDeclare b i v e) := by
  refine .after fun stop => ?_
  split
  · exact .pure rfl
  · refine .bind (P := fun w => w.id = v.id) (.after fun _ => .after fun _ => .pure rfl) fun w hw => ?_
    split
    · exact .pure (.declare hw)
    · exact .after fun _ => always_unlessStopped (.declare hw) <| .after fun _ =>
        always_convert (fun _ => .declare hw) fun _ => .pure (.declare hw)

theorem Stmt.check_numbers (s : Stmt) : Always s.SameNumbers (s.check b) := by
  have all (ss : List Stmt) (ih : ∀ s ∈ ss, Always s.SameNumbers (s.check b)) :
      Always (SameNumbersAll ss) (Stmt.checkAll b ss) := by
    induction ss with
    | nil => exact .pure rfl
    | cons s ss hss =>
      exact (ih s List.mem_cons_self).bind fun s' h =>
        (hss fun t ht => ih t (List.mem_cons_of_mem _ ht)).bind fun r hs => .pure (.cons h hs)
  have body : ∀ t : Block, (∀ s ∈ t.stmts, Always s.SameNumbers (s.check b)) → Always t.SameNumbers (t.check b)
    | ⟨_, ss, _⟩, ih => (all ss ih).bind fun r h => .pure (.mk h)
  have condition {s s' : Stmt} {x : Except Error Unit} (h : s.SameNumbers s') :
      Always s.SameNumbers (unlessStopped s' (attempt x s' fun _ => return s')) :=
    always_unlessStopped h (always_attempt h fun _ => .pure h)
  induction s using Stmt.inductOn with
  | ifThen i c t e ht he =>
    cases e with
    | none => exact .after fun _ => (body t ht).bind fun t' h => condition (.ifThen h)
    | some e =>
      exact .after fun _ => (body t ht).bind fun t' h => (body e (he e rfl)).bind fun e' h' =>
        condition (.ifElse h h')
  | whileLoop i c t hb => exact .after fun _ => (body t hb).bind fun b' h => condition (.whileLoop h)
  | doWhile i t c hb => exact (body t hb).bind fun b' h => .after fun _ => condition (.doWhile h)
  | forLoop i a c u t ha hu hb =>
    unfold Stmt.check
    refine .bind (P := SameNumbers? a) ?_ fun a' ha' => .after fun _ => .bind (P := SameNumbers? u) ?_ fun u' hu' =>
      (body t hb).bind fun b' h => condition (.forLoop ha' hu' h)
    · cases a with
      | none => exact .pure rfl
      | some a => exact (ha a rfl).bind fun a' h => .pure h
    · cases u with
      | none => exact .pure rfl
      | some u => exact (hu u rfl).bind fun u' h => .pure h
  | block t hb => exact (body t hb).bind fun b' h => .pure h
  | seq i ss x hs => exact (all ss hs).bind fun ss' h => .pure (.seq h)
  | simple s hs =>
    cases s with
    | ret i e =>
      cases e with
      | none => exact always_unlessStopped rfl (typeReturn_numbers b i none)
      | some e =>
        exact .after fun e' => always_unlessStopped .ret fun s =>
          (typeReturn_numbers b i (some e') s).trans SameNumbers.ret
    | eval i e => exact .after fun _ => .pure .eval
    | require i c =>
      exact .after fun _ => always_unlessStopped .require <| always_ensure .require <|
        always_attempt .require fun _ => .pure .require
    | assign i l r o x =>
      refine .after fun l' => .after fun r' => always_unlessStopped .assign fun s => ?_
      exact (typeAssign_numbers b i l' r' o x s).trans SameNumbers.assign
    | declare i v e => exact typeDeclare_numbers b i v e
    | breakLoop | continueLoop | compute | enterKey | comment | blank => exact .pure rfl
    | ifThen | whileLoop | doWhile | forLoop | block | seq => cases hs

theorem Block.check_numbers (t : Block) : Always t.SameNumbers (t.check b) := Stmt.check_numbers b (.block t)

end Checking

/-! ### Places -/

theorem Stmt.mapExprs_numbers (f : Expr → Expr) (s : Stmt) : s.SameNumbers (s.mapExprs f) := by
  unfold SameNumbers numbers
  rw [locals_mapExprs]

theorem Stmt.traverse_numbers {σ : Type} (f : Stmt → Expr → StateM σ Expr) (g : Stmt → AnnTy → StateM σ AnnTy)
    (s : Stmt) : Always s.SameNumbers (s.traverse f g) := by
  have all (ss : List Stmt) (ih : ∀ s ∈ ss, Always s.SameNumbers (s.traverse f g)) :
      Always (SameNumbersAll ss) (Stmt.traverseAll f g ss) := by
    induction ss with
    | nil => exact .pure rfl
    | cons s ss hss =>
      exact (ih s List.mem_cons_self).bind fun s' h =>
        (hss fun t ht => ih t (List.mem_cons_of_mem _ ht)).bind fun r hs => .pure (.cons h hs)
  have body : ∀ t : Block, (∀ s ∈ t.stmts, Always s.SameNumbers (s.traverse f g)) →
      Always t.SameNumbers (t.traverse f g)
    | ⟨_, ss, _⟩, ih => (all ss ih).bind fun r h => .pure (.mk h)
  induction s using Stmt.inductOn with
  | ifThen i c t e ht he =>
    cases e with
    | none => exact .after fun _ => (body t ht).bind fun t' h => .pure (.ifThen h)
    | some e =>
      exact .after fun _ => (body t ht).bind fun t' h => (body e (he e rfl)).bind fun e' h' => .pure (.ifElse h h')
  | whileLoop i c t hb => exact .after fun _ => (body t hb).bind fun b' h => .pure (.whileLoop h)
  | doWhile i t c hb => exact (body t hb).bind fun b' h => .after fun _ => .pure (.doWhile h)
  | forLoop i a c u t ha hu hb =>
    unfold Stmt.traverse
    refine .bind (P := SameNumbers? a) ?_ fun a' ha' => .after fun _ => .bind (P := SameNumbers? u) ?_ fun u' hu' =>
      (body t hb).bind fun b' h => .pure (.forLoop ha' hu' h)
    · cases a with
      | none => exact .pure rfl
      | some a => exact (ha a rfl).bind fun a' h => .pure h
    · cases u with
      | none => exact .pure rfl
      | some u => exact (hu u rfl).bind fun u' h => .pure h
  | block t hb => exact (body t hb).bind fun b' h => .pure h
  | seq i ss x hs => exact (all ss hs).bind fun ss' h => .pure (.seq h)
  | simple s hs =>
    cases s with
    | ret i e =>
      cases e with
      | none => exact .pure rfl
      | some e => exact .after fun _ => .pure .ret
    | eval => exact .after fun _ => .pure .eval
    | require => exact .after fun _ => .pure .require
    | assign => exact .after fun _ => .after fun _ => .pure .assign
    | declare i v e =>
      cases e with
      | none => exact .after fun _ => .pure (.declare rfl)
      | some e => exact .after fun _ => .after fun _ => .pure (.declare rfl)
    | breakLoop | continueLoop | compute | enterKey | comment | blank => exact .pure rfl
    | ifThen | whileLoop | doWhile | forLoop | block | seq => cases hs

theorem placingIf_numbers {b : BodyPlace} {cur : Bool} {c : Expr} {whole : Stmt} {branches : List Block}
    {next : BodyPlace → Bool → CheckM Stmt} (h : ∀ b cur, Always whole.SameNumbers (next b cur)) :
    Always whole.SameNumbers (placingIf b cur c whole branches next) := by
  refine .after fun stop => ?_
  have marked := whole.mapExprs_numbers (Expr.marked cur)
  split
  · exact .pure marked
  · split
    · exact h b cur
    · refine .after fun symbols => ?_
      split
      · exact CheckM.always_fail marked
      · split
        · exact h _ _
        · exact fun s => (Stmt.traverse_numbers _ _ (whole.marked cur) s).trans marked

theorem Stmt.place_numbers (b : BodyPlace) (cur : Bool) (s : Stmt) : Always s.SameNumbers (s.place b cur) := by
  have all (ss : List Stmt) (ih : ∀ s ∈ ss, ∀ b cur, Always s.SameNumbers (s.place b cur)) (b : BodyPlace)
      (cur : Bool) : Always (SameNumbersAll ss) (Stmt.placeAll b cur ss) := by
    induction ss with
    | nil => exact .pure rfl
    | cons s ss hss =>
      exact (ih s List.mem_cons_self b cur).bind fun s' h =>
        (hss fun t ht => ih t (List.mem_cons_of_mem _ ht)).bind fun r hs => .pure (.cons h hs)
  have body : ∀ t : Block, (∀ s ∈ t.stmts, ∀ b cur, Always s.SameNumbers (s.place b cur)) → ∀ b cur,
      Always t.SameNumbers (t.place b cur)
    | ⟨_, ss, _⟩, ih, b, cur => (all ss ih b cur).bind fun r h => .pure (.mk h)
  induction s using Stmt.inductOn generalizing b cur with
  | ifThen i c t e ht he =>
    cases e with
    | none =>
      exact placingIf_numbers fun b cur => .after fun _ => (body t ht b cur).bind fun t' h => .pure (.ifThen h)
    | some e =>
      exact placingIf_numbers fun b cur => .after fun _ => (body t ht b cur).bind fun t' h =>
        (body e (he e rfl) b cur).bind fun e' h' => .pure (.ifElse h h')
  | whileLoop i c t hb => exact .after fun _ => (body t hb b cur).bind fun b' h => .pure (.whileLoop h)
  | doWhile i t c hb => exact (body t hb b cur).bind fun b' h => .after fun _ => .pure (.doWhile h)
  | forLoop i a c u t ha hu hb =>
    unfold Stmt.place
    refine .bind (P := SameNumbers? a) ?_ fun a' ha' => .after fun _ => .bind (P := SameNumbers? u) ?_ fun u' hu' =>
      (body t hb b cur).bind fun b' h => .pure (.forLoop ha' hu' h)
    · cases a with
      | none => exact .pure rfl
      | some a => exact (ha a rfl b cur).bind fun a' h => .pure h
    · cases u with
      | none => exact .pure rfl
      | some u => exact (hu u rfl b cur).bind fun u' h => .pure h
  | block t hb => exact (body t hb b cur).bind fun b' h => .pure h
  | seq i ss x hs => exact (all ss hs b cur).bind fun ss' h => .pure (.seq h)
  | simple s hs =>
    cases s with
    | ret i e =>
      cases e with
      | none => exact .pure rfl
      | some e => exact .after fun _ => .pure .ret
    | eval => exact .after fun _ => .pure .eval
    | require => exact .after fun _ => .pure .require
    | assign => exact .after fun _ => .after fun _ => .pure .assign
    | declare i v e =>
      cases e with
      | none => exact .after fun _ => .pure (.declare rfl)
      | some e => exact .after fun _ => .after fun _ => .pure (.declare rfl)
    | breakLoop | continueLoop | compute | enterKey | comment | blank => exact .pure rfl
    | ifThen | whileLoop | doWhile | forLoop | block | seq => cases hs

theorem Block.place_numbers (b : BodyPlace) (cur : Bool) (t : Block) : Always t.SameNumbers (t.place b cur) :=
  Stmt.place_numbers b cur (.block t)

/-! ## Numbers of a program -/

/-- The numbers of the declarations of a function: its own, its parameters and its variables. -/
def FunctionDef.numbers (f : FunctionDef) : List Nat :=
  f.id :: ((f.params ++ f.returns).map (·.id) ++ f.body.numbers)

theorem FunctionDef.numbers_body {f : FunctionDef} {body : Block} {facts : FunctionFacts}
    (h : f.body.SameNumbers body) : { f with body := body, facts := facts }.numbers = f.numbers := by
  unfold FunctionDef.numbers
  rw [h]

def EnumDef.numbers (e : EnumDef) : List Nat := e.id :: e.values.map (·.id)

def StructDef.numbers (s : StructDef) : List Nat := s.id :: s.members.map (·.id)

theorem FunctionDef.decls_numbers (c : String) (f : FunctionDef) : (f.decls c).map Prod.fst = f.numbers := by
  simp [FunctionDef.decls, FunctionDef.numbers, Block.numbers, Decl.ofParam, Decl.ofLocal, Function.comp_def]

/-- Functions are among the declarations of a program. -/
theorem SourceUnit.functions_sublist (u : SourceUnit) : (u.allFunctions.map FunctionDef.id).Sublist u.numbers := by
  have functions (c : String) (fs : List FunctionDef) :
      (fs.map FunctionDef.id).Sublist ((fs.flatMap (FunctionDef.decls c)).map Prod.fst) := by
    induction fs with
    | nil => exact .slnil
    | cons f fs ih =>
      rw [List.flatMap_cons, List.map_append, f.decls_numbers]
      exact (ih.trans (List.sublist_append_right _ _)).cons_cons f.id
  have contracts (cs : List Contract) :
      ((cs.flatMap Contract.allFunctions).map FunctionDef.id).Sublist ((cs.flatMap Contract.decls).map Prod.fst) := by
    induction cs with
    | nil => exact .slnil
    | cons c cs ih =>
      rw [List.flatMap_cons, List.flatMap_cons, List.map_append, List.map_append]
      refine List.Sublist.append ?_ ih
      exact (functions c.name c.allFunctions).trans ((List.sublist_append_right _ _).map _)
  exact (contracts u.contracts).trans ((List.sublist_append_left _ _).map _)

/-- The name of a state variable and what it leads to. -/
def StateItem.entry? : StateItem → Option (String × Ref)
  | .var v => some (v.name, v.ref)
  | _ => none

theorem Contract.stateVars_entries (c : Contract) :
    c.stateVars.map (fun v => (v.name, v.ref)) = (c.state.map StateItem.entry?).filterMap fun e => e := by
  unfold stateVars
  rw [List.map_filterMap, List.filterMap_map]
  congr 1
  funext i
  cases i <;> rfl

/-- The second contract has declarations with the numbers of the first in the same places, and state variables with their
names. -/
structure Contract.SameNumbers (c d : Contract) : Prop where
  id : d.id = c.id
  enums : List.Forall₂ (fun x y => y.numbers = x.numbers) c.enums d.enums
  structs : List.Forall₂ (fun x y => y.numbers = x.numbers) c.structs d.structs
  state : List.Forall₂ (fun i j => j.entry? = i.entry?) c.state d.state
  constructors : List.Forall₂ (fun f g => g.numbers = f.numbers) c.constructors d.constructors
  functions : List.Forall₂ (fun f g => g.numbers = f.numbers) c.functions d.functions

theorem Contract.SameNumbers.trans {c d e : Contract} (h₁ : c.SameNumbers d) (h₂ : d.SameNumbers e) :
    c.SameNumbers e where
  id := h₂.id.trans h₁.id
  enums := forall₂_comp (fun _ _ _ h h' => h'.trans h) h₁.enums h₂.enums
  structs := forall₂_comp (fun _ _ _ h h' => h'.trans h) h₁.structs h₂.structs
  state := forall₂_comp (fun _ _ _ h h' => h'.trans h) h₁.state h₂.state
  constructors := forall₂_comp (fun _ _ _ h h' => h'.trans h) h₁.constructors h₂.constructors
  functions := forall₂_comp (fun _ _ _ h h' => h'.trans h) h₁.functions h₂.functions

theorem forall₂_flatMap_eq {α β : Type} {f : α → List β} {xs ys : List α}
    (h : List.Forall₂ (fun x y => f y = f x) xs ys) : ys.flatMap f = xs.flatMap f := by
  induction h with
  | nil => rfl
  | cons hx _ ih => rw [List.flatMap_cons, List.flatMap_cons, hx, ih]

theorem forall₂_map_eq {α β γ : Type} {f : α → γ} {g : β → γ} {xs : List α} {ys : List β}
    (h : List.Forall₂ (fun x y => g y = f x) xs ys) : ys.map g = xs.map f := by
  induction h with
  | nil => rfl
  | cons hx _ ih => rw [List.map_cons, List.map_cons, hx, ih]

theorem Contract.SameNumbers.stateVars {c d : Contract} (h : c.SameNumbers d) :
    d.stateVars.map (fun v => (v.name, v.ref)) = c.stateVars.map fun v => (v.name, v.ref) := by
  rw [d.stateVars_entries, c.stateVars_entries, forall₂_map_eq h.state]

theorem Contract.SameNumbers.decls {c d : Contract} (h : c.SameNumbers d) :
    d.decls.map Prod.fst = c.decls.map Prod.fst := by
  have enums (n : String) : (fun e : EnumDef => (e.decls n).map Prod.fst) = EnumDef.numbers := by
    funext e
    simp [EnumDef.decls, EnumDef.numbers, Function.comp_def]
  have structs (n : List String) : (fun s : StructDef => (s.decls n).map Prod.fst) = StructDef.numbers := by
    funext s
    simp [StructDef.decls, StructDef.numbers, Decl.ofLocal, Function.comp_def]
  have state : d.stateVars.map (Prod.fst ∘ Decl.ofState) = c.stateVars.map (Prod.fst ∘ Decl.ofState) := by
    have ids := congrArg (List.map fun e : String × Ref => e.2.id) h.stateVars
    rwa [List.map_map, List.map_map] at ids
  have functions : d.allFunctions.flatMap FunctionDef.numbers = c.allFunctions.flatMap FunctionDef.numbers :=
    forall₂_flatMap_eq (List.rel_append h.constructors h.functions)
  simp only [Contract.decls, List.map_cons, List.map_append, List.map_map, List.map_flatMap,
    FunctionDef.decls_numbers, enums, structs, functions, state, h.id, forall₂_flatMap_eq h.enums,
    forall₂_flatMap_eq h.structs]

namespace SourceUnit

/-- The second program has declarations with the numbers of the first in the same places. -/
def SameNumbers (u v : SourceUnit) : Prop := List.Forall₂ Contract.SameNumbers u.contracts v.contracts

theorem SameNumbers.numbers {u v : SourceUnit} (h : u.SameNumbers v) : v.numbers = u.numbers := by
  have contracts := forall₂_flatMap_eq (f := fun c : Contract => c.decls.map Prod.fst)
    (List.Forall₂.imp (fun _ _ => Contract.SameNumbers.decls) h)
  simp only [SourceUnit.numbers, symbols, List.map_append, List.map_flatMap, contracts]

theorem SameNumbers.trans {u v w : SourceUnit} (h : u.SameNumbers v) (k : v.SameNumbers w) : u.SameNumbers w :=
  forall₂_comp (R := Contract.SameNumbers) (S := Contract.SameNumbers) (fun _ _ _ => .trans) h k

/-- State variables have the same names and numbers. -/
theorem SameNumbers.stateVars {u v : SourceUnit} (h : u.SameNumbers v) :
    (v.contracts.flatMap fun c => c.stateVars.map fun x => (x.name, x.ref)) =
      u.contracts.flatMap fun c => c.stateVars.map fun x => (x.name, x.ref) :=
  forall₂_flatMap_eq (List.Forall₂.imp (fun _ _ => Contract.SameNumbers.stateVars) h)

/-- A pass over the functions. -/
theorem sameNumbers_functions {c : Contract} {constructors functions : List FunctionDef}
    (hc : List.Forall₂ (fun f g => g.numbers = f.numbers) c.constructors constructors)
    (hf : List.Forall₂ (fun f g => g.numbers = f.numbers) c.functions functions) :
    c.SameNumbers { c with constructors, functions } :=
  ⟨rfl, List.forall₂_same.mpr fun _ _ => rfl, List.forall₂_same.mpr fun _ _ => rfl,
    List.forall₂_same.mpr fun _ _ => rfl, hc, hf⟩

theorem mapFunctions_numbers {σ : Type} {f : Contract → FunctionDef → σ → FunctionDef × σ}
    (h : ∀ c g s, (f c g s).1.numbers = g.numbers) (u : SourceUnit) (s : σ) :
    u.SameNumbers (u.mapFunctions s f).1 := by
  refine foldl_forall₂ (fun p c => ⟨_, rfl, sameNumbers_functions ?_ ?_⟩) u.contracts s
  · exact foldl_forall₂ (fun q g => ⟨_, rfl, h c g q.2⟩) c.constructors p.2
  · exact foldl_forall₂ (fun q g => ⟨_, rfl, h c g q.2⟩) c.functions _

theorem mapFacts_numbers {f : Symbols → FunctionDef → FunctionFacts} (u : SourceUnit) :
    u.SameNumbers (u.mapFacts f) := mapFunctions_numbers (fun _ _ _ => rfl) u _

theorem visit_numbers {visit : Contract → FunctionDef → Except Error FunctionDef}
    (h : ∀ c f, Delivers (fun g => g.numbers = f.numbers) (visit c f)) {u : SourceUnit} {contracts : List Contract}
    (hm : (u.contracts.mapM fun c => do
      let constructors ← c.constructors.mapM (visit c)
      let functions ← c.functions.mapM (visit c)
      return { c with constructors, functions }) = .ok contracts) :
    u.SameNumbers { u with contracts } := by
  refine except_mapM_ok (fun c d hd => ?_) hm
  obtain ⟨constructors, hc, hd⟩ := except_bind_ok hd
  obtain ⟨functions, hf, hd⟩ := except_bind_ok hd
  cases hd
  exact sameNumbers_functions (except_mapM_ok (h c) hc) (except_mapM_ok (h c) hf)

theorem markAliases_same {u v : SourceUnit} (h : u.markAliases = .ok v) : u.SameNumbers v := by
  obtain ⟨contracts, hm, hv⟩ := except_bind_ok h
  cases hv
  refine visit_numbers (fun c f => ?_) hm
  exact (f.body.markAliases_numbers _ _).bind fun body hb => .ok (FunctionDef.numbers_body hb)

theorem markAliases_numbers {u v : SourceUnit} (h : u.markAliases = .ok v) : v.numbers = u.numbers :=
  (markAliases_same h).numbers

theorem markDirectCalls_same {u v : SourceUnit} (h : u.markDirectCalls = .ok v) : u.SameNumbers v := by
  obtain ⟨contracts, hm, hv⟩ := except_bind_ok h
  cases hv
  refine visit_numbers (fun c f => ?_) hm
  exact .after fun calls => .ok rfl

theorem markDirectCalls_numbers {u v : SourceUnit} (h : u.markDirectCalls = .ok v) : v.numbers = u.numbers :=
  (markDirectCalls_same h).numbers

theorem markCalls_same {u v : SourceUnit} (h : u.markCalls = .ok v) : u.SameNumbers v := by
  obtain ⟨w, hw, hv⟩ := except_bind_ok h
  cases hv
  exact (markDirectCalls_same hw).trans ((mapFacts_numbers _).trans (mapFacts_numbers _))

theorem markCalls_numbers {u v : SourceUnit} (h : u.markCalls = .ok v) : v.numbers = u.numbers :=
  (markCalls_same h).numbers

theorem SameNumbers.refl (u : SourceUnit) : u.SameNumbers u :=
  List.forall₂_same.mpr fun _ _ => sameNumbers_functions (List.forall₂_same.mpr fun _ _ => rfl)
    (List.forall₂_same.mpr fun _ _ => rfl)

theorem markCalled_same (n : Nat) (u : SourceUnit) : u.SameNumbers (u.markCalled n) := by
  induction n generalizing u with
  | zero => exact .refl u
  | succ n ih =>
    have once : u.SameNumbers u.markCalledOnce :=
      mapFunctions_numbers (fun _ f s => FunctionDef.numbers_body (f.body.markCalled_numbers s)) u _
    unfold markCalled
    simp only
    split
    · exact once
    · exact once.trans (ih _)

theorem markCalled_numbers (n : Nat) (u : SourceUnit) : (u.markCalled n).numbers = u.numbers :=
  (markCalled_same n u).numbers

theorem markAccesses_same {u v : SourceUnit} (h : u.markAccesses = .ok v) : u.SameNumbers v := by
  obtain ⟨w, hw, hv⟩ := except_bind_ok h
  cases hv
  obtain ⟨contracts, hm, hw⟩ := except_bind_ok hw
  cases hw
  refine SameNumbers.trans (visit_numbers (fun c f => ?_) hm) (markCalled_same _ _)
  exact (f.body.markOwn_numbers _).bind fun body hb => .ok (FunctionDef.numbers_body hb)

theorem markAccesses_numbers {u v : SourceUnit} (h : u.markAccesses = .ok v) : v.numbers = u.numbers :=
  (markAccesses_same h).numbers

theorem markCapable_same (u : SourceUnit) : u.SameNumbers u.markCapable :=
  (mapFacts_numbers _).trans (mapFacts_numbers _)

theorem markProofs_same (u : SourceUnit) : u.SameNumbers u.markProofs :=
  (mapFacts_numbers _).trans (mapFacts_numbers _)

theorem markProofs_numbers (u : SourceUnit) : u.markProofs.numbers = u.numbers := u.markProofs_same.numbers

theorem place_same (u : SourceUnit) (b : Bool) : u.SameNumbers (u.place b).1 := by
  refine stateM_mapM (fun c s => ?_) _ _
  refine sameNumbers_functions (stateM_mapM (fun f s => ?_) _ _) (stateM_mapM (fun f s => ?_) _ _) <;>
    exact FunctionDef.numbers_body (f.body.place_numbers _ _ s)

theorem place_numbers (u : SourceUnit) (b : Bool) : (u.place b).1.numbers = u.numbers := (u.place_same b).numbers

theorem markInlined_same (u : SourceUnit) : u.SameNumbers u.markInlined := by
  have bodies := u.mapFunctions_numbers (σ := Unit)
    (f := fun _ f _ => ({ f with body := f.body.mapExprs (Expr.markInlined u.symbols) }, ()))
    (fun _ g _ => FunctionDef.numbers_body ((Stmt.block g.body).mapExprs_numbers _)) ()
  refine bodies.trans (List.forall₂_map_right_iff.mpr (List.forall₂_same.mpr fun c _ => ?_))
  refine ⟨rfl, List.forall₂_same.mpr fun _ _ => rfl, List.forall₂_same.mpr fun _ _ => rfl,
    List.forall₂_map_right_iff.mpr (List.forall₂_same.mpr fun i _ => ?_), List.forall₂_same.mpr fun _ _ => rfl,
    List.forall₂_same.mpr fun _ _ => rfl⟩
  cases i <;> rfl

theorem markInlined_numbers (u : SourceUnit) : u.markInlined.numbers = u.numbers := u.markInlined_same.numbers

end SourceUnit

theorem Param.link_id (c : LinkContext) (p : Param) : Yields (fun q => q.id = p.id) (p.link c) := by
  obtain ⟨_, _, _, _, _, _⟩ := p
  exact .after fun _ => .after fun _ => .pure rfl

theorem Param.linkAll_ids (c : LinkContext) (ps : List Param) :
    Yields (fun qs => qs.map (·.id) = ps.map (·.id)) (Param.linkAll c ps) := by
  induction ps with
  | nil => exact .pure rfl
  | cons p ps ih =>
    refine (p.link_id c).bind fun q hq => ih.bind fun qs hqs => .pure ?_
    rw [List.map_cons, List.map_cons, hq, hqs]

theorem FunctionDef.link_numbers (c : LinkContext) (f : FunctionDef) :
    Yields (fun g => g.numbers = f.numbers) (f.link c) := by
  refine (Param.linkAll_ids _ f.params).bind fun params hp => ?_
  refine (Param.linkAll_ids _ f.returns).bind fun returns hr => ?_
  refine (f.body.link_numbers _).bind fun body hb => .after fun _ => .pure ?_
  unfold FunctionDef.numbers
  rw [List.map_append, List.map_append, hp, hr, hb]

theorem links_mapM {α β : Type} {R : α → β → Prop} {f : α → LinkM β} (h : ∀ a, Yields (R a) (f a)) (xs : List α) :
    Yields (List.Forall₂ R xs) (xs.mapM f) := fun _ _ hr =>
  state_mapM_ok (fun a s b t hb => h a s (b, t) hb) hr

theorem StateItem.link_entry (c : LinkContext) (i : StateItem) : Yields (fun j => j.entry? = i.entry?) (i.link c) := by
  cases i with
  | var v => exact .after fun t => .after fun _ => .after fun _ => .pure rfl
  | comment | blank => exact .pure rfl

theorem StructDef.link_numbers (c : LinkContext) (d : StructDef) :
    Yields (fun e => e.numbers = d.numbers) (d.link c) := by
  refine (links_mapM (fun m => LocalVar.link_id _ m) d.members).bind fun members h => .pure ?_
  exact congrArg (d.id :: ·) (forall₂_map_eq h)

theorem Contract.link_numbers (u : SourceUnit) (c : Contract) : Yields c.SameNumbers (c.link u) := by
  refine (links_mapM (StructDef.link_numbers _) c.structs).bind fun structs hs => ?_
  refine (links_mapM (StateItem.link_entry _) c.state).bind fun state hv => ?_
  refine (links_mapM (FunctionDef.link_numbers _) c.constructors).bind fun constructors hc => ?_
  refine (links_mapM (FunctionDef.link_numbers _) c.functions).bind fun functions hf => .pure ?_
  exact ⟨rfl, List.forall₂_same.mpr fun _ _ => rfl, hs, hv, hc, hf⟩

theorem SourceUnit.link_same {u v : SourceUnit} {next n : Nat} (h : u.link next = .ok (v, n)) : u.SameNumbers v := by
  unfold SourceUnit.link at h
  obtain ⟨_, _, h⟩ := except_bind_ok h
  obtain ⟨⟨contracts, s⟩, hm, h⟩ := except_bind_ok h
  cases h
  exact links_mapM (Contract.link_numbers u) u.contracts _ _ hm

theorem SourceUnit.link_numbers {u v : SourceUnit} {next n : Nat} (h : u.link next = .ok (v, n)) :
    v.numbers = u.numbers := (SourceUnit.link_same h).numbers

theorem Param.checkAll_ids (k : Option Knowledge) (spot : List Param → Site) (done ps : List Param) :
    Always (fun qs => qs.map (·.id) = (done ++ ps).map (·.id)) (Param.checkAll k spot done ps) := by
  induction ps generalizing done with
  | nil => exact .pure (by rw [List.append_nil])
  | cons p ps ih =>
    obtain ⟨i, ks, t, n, s, o⟩ := p
    refine .after fun t => .after fun _ st => (ih _ st).trans ?_
    simp

open CheckM in
theorem FunctionDef.check_numbers (site : Site) (f : FunctionDef) :
    Always (fun g => g.numbers = f.numbers) (f.check site) := by
  refine .after fun stop => ?_
  cases stop with
  | true => exact .pure rfl
  | false =>
    refine (Param.checkAll_ids none _ [] f.params).bind fun params hp => ?_
    refine (Param.checkAll_ids none _ [] f.returns).bind fun returns hr => .after fun _ => ?_
    refine (f.body.check_numbers _).bind fun body hb => .after fun _ => ?_
    have h : { f with params := params, returns := returns, body := body }.numbers = f.numbers := by
      unfold FunctionDef.numbers
      rw [List.map_append, List.map_append, hp, hr, hb]
      rfl
    exact always_unlessStopped h (always_ensure h (always_ensure h (.pure h)))

theorem EnumDef.check_numbers (c : String) (e : EnumDef) : Always (fun d => d.numbers = e.numbers) (e.check c) := by
  refine .after fun stop => ?_
  split
  · exact .pure rfl
  · refine .bind (P := fun vs => vs.map (·.id) = e.values.map (·.id)) (fun s => ?_) fun values h => .after fun _ =>
      .pure (congrArg (e.id :: ·) h)
    exact forall₂_map_eq (stateM_mapM (R := fun (v w : EnumValue) => w.id = v.id) (fun _ _ => rfl) e.values s)

theorem StructDef.check_numbers (site : Site) (d : StructDef) :
    Always (fun e => e.numbers = d.numbers) (d.check site) := by
  refine .bind (P := fun ms => ms.map (·.id) = d.members.map (·.id)) (fun s => ?_) fun members h =>
    .pure (congrArg (d.id :: ·) h)
  exact forall₂_map_eq (stateM_mapM (R := fun (v w : LocalVar) => w.id = v.id) (fun _ _ => rfl) d.members s)

open CheckM in
theorem StateVar.check_entry (site : Site) (v : StateVar) :
    Always (fun w : StateVar => (w.name, w.ref) = (v.name, v.ref)) (v.check site) := by
  have owned {w : StateVar} {p : Bool} {e : Error} (h : (w.name, w.ref) = (v.name, v.ref)) :
      Always (fun w : StateVar => (w.name, w.ref) = (v.name, v.ref)) (CheckM.ensure p e w (return w)) := always_ensure h (.pure h)
  refine .after fun t => .after fun _ => ?_
  dsimp only
  split
  · exact always_unlessStopped rfl (owned rfl)
  · refine .after fun e => always_unlessStopped rfl (always_ensure rfl (.after fun _ => ?_))
    exact always_convert (fun _ => rfl) fun _ => owned rfl

theorem StateItem.check_entry (site : Site) (i : StateItem) :
    Always (fun j => j.entry? = i.entry?) (i.check site) := by
  cases i with
  | var v =>
    refine .after fun stop => ?_
    split
    · exact .pure rfl
    · exact (v.check_entry site).bind fun w h => .pure (congrArg some h)
  | comment | blank => exact .pure rfl

theorem Contract.check_numbers (text : List String) (c : Contract) : Always c.SameNumbers (c.check text) := fun _ =>
  ⟨rfl, stateM_mapM (EnumDef.check_numbers _) _ _, stateM_mapM (StructDef.check_numbers _) _ _,
    stateM_mapM (StateItem.check_entry _) _ _, stateM_mapM (FunctionDef.check_numbers _) _ _,
    stateM_mapM (FunctionDef.check_numbers _) _ _⟩

theorem Contract.settle_numbers (symbols : Symbols) (c : Contract) : c.SameNumbers (c.settle symbols) := by
  refine SourceUnit.sameNumbers_functions ?_ ?_ <;>
    exact List.forall₂_map_right_iff.mpr (List.forall₂_same.mpr fun f _ =>
      FunctionDef.numbers_body ((Stmt.block f.body).mapExprs_numbers _))

namespace SourceUnit

theorem check_same (u : SourceUnit) : u.SameNumbers u.check.unit := by
  unfold SourceUnit.check
  split
  · exact .refl u
  · have checked := stateM_mapM (Contract.check_numbers u.text) u.contracts ⟨u.symbols, none, []⟩
    have settled (symbols : Symbols) (cs : List Contract) :
        List.Forall₂ Contract.SameNumbers cs (cs.map (Contract.settle symbols)) :=
      List.forall₂_map_right_iff.mpr (List.forall₂_same.mpr fun c _ => c.settle_numbers symbols)
    show List.Forall₂ _ _ (ite _ _ _)
    split
    · exact forall₂_comp (fun _ _ _ => .trans) checked (settled _ _)
    · exact checked

theorem check_numbers (u : SourceUnit) : u.check.unit.numbers = u.numbers := u.check_same.numbers

/-- The passes keep the numbers of all declarations. -/
theorem Accepted.same {u v : SourceUnit} {next : Nat} {o : Options} (h : u.Accepted next o v) : u.SameNumbers v := by
  cases h with
  | @intro _ _ _ accessed _ _ link _ aliases calls accesses _ _ places =>
    have placed := place_same accessed.check.unit.markCapable o.foldConstants.holds
    rw [congrArg Prod.fst places] at placed
    exact (link_same link).trans ((markAliases_same aliases).trans ((markCalls_same calls).trans
      ((markAccesses_same accesses).trans ((check_same _).trans ((markCapable_same _).trans (placed.trans ((markProofs_same _).trans
        (markInlined_same _))))))))

theorem Accepted.numbers {u v : SourceUnit} {next : Nat} {o : Options} (h : u.Accepted next o v) :
    v.numbers = u.numbers := h.same.numbers

end SourceUnit

end Shroud
