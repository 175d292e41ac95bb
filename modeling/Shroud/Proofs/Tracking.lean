import Shroud.Proofs.Labels
import Shroud.Proofs.Scoping

/-!
# When owners can be tracked through a program

Marking statements with what is known may fail for two reasons. The side effects of a part cannot be told, or a variable
starts out with the value of something that is no owner.

**Labels at a statement.** Around the body of a function the labels are the two keywords, the state variables and the
parameters. A block adds the variables of its statements, a `for` statement those of its first part and its update.
`Block.placed` lists all statements with the labels around them.

**Accounts.** `Succeeds x C P` says that `x` succeeds exactly if `C`, and then with a result that satisfies `P`.
Activities in a row succeed exactly if all their conditions hold.

**Result.** `Stmt.tracks`, `Block.tracks`: marking succeeds exactly if every statement can be tracked (`Stmt.Trackable`),
and then every statement is marked with states that list exactly the labels around it.
-/

namespace Shroud

/-! ## Activities that succeed on a condition -/

/-- The activity succeeds exactly on the condition, and then the result satisfies `P`. -/
def Succeeds {α : Type} (x : Except Error α) (C : Prop) (P : α → Prop) : Prop :=
  match x with
  | .ok a => C ∧ P a
  | .error _ => ¬ C

namespace Succeeds

variable {α β : Type} {x : Except Error α} {C D : Prop} {P P' : α → Prop} {Q : β → Prop}

theorem pure {a : α} (h : P a) : Succeeds (.ok a) True P := ⟨trivial, h⟩

theorem of_total (h : ∃ a, x = .ok a ∧ P a) : Succeeds x True P := by
  obtain ⟨a, rfl, ha⟩ := h
  exact ⟨trivial, ha⟩

theorem imp (h : Succeeds x C P) (hp : ∀ a, P a → P' a) : Succeeds x C P' := by
  cases x with
  | error e => exact h
  | ok a => exact ⟨h.1, hp a h.2⟩

theorem iff (h : Succeeds x C P) (same : C ↔ D) : Succeeds x D P := by
  cases x with
  | error e => exact fun hd => h (same.mpr hd)
  | ok a => exact ⟨same.mp h.1, h.2⟩

theorem bind {f : α → Except Error β} (hx : Succeeds x C P) (hf : ∀ a, P a → Succeeds (f a) D Q) :
    Succeeds (x >>= f) (C ∧ D) Q := by
  cases x with
  | error e => exact fun both => hx both.1
  | ok a =>
    show Succeeds (f a) (C ∧ D) Q
    exact (hf a hx.2).iff ⟨fun hd => ⟨hx.1, hd⟩, fun both => both.2⟩

/-- What follows always succeeds. -/
theorem andThen {f : α → Except Error β} (hx : Succeeds x C P) (hf : ∀ a, P a → Succeeds (f a) True Q) :
    Succeeds (x >>= f) C Q := (hx.bind hf).iff (iff_of_eq (and_true C))

/-- What comes first always succeeds. -/
theorem after {f : α → Except Error β} (hx : Succeeds x True P) (hf : ∀ a, P a → Succeeds (f a) D Q) :
    Succeeds (x >>= f) D Q := (hx.bind hf).iff (iff_of_eq (true_and D))

theorem exists_iff (h : Succeeds x C P) : (∃ a, x = .ok a) ↔ C := by
  cases x with
  | error e => exact ⟨fun ⟨_, ha⟩ => (nomatch ha), fun hc => absurd hc h⟩
  | ok a => exact ⟨fun _ => h.1, fun _ => ⟨a, rfl⟩⟩

theorem result {a : α} (h : Succeeds x C P) (ha : x = .ok a) : P a := by
  subst ha
  exact h.2

end Succeeds

theorem Succeeds.mapM {α β : Type} {f : α → Except Error β} {C : α → Prop} {R : α → β → Prop} {xs : List α}
    (each : ∀ x ∈ xs, Succeeds (f x) (C x) (R x)) : Succeeds (xs.mapM f) (∀ x ∈ xs, C x) (List.Forall₂ R xs) := by
  induction xs with
  | nil => exact ⟨List.forall_mem_nil C, .nil⟩
  | cons x xs ih =>
    rw [List.mapM_cons, List.forall_mem_cons]
    refine (each x List.mem_cons_self).bind fun y hy => ?_
    exact (ih fun z hz => each z (List.mem_cons_of_mem _ hz)).andThen fun ys hys => .pure (.cons hy hys)

/-! ## Side effects that can be told -/

/-- It can be told of the parts whether they have side effects, of each one as long as those before it have none. -/
def Symbols.Tells (symbols : Symbols) : List (List Node) → Prop
  | [] => True
  | p :: ps => ∃ effects, symbols.haveEffects p = .ok effects ∧ (effects = false → symbols.Tells ps)

section Known

variable {symbols : Symbols} {k : Knowledge} {ls : List Label} {c : Expr} {parts : List (List Node)}

theorem Knowledge.Lists.past (h : k.Lists ls) (parts : List (List Node)) :
    Succeeds (k.past symbols parts) (symbols.Tells parts) fun k' =>
      k'.Lists ls ∧ ∀ p ∈ parts.head?, ∃ effects, symbols.haveEffects p = .ok effects := by
  induction parts with
  | nil => exact .pure ⟨h, nofun⟩
  | cons p ps ih =>
    unfold Knowledge.past Symbols.Tells
    cases he : symbols.haveEffects p with
    | error e => exact fun ⟨_, known, _⟩ => nomatch known
    | ok effects =>
      have head : ∀ q ∈ (p :: ps).head?, ∃ effects, symbols.haveEffects q = .ok effects := by
        rintro q ⟨⟩
        exact ⟨effects, he⟩
      cases effects with
      | true => exact ⟨⟨true, rfl, nofun⟩, h.relisted (Partition.separate_relists k _), head⟩
      | false =>
        refine (ih.imp fun k' hk => ⟨hk.1, head⟩).iff ?_
        simp

theorem Knowledge.Lists.assuming (h : k.Lists ls) (negated : Bool) (known : ∃ effects, c.hasEffects symbols = .ok effects) :
    ∃ k', k.assuming symbols c negated = .ok k' ∧ k'.Lists ls := by
  cases hk : k.assuming symbols c negated with
  | ok k' => exact ⟨k', rfl, h.relisted (Knowledge.assuming_relists hk)⟩
  | error e =>
    obtain ⟨effects, he⟩ := known
    cases he.symm.trans (Knowledge.assuming_error.mp hk)

theorem Knowledge.Lists.condition (h : k.Lists ls) (negated : Bool) :
    Succeeds (k.assuming symbols c negated) (symbols.Tells [c.nodes]) fun k' =>
      k'.Lists ls ∧ ∃ effects, c.hasEffects symbols = .ok effects := by
  cases he : c.hasEffects symbols with
  | error e =>
    rw [Knowledge.assuming_error.mpr he]
    rintro ⟨effects, known, -⟩
    cases he.symm.trans known
  | ok effects =>
    obtain ⟨k', hk, listed⟩ := h.assuming negated ⟨effects, he⟩
    rw [hk]
    exact ⟨⟨effects, he, fun _ => trivial⟩, listed, effects, rfl⟩

theorem Knowledge.Lists.afterLoop {iterated : Knowledge} (h : k.Lists ls) (h' : iterated.Lists ls)
    (known : ∃ effects, c.hasEffects symbols = .ok effects) :
    ∃ k', Knowledge.afterLoop symbols c k iterated = .ok k' ∧ k'.Lists ls := by
  obtain ⟨p, hp, listed⟩ := h.assuming true known
  obtain ⟨q, hq, listed'⟩ := h'.assuming true known
  obtain ⟨r, hr, joined⟩ := listed.join_total listed'
  refine ⟨r, ?_, joined⟩
  unfold Knowledge.afterLoop
  rw [hp]
  show (iterated.assuming symbols c true >>= fun b => Knowledge.ofResult (p.join b)) = _
  rw [hq]
  show Knowledge.ofResult (p.join q) = _
  rw [hr]
  rfl

theorem Partition.merge_iff {α : Type} [DecidableEq α] {p : Partition α} {x y : α} (hx : p.has x = true) :
    (p.merge x y).1 = .ok () ↔ p.has y = true := by
  refine ⟨fun done => ?_, Partition.merge_of_has hx⟩
  obtain ⟨i, hi⟩ := Partition.index?_of_has hx
  unfold Partition.merge at done
  rw [hi] at done
  cases hj : p.index? y with
  | none =>
    rw [hj] at done
    cases done
  | some j => exact Option.isSome_iff_exists.mpr ⟨j, hj⟩

end Known

/-! ## The labels around a statement -/

mutual

/-- The statement and those inside it, each with the labels around it. -/
def Stmt.placed (ls : List Label) : Stmt → List (List Label × Stmt)
  | .ifThen i c t none => (ls, .ifThen i c t none) :: t.placed ls
  | .ifThen i c t (some e) => (ls, .ifThen i c t (some e)) :: (t.placed ls ++ e.placed ls)
  | .whileLoop i c b => (ls, .whileLoop i c b) :: b.placed ls
  | .doWhile i b c => (ls, .doWhile i b c) :: b.placed ls
  | .forLoop i init c update b =>
    let inner := ls ++ (Stmt.declared? init ++ Stmt.declared? update).map LocalVar.label
    (ls, .forLoop i init c update b) ::
      ((match init with
        | none => []
        | some s => s.placed inner) ++
      (b.placed inner ++
      (match update with
        | none => []
        | some s => s.placed inner)))
  | .block b => b.placed ls
  | .seq i ss x => (ls, .seq i ss x) :: Stmt.placedAll ls ss
  | s => [(ls, s)]

def Block.placed (ls : List Label) : Block → List (List Label × Stmt)
  | ⟨i, ss, x⟩ => (ls, .block ⟨i, ss, x⟩) :: Stmt.placedAll (ls ++ (Stmt.declaredAll ss).map LocalVar.label) ss

def Stmt.placedAll (ls : List Label) : List Stmt → List (List Label × Stmt)
  | [] => []
  | s :: ss => s.placed ls ++ Stmt.placedAll ls ss

end

/-- The statements of an optional part. -/
def Stmt.placed? (ls : List Label) (s : Option Stmt) : List (List Label × Stmt) := (s.map (Stmt.placed ls)).getD []

theorem Stmt.placed_forLoop (ls : List Label) (i : StmtInfo) (init update : Option Stmt) (c : Expr) (b : Block) :
    (Stmt.forLoop i init c update b).placed ls = (ls, .forLoop i init c update b) ::
      (Stmt.placed? (ls ++ (Stmt.declared? init ++ Stmt.declared? update).map LocalVar.label) init ++
      (b.placed (ls ++ (Stmt.declared? init ++ Stmt.declared? update).map LocalVar.label) ++
      Stmt.placed? (ls ++ (Stmt.declared? init ++ Stmt.declared? update).map LocalVar.label) update)) := by
  cases init <;> cases update <;> rfl

namespace Stmt

/-- The parts of a statement whose side effects matter, in the order in which they are looked at. -/
def consulted : Stmt → List (List Node)
  | .ifThen _ c _ _ => [c.nodes]
  | .whileLoop _ c b | .doWhile _ b c => [c.nodes, b.nodes]
  | .forLoop _ _ c update b => [c.nodes, b.nodes, (update.map Stmt.nodes).getD []]
  | .eval _ e | .require _ e => [e.nodes]
  | .assign _ l r _ _ => [l.nodes, r.nodes]
  | .declare _ _ e => [Expr.nodes? e]
  | _ => []

/-- What a declared variable is known to be equal to. -/
def initial? : Stmt → Option Label
  | .declare _ _ e => e.bind Expr.label?
  | _ => none

/-- A statement that only compiled code has. -/
def isDirective : Stmt → Bool
  | .compute .. | .enterKey .. => true
  | _ => false

/-- The variables that a statement adds to the labels around it, for itself and its parts. -/
def ownLabels : Stmt → List Label
  | .forLoop _ init _ update _ => (Stmt.declared? init ++ Stmt.declared? update).map LocalVar.label
  | _ => []

/-- The statement can be marked with what is known: the side effects of its parts can be told, and what it equates a
new variable with is among the labels around it. -/
structure Trackable (symbols : Symbols) (ls : List Label) (s : Stmt) : Prop where
  source : s.isDirective = false
  told : symbols.Tells s.consulted
  initial : ∀ l, s.initial? = some l → l ∈ ls

/-- The statement, unless it is a comment, is marked with states that list exactly the labels around it; before a
`for` statement these are also its own variables. -/
def Exact (ls : List Label) (s : Stmt) : Prop :=
  ∀ i, s.info? = some i → ∃ before after : Knowledge, i.before = some before ∧ i.after = some after ∧
    before.Lists (ls ++ s.ownLabels) ∧ after.Lists ls

/-- All statements in a list can be tracked. -/
abbrev AllTrackable (symbols : Symbols) (ps : List (List Label × Stmt)) : Prop := ∀ p ∈ ps, p.2.Trackable symbols p.1

/-- All statements in a list are marked exactly. -/
abbrev AllExact (ps : List (List Label × Stmt)) : Prop := ∀ p ∈ ps, p.2.Exact p.1

end Stmt

section Lists

variable {symbols : Symbols} {ls : List Label} {s : Stmt} {ps qs : List (List Label × Stmt)}

theorem Stmt.allTrackable_cons :
    Stmt.AllTrackable symbols ((ls, s) :: ps) ↔ s.Trackable symbols ls ∧ Stmt.AllTrackable symbols ps :=
  List.forall_mem_cons

theorem Stmt.allTrackable_append :
    Stmt.AllTrackable symbols (ps ++ qs) ↔ Stmt.AllTrackable symbols ps ∧ Stmt.AllTrackable symbols qs :=
  List.forall_mem_append

theorem Stmt.allTrackable_singleton : Stmt.AllTrackable symbols [(ls, s)] ↔ s.Trackable symbols ls :=
  List.forall_mem_singleton

theorem Stmt.allExact_singleton (h : s.Exact ls) : Stmt.AllExact [(ls, s)] := List.forall_mem_singleton.mpr h

theorem Stmt.AllExact.cons (h : s.Exact ls) (hs : Stmt.AllExact ps) : Stmt.AllExact ((ls, s) :: ps) :=
  List.forall_mem_cons.mpr ⟨h, hs⟩

theorem Stmt.AllExact.append (h : Stmt.AllExact ps) (hs : Stmt.AllExact qs) : Stmt.AllExact (ps ++ qs) :=
  List.forall_mem_append.mpr ⟨h, hs⟩

/-- Only side effects stand in the way of statements that declare nothing. -/
theorem Stmt.trackable_iff (source : s.isDirective = false) (initial : s.initial? = none) :
    s.Trackable symbols ls ↔ symbols.Tells s.consulted :=
  ⟨fun h => h.told, fun told => ⟨source, told, fun _ hl => nomatch initial.symm.trans hl⟩⟩

/-- A statement without own labels whose marks list exactly the labels around it. -/
theorem Stmt.exact_of_known {i : StmtInfo} {before after : Knowledge} (info : s.info? = some (i.known before after))
    (own : s.ownLabels = []) (hb : before.Lists ls) (ha : after.Lists ls) : s.Exact ls := by
  intro j hj
  cases info.symm.trans hj
  rw [own, List.append_nil]
  exact ⟨before, after, rfl, rfl, hb, ha⟩

end Lists

/-! ## Marking statements -/

/-- What the surroundings promise: the state lists exactly these labels, the variables declared for them are among
them, and those of blocks inside have numbers of their own. -/
structure Knowledge.Surrounds (k : Knowledge) (ls : List Label) (declared : List LocalVar) (inner : List Nat) :
    Prop where
  lists : k.Lists ls
  known : ∀ v ∈ declared, v.label ∈ ls
  nodup : inner.Nodup
  apart : Label.Apart ls inner

/-- What marking makes of a statement. -/
structure Stmt.Tracked (k : Knowledge) (ls : List Label) (s s' : Stmt) : Prop where
  exact : Stmt.AllExact (s'.placed ls)
  after : Knowledge.Lists (s'.info.after.getD k) ls
  declared : s'.declared = s.declared

/-- Marking the statement succeeds exactly if it and all statements inside can be tracked. -/
def Stmt.Tracks (symbols : Symbols) (s : Stmt) : Prop :=
  ∀ k ls, Knowledge.Surrounds k ls s.declared s.innerNumbers →
    Succeeds (s.markAliases symbols k) (Stmt.AllTrackable symbols (s.placed ls)) (s.Tracked k ls)

section Tracks

variable {symbols : Symbols} {k : Knowledge} {ls : List Label}

theorem Label.Apart.mono {ids ids' : List Nat} (h : Label.Apart ls ids) (sub : ids' ⊆ ids) : Label.Apart ls ids' :=
  fun i hi => h i (sub hi)

/-- Labels that come into scope have other numbers than those still to come. -/
theorem Label.Apart.enter {vs : List LocalVar} {ids : List Nat} (h : Label.Apart ls ids)
    (nodup : (vs.map (·.id) ++ ids).Nodup) : Label.Apart (ls ++ vs.map LocalVar.label) ids := by
  intro i hi n hm
  rcases List.mem_append.mp hm with hm | hm
  · exact h i hi n hm
  · obtain ⟨v, hv, same⟩ := List.mem_map.mp hm
    cases same
    exact (List.nodup_append.mp nodup).2.2 _ (List.mem_map.mpr ⟨v, hv, rfl⟩) _ hi rfl

theorem Knowledge.Lists.surrounds (h : k.Lists ls) {vs : List LocalVar} {ids : List Nat}
    (nodup : (vs.map (·.id) ++ ids).Nodup) (apart : Label.Apart ls (vs.map (·.id) ++ ids)) :
    (k.enter vs).Surrounds (ls ++ vs.map LocalVar.label) vs ids where
  lists := h.enter (List.nodup_append.mp nodup).1 (apart.mono (List.subset_append_left _ _))
  known v hv := List.mem_append_right _ (List.mem_map.mpr ⟨v, hv, rfl⟩)
  nodup := (List.nodup_append.mp nodup).2.1
  apart := (apart.mono (List.subset_append_right _ _)).enter nodup

theorem Stmt.tracksAll {ss : List Stmt} (each : ∀ s ∈ ss, s.Tracks symbols)
    (h : k.Surrounds ls (Stmt.declaredAll ss) (Stmt.innerNumbersAll ss)) :
    Succeeds (Stmt.markAliasesAll symbols k ss) (Stmt.AllTrackable symbols (Stmt.placedAll ls ss)) fun r =>
      Stmt.AllExact (Stmt.placedAll ls r.1) ∧ r.2.Lists ls ∧ Stmt.declaredAll r.1 = Stmt.declaredAll ss := by
  induction ss generalizing k with
  | nil => exact ⟨List.forall_mem_nil _, List.forall_mem_nil _, h.lists, rfl⟩
  | cons s ss ih =>
    obtain ⟨lists, known, nodup, apart⟩ := h
    rw [Stmt.declaredAll, List.forall_mem_append] at known
    rw [Stmt.innerNumbersAll] at nodup apart
    rw [Stmt.placedAll, Stmt.allTrackable_append]
    unfold Stmt.markAliasesAll
    have first : k.Surrounds ls s.declared s.innerNumbers :=
      ⟨lists, known.1, (List.nodup_append.mp nodup).1, apart.mono (List.subset_append_left _ _)⟩
    refine (each s List.mem_cons_self k ls first).bind fun s' hs => ?_
    have rest : Knowledge.Surrounds (s'.info.after.getD k) ls (Stmt.declaredAll ss) (Stmt.innerNumbersAll ss) :=
      ⟨hs.after, known.2, (List.nodup_append.mp nodup).2.1, apart.mono (List.subset_append_right _ _)⟩
    refine (ih (fun t ht => each t (List.mem_cons_of_mem _ ht)) rest).andThen fun r hr => .pure ⟨?_, hr.2.1, ?_⟩
    · exact hs.exact.append hr.1
    · rw [Stmt.declaredAll, Stmt.declaredAll, hs.declared, hr.2.2]

theorem Block.tracks {b : Block} (each : ∀ s ∈ b.stmts, s.Tracks symbols) (h : k.Lists ls) (nodup : b.numbers.Nodup)
    (apart : Label.Apart ls b.numbers) :
    Succeeds (b.markAliases symbols k) (Stmt.AllTrackable symbols (b.placed ls)) fun b' =>
      Stmt.AllExact (b'.placed ls) ∧ ∃ after : Knowledge, b'.info.after = some after ∧ after.Lists ls := by
  obtain ⟨i, ss, x⟩ := b
  rw [Block.numbers_mk] at nodup apart
  have perm := Stmt.numbersAll_perm ss
  have apart := apart.mono perm.symm.subset
  have inside := h.surrounds (perm.nodup_iff.mp nodup) apart
  have itself : (Stmt.block ⟨i, ss, x⟩).Trackable symbols ls := (Stmt.trackable_iff rfl rfl).mpr trivial
  rw [Block.placed, Stmt.allTrackable_cons, and_iff_right itself]
  unfold Block.markAliases
  refine (Stmt.tracksAll each inside).andThen fun r hr => ?_
  obtain ⟨exact, lists, declared⟩ := hr
  have ids := (List.nodup_append.mp (perm.nodup_iff.mp nodup)).1
  refine (Succeeds.of_total (lists.leave ids (apart.mono (List.subset_append_left _ _)))).after fun after ha => ?_
  refine .pure ⟨?_, after, rfl, ha⟩
  rw [Block.placed, declared]
  exact .cons (Stmt.exact_of_known rfl rfl h ha) exact

/-- A state that can be joined is found. -/
theorem Knowledge.Lists.joined {k' : Knowledge} (h : k.Lists ls) (h' : k'.Lists ls) :
    Succeeds (Knowledge.ofResult (k.join k')) True fun r => r.Lists ls := by
  obtain ⟨r, hr, joined⟩ := h.join_total h'
  exact .of_total ⟨r, by rw [hr]; rfl, joined⟩

theorem Stmt.tracks_ifThen {i : StmtInfo} {c : Expr} {t : Block} {e : Option Block}
    (thens : ∀ s ∈ t.stmts, s.Tracks symbols) (elses : ∀ b, e = some b → ∀ s ∈ b.stmts, s.Tracks symbols) :
    (Stmt.ifThen i c t e).Tracks symbols := by
  intro k ls h
  obtain ⟨lists, -, nodup, apart⟩ := h
  cases e with
  | none =>
    simp only [Stmt.innerNumbers, Stmt.numbers_ifThen, Option.map_none, Option.getD_none, List.append_nil] at nodup apart
    rw [Stmt.placed, Stmt.allTrackable_cons, Stmt.trackable_iff rfl rfl]
    unfold Stmt.markAliases
    refine (lists.condition false).bind fun p hp => ?_
    refine (Block.tracks thens hp.1 nodup apart).andThen fun t' ht => ?_
    obtain ⟨exact, after, info, ha⟩ := ht
    rw [info, Option.getD_some]
    refine (ha.joined lists).after fun r hr => .pure ⟨?_, hr, rfl⟩
    exact .cons (Stmt.exact_of_known rfl rfl lists hr) exact
  | some e =>
    simp only [Stmt.innerNumbers, Stmt.numbers_ifThen, Option.map_some, Option.getD_some] at nodup apart
    rw [Stmt.placed, Stmt.allTrackable_cons, Stmt.trackable_iff rfl rfl, Stmt.allTrackable_append]
    unfold Stmt.markAliases
    refine (lists.condition false).bind fun p hp => ?_
    have first := Block.tracks thens hp.1 (List.nodup_append.mp nodup).1 (apart.mono (List.subset_append_left _ _))
    refine first.bind fun t' ht => ?_
    obtain ⟨q, hq, listed⟩ := lists.assuming true hp.2
    rw [hq]
    have second := Block.tracks (elses e rfl) listed (List.nodup_append.mp nodup).2.1
      (apart.mono (List.subset_append_right _ _))
    refine second.andThen fun e' he => ?_
    obtain ⟨exact, after, info, ha⟩ := ht
    obtain ⟨exact', after', info', ha'⟩ := he
    rw [info, Option.getD_some, info', Option.getD_some]
    refine (ha.joined ha').after fun r hr => .pure ⟨?_, hr, rfl⟩
    exact .cons (Stmt.exact_of_known rfl rfl lists hr) (exact.append exact')

theorem Stmt.tracks_whileLoop {i : StmtInfo} {c : Expr} {b : Block} (body : ∀ s ∈ b.stmts, s.Tracks symbols) :
    (Stmt.whileLoop i c b).Tracks symbols := by
  intro k ls h
  obtain ⟨lists, -, nodup, apart⟩ := h
  simp only [Stmt.innerNumbers, Stmt.numbers_whileLoop] at nodup apart
  rw [Stmt.placed, Stmt.allTrackable_cons, Stmt.trackable_iff rfl rfl]
  unfold Stmt.markAliases
  refine (lists.past [c.nodes, b.nodes]).bind fun head hh => ?_
  have known : ∃ effects, c.hasEffects symbols = .ok effects := hh.2 c.nodes rfl
  refine Succeeds.after (.of_total (hh.1.assuming false known)) fun p hp => ?_
  refine (Block.tracks body hp nodup apart).andThen fun b' hb => ?_
  obtain ⟨exact, after, info, ha⟩ := hb
  rw [info, Option.getD_some]
  refine Succeeds.after (.of_total (hh.1.afterLoop ha known)) fun r hr => .pure ⟨?_, hr, rfl⟩
  exact .cons (Stmt.exact_of_known rfl rfl hh.1 hr) exact

theorem Stmt.tracks_doWhile {i : StmtInfo} {c : Expr} {b : Block} (body : ∀ s ∈ b.stmts, s.Tracks symbols) :
    (Stmt.doWhile i b c).Tracks symbols := by
  intro k ls h
  obtain ⟨lists, -, nodup, apart⟩ := h
  simp only [Stmt.innerNumbers, Stmt.numbers_doWhile] at nodup apart
  rw [Stmt.placed, Stmt.allTrackable_cons, Stmt.trackable_iff rfl rfl]
  unfold Stmt.markAliases
  refine (lists.past [c.nodes, b.nodes]).bind fun head hh => ?_
  have known : ∃ effects, c.hasEffects symbols = .ok effects := hh.2 c.nodes rfl
  refine (Block.tracks body hh.1 nodup apart).andThen fun b' hb => ?_
  obtain ⟨exact, after, info, ha⟩ := hb
  rw [info, Option.getD_some]
  refine Succeeds.after (.of_total (ha.assuming true known)) fun r hr => .pure ⟨?_, hr, rfl⟩
  exact .cons (Stmt.exact_of_known rfl rfl ha hr) exact

/-- Marking an optional part. -/
def Stmt.markAliases? (symbols : Symbols) (k : Knowledge) : Option Stmt → Except Error (Option Stmt)
  | none => .ok none
  | some s => do return some (← s.markAliases symbols k)

theorem Stmt.tracks? {a : Option Stmt} (each : ∀ s, a = some s → s.Tracks symbols)
    (h : k.Surrounds ls (Stmt.declared? a) (Stmt.innerNumbers? a)) :
    Succeeds (Stmt.markAliases? symbols k a) (Stmt.AllTrackable symbols (Stmt.placed? ls a)) fun a' =>
      Stmt.AllExact (Stmt.placed? ls a') ∧ Knowledge.Lists (((a'.map Stmt.info).bind (·.after)).getD k) ls ∧
        Stmt.declared? a' = Stmt.declared? a := by
  cases a with
  | none => exact ⟨List.forall_mem_nil _, List.forall_mem_nil _, h.lists, rfl⟩
  | some s => exact (each s rfl k ls h).andThen fun s' hs => .pure ⟨hs.exact, hs.after, hs.declared⟩

theorem Stmt.markAliases_forLoop_eq (symbols : Symbols) (k : Knowledge) (i : StmtInfo) (init update : Option Stmt)
    (c : Expr) (b : Block) : (Stmt.forLoop i init c update b).markAliases symbols k = (do
      let locals := Stmt.declared? init ++ Stmt.declared? update
      let start := k.enter locals
      let init ← Stmt.markAliases? symbols start init
      let state : Knowledge := ((init.map Stmt.info).bind (·.after)).getD start
      let k ← state.past symbols [c.nodes, b.nodes, (update.map Stmt.nodes).getD []]
      let b ← b.markAliases symbols (← k.assuming symbols c false)
      let iterated : Knowledge := b.info.after.getD k
      let update ← Stmt.markAliases? symbols iterated update
      let iterated : Knowledge := ((update.map Stmt.info).bind (·.after)).getD iterated
      let after ← Knowledge.afterLoop symbols c state iterated
      let after ← after.leave locals
      return .forLoop (i.known k after) init c update b) := by
  cases init <;> cases update <;> rfl

/-- The variables of the first part and of the update are among the labels inside, and gone after the loop. -/
theorem Stmt.tracks_forLoop {i : StmtInfo} {init update : Option Stmt} {c : Expr} {b : Block}
    (inits : ∀ s, init = some s → s.Tracks symbols) (updates : ∀ s, update = some s → s.Tracks symbols)
    (body : ∀ s ∈ b.stmts, s.Tracks symbols) : (Stmt.forLoop i init c update b).Tracks symbols := by
  intro k ls h
  obtain ⟨lists, -, nodup, apart⟩ := h
  simp only [Stmt.innerNumbers] at nodup apart
  have perm := Stmt.numbers_forLoop_perm i init update c b
  have nodup := perm.nodup_iff.mp nodup
  have apart := apart.mono perm.symm.subset
  have inside := lists.surrounds nodup apart
  have ids := (List.nodup_append.mp nodup).1
  have gone : Label.Apart ls ((Stmt.declared? init ++ Stmt.declared? update).map (·.id)) :=
    apart.mono (List.subset_append_left _ _)
  rw [Stmt.placed_forLoop, Stmt.allTrackable_cons, Stmt.trackable_iff rfl rfl, Stmt.allTrackable_append,
    Stmt.allTrackable_append, Stmt.markAliases_forLoop_eq, and_left_comm]
  obtain ⟨entered, known, inner, fresh⟩ := inside
  rw [List.forall_mem_append] at known
  have later := (List.nodup_append.mp inner).2.1
  have fresh' := fresh.mono (List.subset_append_right _ _)
  refine (Stmt.tracks? inits ⟨entered, known.1, (List.nodup_append.mp inner).1,
    fresh.mono (List.subset_append_left _ _)⟩).bind fun init' hinit => ?_
  obtain ⟨exactInit, state, declaredInit⟩ := hinit
  refine (state.past _).bind fun head hh => ?_
  have told : ∃ effects, c.hasEffects symbols = .ok effects := hh.2 c.nodes rfl
  refine Succeeds.after (.of_total (hh.1.assuming false told)) fun p hp => ?_
  refine (Block.tracks body hp (List.nodup_append.mp later).2.1
    (fresh'.mono (List.subset_append_right _ _))).bind fun b' hb => ?_
  obtain ⟨exactBody, afterBody, info, ha⟩ := hb
  rw [info, Option.getD_some]
  refine (Stmt.tracks? updates ⟨ha, known.2, (List.nodup_append.mp later).1,
    fresh'.mono (List.subset_append_left _ _)⟩).andThen fun update' hupdate => ?_
  obtain ⟨exactUpdate, iterated, declaredUpdate⟩ := hupdate
  refine Succeeds.after (.of_total (state.afterLoop iterated told)) fun last hl => ?_
  refine Succeeds.after (.of_total (hl.leave ids gone)) fun after hleft => .pure ⟨?_, hleft, rfl⟩
  rw [Stmt.placed_forLoop, declaredInit, declaredUpdate]
  refine .cons ?_ (exactInit.append (exactBody.append exactUpdate))
  rintro j ⟨⟩
  refine ⟨head, after, rfl, rfl, ?_, hleft⟩
  rw [Stmt.ownLabels, declaredInit, declaredUpdate]
  exact hh.1

/-- Merging a new variable with a label needs that label. -/
theorem Knowledge.Lists.merged (h : k.Lists ls) {x l : Label} (hx : x ∈ ls) :
    Succeeds (Knowledge.ofUpdate (k.merge x l)) (l ∈ ls) fun k' => k'.Lists ls := by
  have possible := Partition.merge_iff (y := l) ((h.has x).mpr hx)
  rw [h.has l] at possible
  unfold Knowledge.ofUpdate
  cases done : (k.merge x l).1 with
  | error e =>
    rw [done] at possible
    exact fun hl => nomatch possible.mpr hl
  | ok _ => exact ⟨possible.mp done, h.relisted (Partition.merge_relists done)⟩

/-- A statement that has no statements inside. -/
theorem Stmt.placed_leaf {s : Stmt} (leaf : (s matches .breakLoop _ | .continueLoop _ | .ret .. | .eval .. |
    .require .. | .assign .. | .declare .. | .compute .. | .enterKey .. | .comment _ | .blank) = true) :
    s.placed ls = [(ls, s)] := by
  cases s <;> first | rfl | cases leaf

theorem Stmt.tracks_declare {i : StmtInfo} {v : LocalVar} {e : Option Expr} :
    (Stmt.declare i v e).Tracks symbols := by
  intro k ls h
  have single : Stmt.AllTrackable symbols ((Stmt.declare i v e).placed ls) ↔
      symbols.Tells [Expr.nodes? e] ∧ ∀ l, e.bind Expr.label? = some l → l ∈ ls := by
    rw [Stmt.placed_leaf rfl, Stmt.allTrackable_singleton]
    exact ⟨fun h => ⟨h.told, h.initial⟩, fun h => ⟨rfl, h.1, h.2⟩⟩
  rw [single]
  unfold Stmt.markAliases
  refine (h.lists.past _).bind fun before hb => ?_
  have own : v.label ∈ ls := h.known v List.mem_cons_self
  have listed : before.has (.var .localVar v.id v.name) = true := (hb.1.has _).mpr own
  simp only [listed, Bool.not_true, Bool.false_eq_true, if_false]
  have marked {after : Knowledge} (ha : after.Lists ls) :
      (Stmt.declare i v e).Tracked k ls (.declare (i.known before after) v e) := by
    refine ⟨?_, ha, rfl⟩
    rw [Stmt.placed_leaf rfl]
    exact Stmt.allExact_singleton (Stmt.exact_of_known rfl rfl hb.1 ha)
  cases e.bind Expr.label? with
  | none => exact ⟨nofun, marked hb.1⟩
  | some l =>
    refine ((hb.1.merged own).andThen fun after ha => .pure (marked ha)).iff ?_
    simp

/-- A statement that is executed in one step and declares nothing: what is known afterwards is found from what is
known past its side effects, without fail. -/
theorem Stmt.tracks_step {s : Stmt} (leaf : s.placed ls = [(ls, s)]) (source : s.isDirective = false)
    (initial : s.initial? = none) (h : k.Lists ls) {step : Knowledge → Except Error Stmt}
    (mark : s.markAliases symbols k = k.past symbols s.consulted >>= step)
    (total : ∀ before : Knowledge, before.Lists ls →
      (∀ p ∈ s.consulted.head?, ∃ effects, symbols.haveEffects p = .ok effects) →
      Succeeds (step before) True (s.Tracked k ls)) :
    Succeeds (s.markAliases symbols k) (Stmt.AllTrackable symbols (s.placed ls)) (s.Tracked k ls) := by
  rw [leaf, Stmt.allTrackable_singleton, Stmt.trackable_iff source initial, mark]
  exact (h.past _).andThen fun before hb => total before hb.1 hb.2

theorem Stmt.tracked_leaf {s s' : Stmt} {i : StmtInfo} {before after : Knowledge} (leaf : s'.placed ls = [(ls, s')])
    (info : s'.info? = some (i.known before after)) (own : s'.ownLabels = []) (declared : s'.declared = s.declared)
    (hb : before.Lists ls) (ha : after.Lists ls) : s.Tracked k ls s' := by
  refine ⟨?_, ?_, declared⟩
  · rw [leaf]
    exact Stmt.allExact_singleton (Stmt.exact_of_known info own hb ha)
  · rw [Stmt.info, info]
    exact ha

/-- Marking a statement succeeds exactly if it and all statements inside can be tracked. -/
theorem Stmt.tracks (symbols : Symbols) (s : Stmt) : s.Tracks symbols := by
  induction s using Stmt.inductOn with
  | ifThen i c t e thens elses => exact Stmt.tracks_ifThen thens elses
  | whileLoop i c b body => exact Stmt.tracks_whileLoop body
  | doWhile i b c body => exact Stmt.tracks_doWhile body
  | forLoop i a c u b inits updates body => exact Stmt.tracks_forLoop inits updates body
  | block b body =>
    intro k ls h
    rw [Stmt.placed]
    unfold Stmt.markAliases
    refine (Block.tracks body h.lists h.nodup h.apart).andThen fun b' hb => ?_
    obtain ⟨exact, after, info, ha⟩ := hb
    refine .pure ⟨exact, ?_, rfl⟩
    rw [Stmt.info, Stmt.info?, Option.getD_some, info]
    exact ha
  | seq i ss x each =>
    intro k ls h
    have itself : (Stmt.seq i ss x).Trackable symbols ls := (Stmt.trackable_iff rfl rfl).mpr trivial
    rw [Stmt.placed, Stmt.allTrackable_cons, and_iff_right itself]
    unfold Stmt.markAliases
    refine (Stmt.tracksAll each h).andThen fun r hr => .pure ⟨?_, hr.2.1, hr.2.2⟩
    exact .cons (Stmt.exact_of_known rfl rfl h.lists hr.2.1) hr.1
  | simple s leaf =>
    intro k ls h
    cases s with
    | declare i v e => exact Stmt.tracks_declare k ls h
    | eval i e =>
      refine Stmt.tracks_step (Stmt.placed_leaf rfl) rfl rfl h.lists rfl fun before hb _ => .pure ?_
      exact Stmt.tracked_leaf (Stmt.placed_leaf rfl) rfl rfl rfl hb hb
    | require i e =>
      refine Stmt.tracks_step (Stmt.placed_leaf rfl) rfl rfl h.lists rfl fun before hb known => ?_
      refine Succeeds.after (.of_total (hb.assuming false (known e.nodes rfl))) fun after ha => .pure ?_
      exact Stmt.tracked_leaf (Stmt.placed_leaf rfl) rfl rfl rfl hb ha
    | assign i l r o x =>
      refine Stmt.tracks_step (Stmt.placed_leaf rfl) rfl rfl h.lists rfl fun before hb _ => ?_
      obtain ⟨after, hafter⟩ := Expr.equate_total before .assigned l r
      refine Succeeds.after (P := fun after => after.Lists ls) ?_ fun after ha => .pure ?_
      · exact .of_total ⟨after, hafter, hb.relisted (Expr.equate_relists hafter)⟩
      · exact Stmt.tracked_leaf (Stmt.placed_leaf rfl) rfl rfl rfl hb ha
    | breakLoop i | continueLoop i | ret i e =>
      rw [Stmt.placed_leaf rfl, Stmt.allTrackable_singleton, Stmt.trackable_iff rfl rfl]
      exact ⟨trivial, Stmt.tracked_leaf (Stmt.placed_leaf rfl) rfl rfl rfl h.lists h.lists⟩
    | comment t | blank =>
      rw [Stmt.placed_leaf rfl, Stmt.allTrackable_singleton, Stmt.trackable_iff rfl rfl]
      refine ⟨trivial, ?_, h.lists, rfl⟩
      rw [Stmt.placed_leaf rfl]
      exact Stmt.allExact_singleton fun i named => by cases named
    | compute i v | enterKey i b =>
      rw [Stmt.placed_leaf rfl, Stmt.allTrackable_singleton]
      intro h
      cases h.source
    | ifThen | whileLoop | doWhile | forLoop | block | seq => cases leaf

end Tracks

end Shroud
