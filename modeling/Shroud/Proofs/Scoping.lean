import Mathlib.Data.List.Perm.Basic
import Shroud.Proofs.Exposure
import Shroud.Proofs.Surroundings

/-!
# Linking is lexical

**Statements.** The variables of a block are known from its start and become visible one after the other. Linking a
statement settles its uses if the scope reads like the environment, if the variables of blocks inside have numbers that
are not visible yet, and if no block declares a name twice (`Stmt.linksLexically`).

**Conditions.** Declarations have numbers of their own, and the names of contracts, of the members of a contract or a
struct and of parameters are distinct. That no block declares a name twice is found out by linking itself.

**Other failures.** Linking may stop for other reasons before it comes to an unknown name: a declaration has no member
of that name, something is indexed that has no elements. Such a failure is told apart by linking the program inside
further declarations, which make any name known and leave the rest as it is (`SourceUnit.linkBeyond`). A complaint quotes
the statement, which needs a written form for that; whatever is read from a text has one (`SourceUnit.isPrintable`).

**Results.** `SourceUnit.link_lexical`: linking gives every name of the program the declaration that it stands for in
the environment at its place. It complains about an unknown name exactly if some name stands for nothing, and then about
the first, unless it stops before for a reason that no further declaration would change.
-/

namespace Shroud

open LinkM

/-! ## Variables of a block -/

/-- Entries with the same name are the same declaration. -/
def Env.Agrees (names : Env) : Prop := ∀ p ∈ names, ∀ q ∈ names, p.1 = q.1 → p.2 = q.2

theorem Env.agrees_cons {p : String × Ref} {names : Env} :
    Agrees (p :: names) ↔ (∀ q ∈ names, q.1 = p.1 → q.2 = p.2) ∧ Agrees names := by
  constructor
  · intro h
    exact ⟨fun q hq => h q (List.mem_cons_of_mem _ hq) p List.mem_cons_self,
      fun q hq r hr => h q (List.mem_cons_of_mem _ hq) r (List.mem_cons_of_mem _ hr)⟩
  · rintro ⟨first, rest⟩ q hq r hr same
    obtain hq | hq := List.mem_cons.mp hq <;> obtain hr | hr := List.mem_cons.mp hr
    · rw [hq, hr]
    · rw [hq] at same ⊢
      exact (first r hr same.symm).symm
    · rw [hr] at same ⊢
      exact first q hq same
    · exact rest q hq r hr same

/-- Names agree with each other and with what the names before them stand for. -/
theorem conflict?_none_iff {seen names : Env} : conflict?.go seen names = none ↔
    (∀ p ∈ names, ∀ r, seen.lookup p.1 = some r → p.2 = r) ∧ names.Agrees := by
  induction names generalizing seen with
  | nil => exact iff_of_true rfl ⟨nofun, nofun⟩
  | cons p names ih =>
    obtain ⟨n, r⟩ := p
    unfold conflict?.go
    rw [Env.agrees_cons, List.forall_mem_cons]
    cases hs : seen.lookup n with
    | none =>
      dsimp only
      rw [ih]
      have step (q : String × Ref) : (∀ s, List.lookup q.1 ((n, r) :: seen) = some s → q.2 = s) ↔
          (∀ s, seen.lookup q.1 = some s → q.2 = s) ∧ (q.1 = n → q.2 = r) := by
        rw [List.lookup_cons]
        by_cases same : q.1 = n
        · simp [same, hs]
        · simp [same, beq_false_of_ne same]
      simp only [step]
      constructor
      · rintro ⟨h, agrees⟩
        exact ⟨⟨nofun, fun q hq => (h q hq).1⟩, fun q hq => (h q hq).2, agrees⟩
      · rintro ⟨⟨-, h⟩, first, agrees⟩
        exact ⟨fun q hq => ⟨h q hq, first q hq⟩, agrees⟩
    | some s =>
      dsimp only
      by_cases same : r = s
      · subst same
        rw [if_pos (beq_self_eq_true r), ih]
        constructor
        · rintro ⟨h, agrees⟩
          exact ⟨⟨fun _ => Option.some.inj, h⟩, fun q hq name => h q hq r (name ▸ hs), agrees⟩
        · rintro ⟨⟨-, h⟩, -, agrees⟩
          exact ⟨h, agrees⟩
      · rw [if_neg (fun h => same (eq_of_beq h))]
        exact iff_of_false nofun fun h => same (h.1.1 s rfl)

theorem checkConflict_iff {names : Env} : checkConflict names = .ok () ↔ names.Agrees := by
  have start : conflict? names = conflict?.go [] names := by
    cases names <;> rfl
  have agrees : conflict? names = none ↔ names.Agrees := by
    rw [start, conflict?_none_iff]
    exact and_iff_right fun _ _ _ h => nomatch h
  unfold checkConflict
  rw [← agrees]
  split
  · rename_i h
    rw [h]
    exact iff_of_false nofun nofun
  · exact iff_of_true rfl ‹_›

theorem checkLocals_iff {vs : List LocalVar} : checkLocals vs = .ok () ↔ Env.Agrees (vs.map LocalVar.entry) :=
  checkConflict_iff

/-- Declarations of different numbers conflict as soon as they share a name. -/
theorem checkLocals_nodup {vs : List LocalVar} (h : checkLocals vs = .ok ()) (ids : (vs.map (·.id)).Nodup) :
    (vs.map (·.name)).Nodup := by
  replace h := checkLocals_iff.mp h
  induction vs with
  | nil => exact List.nodup_nil
  | cons v vs ih =>
    obtain ⟨first, rest⟩ := Env.agrees_cons.mp h
    obtain ⟨fresh, ids⟩ := List.nodup_cons.mp ids
    refine List.nodup_cons.mpr ⟨fun hv => ?_, ih ids rest⟩
    obtain ⟨w, hw, name⟩ := List.mem_map.mp hv
    have same : w.ref = v.ref := first w.entry (List.mem_map.mpr ⟨w, hw, rfl⟩) name
    exact fresh (List.mem_map.mpr ⟨w, hw, congrArg Ref.id same⟩)

mutual

/-- The numbers of the variables of blocks inside the statement. -/
def Stmt.innerNumbers : Stmt → List Nat
  | .declare _ _ _ => []
  | .seq _ ss _ => Stmt.innerNumbersAll ss
  | s => s.numbers

def Stmt.innerNumbersAll : List Stmt → List Nat
  | [] => []
  | s :: ss => s.innerNumbers ++ Stmt.innerNumbersAll ss

end

def Stmt.innerNumbers? (s : Option Stmt) : List Nat := (s.map Stmt.innerNumbers).getD []

mutual

/-- The variables of a statement are declared for the block around it or in blocks inside. -/
theorem Stmt.numbers_perm : ∀ s : Stmt, s.numbers.Perm (s.declared.map (·.id) ++ s.innerNumbers)
  | .declare i v e => by simp [Stmt.declared, Stmt.innerNumbers]
  | .seq i ss x => by
    rw [Stmt.numbers_seq, Stmt.declared, Stmt.innerNumbers]
    exact Stmt.numbersAll_perm ss
  | .ifThen .. | .whileLoop .. | .doWhile .. | .forLoop .. | .breakLoop .. | .continueLoop .. | .ret .. | .eval ..
  | .require .. | .assign .. | .block .. | .compute .. | .enterKey .. | .comment .. | .blank => by
    simp only [Stmt.declared, Stmt.innerNumbers, List.map_nil, List.nil_append]
    exact .refl _

theorem Stmt.numbersAll_perm : ∀ ss : List Stmt,
    (ss.flatMap Stmt.numbers).Perm ((Stmt.declaredAll ss).map (·.id) ++ Stmt.innerNumbersAll ss)
  | [] => .refl _
  | s :: ss => by
    simp only [List.flatMap_cons, Stmt.declaredAll, Stmt.innerNumbersAll, List.map_append]
    refine (s.numbers_perm.append (Stmt.numbersAll_perm ss)).trans ?_
    simp only [List.append_assoc]
    refine List.Perm.append_left _ ?_
    exact List.perm_append_comm_assoc _ _ _

end

theorem Stmt.numbers?_perm (s : Option Stmt) :
    (Stmt.numbers? s).Perm ((Stmt.declared? s).map (·.id) ++ Stmt.innerNumbers? s) := by
  cases s with
  | none => exact .refl _
  | some s => exact s.numbers_perm

/-- The variables of a `for` statement are its own or declared in blocks inside. -/
theorem Stmt.numbers_forLoop_perm (i : StmtInfo) (init update : Option Stmt) (e : Expr) (b : Block) :
    (Stmt.forLoop i init e update b).numbers.Perm ((Stmt.declared? init ++ Stmt.declared? update).map (·.id) ++
      (Stmt.innerNumbers? init ++ (Stmt.innerNumbers? update ++ b.numbers))) := by
  rw [Stmt.numbers_forLoop]
  refine ((Stmt.numbers?_perm init).append ((Stmt.numbers?_perm update).append_right _)).trans ?_
  simp only [List.map_append, List.append_assoc]
  refine List.Perm.append_left _ ?_
  exact List.perm_append_comm_assoc _ _ _

/-- The variables that blocks inside will declare have different numbers, none of which is visible. -/
structure Scope.Apart (s : Scope) (ids : List Nat) : Prop where
  nodup : ids.Nodup
  fresh : ∀ i ∈ ids, i ∉ s.visible

namespace Scope.Apart

variable {s : Scope} {ids ids' : List Nat}

theorem perm (h : s.Apart ids) (p : ids.Perm ids') : s.Apart ids' :=
  ⟨p.nodup_iff.mp h.nodup, fun i hi => h.fresh i (p.mem_iff.mpr hi)⟩

theorem left (h : s.Apart (ids ++ ids')) : s.Apart ids :=
  ⟨(List.nodup_append.mp h.nodup).1, fun i hi => h.fresh i (List.mem_append_left _ hi)⟩

theorem right (h : s.Apart (ids ++ ids')) : s.Apart ids' :=
  ⟨(List.nodup_append.mp h.nodup).2.1, fun i hi => h.fresh i (List.mem_append_right _ hi)⟩

theorem declare (h : s.Apart ids) (vs : List LocalVar) : (s.declare vs).Apart ids := ⟨h.nodup, h.fresh⟩

theorem enterBlock {vs : List LocalVar} (h : s.Apart (vs.map (·.id) ++ ids)) (pos : Pos) :
    (s.enterBlock pos vs).Apart ids where
  nodup := h.right.nodup
  fresh i hi visible := by
    rw [visible_enterBlock] at visible
    rcases List.mem_append.mp visible with hv | hv
    · exact (List.nodup_append.mp h.nodup).2.2 i hv i hi rfl
    · exact h.right.fresh i hi hv

end Scope.Apart

/-! ## Names in statements -/

/-- No key of a mapping has one of these numbers. -/
def KeysApart (os : List NameUse) (ids : List Nat) : Prop :=
  ∀ o ∈ os, ∀ p ∈ o.env, p.2.isKey = true → p.2.id ∉ ids

instance (os : List NameUse) (ids : List Nat) : Decidable (KeysApart os ids) :=
  inferInstanceAs (Decidable (∀ o ∈ os, ∀ p ∈ o.env, p.2.isKey = true → p.2.id ∉ ids))

theorem KeysApart.mono {os os' : List NameUse} {ids ids' : List Nat} (h : KeysApart os ids)
    (sub : ∀ o ∈ os', o ∈ os) (sub' : ∀ i ∈ ids', i ∈ ids) : KeysApart os' ids' :=
  fun o ho p hp key hi => h o (sub o ho) p hp key (sub' _ hi)

theorem KeysApart.left {os os' : List NameUse} {ids ids' : List Nat} (h : KeysApart (os ++ os') (ids ++ ids')) :
    KeysApart os ids :=
  h.mono (fun _ => List.mem_append_left _) fun _ => List.mem_append_left _

theorem KeysApart.right {os os' : List NameUse} {ids ids' : List Nat} (h : KeysApart (os ++ os') (ids ++ ids')) :
    KeysApart os' ids' :=
  h.mono (fun _ => List.mem_append_right _) fun _ => List.mem_append_right _

namespace Scope.Reads

variable {s : Scope} {site : Site} {c : LinkContext} {env : Env} {rest : List LocalVar} {os : List NameUse}

theorem ownless (h : s.Reads env rest) : Mirrors { s with own := [] } env := by
  have same : { s with own := [] } = s := by rw [← h.own]
  rw [same]
  exact h.now

theorem stands (h : s.Reads env rest) : LinkContext.Stands ⟨s, site⟩ env os where
  mirrors := h.ownless
  own o _ r _ := by
    rw [h.own]
    exact List.not_mem_nil

/-- A declaration does not see itself. -/
theorem stands_declaring {v : LocalVar} (h : c.scope.Reads env (v :: rest)) (within : ∀ o ∈ os, o.Within env)
    (keys : KeysApart os [v.id]) : (c.declaring v).Stands env os where
  mirrors := h.ownless
  own o ho r hr := by
    intro own
    have same : r.id = v.id := List.mem_singleton.mp own
    have found := mem_of_name hr
    rcases within o ho _ found with outer | key
    · exact h.fresh v List.mem_cons_self _ outer same
    · exact keys o ho _ found key own

end Scope.Reads

theorem Expr.link?_settles (e : Option Expr) (c : LinkContext) (env : Env)
    (h : c.Stands env (Expr.occurrences? env e)) :
    Settles (Expr.link? c e) (Expr.occurrences? env e) fun e' =>
      Settled (Expr.occurrences? env e) (Expr.occurrences? env e') := by
  cases e with
  | none => exact .pure rfl
  | some e => exact (e.link_settles c env h).andThen fun e' he => .pure he

theorem LocalVar.link_settles (v : LocalVar) (c : LinkContext) (env : Env) (h : c.Stands env (v.occurrences env)) :
    Settles (v.link c) (v.occurrences env) fun v' =>
      Settled (v.occurrences env) (v'.occurrences env) ∧ v'.entry = v.entry := by
  refine (v.type.link_settles c env h).andThen fun t ht => ?_
  exact quiet_record.before fun _ => .pure ⟨ht, rfl⟩

/-- The linked statement declares the same names, and its uses are linked to what they stand for. -/
structure Stmt.LinkedTo (env : Env) (s s' : Stmt) : Prop where
  uses : Settled (s.occurrences env) (s'.occurrences env)
  entries : s'.declared.map LocalVar.entry = s.declared.map LocalVar.entry

/-- The statement is linked by what its names stand for in the environment, wherever the scope reads like it. -/
def Stmt.LinksLexically (s : Stmt) : Prop :=
  ∀ (c : LinkContext) (env : Env) (rest : List LocalVar), c.scope.Reads env (s.declared ++ rest) →
    c.scope.Apart s.innerNumbers → s.checkNames = .ok () → KeysApart (s.occurrences env) s.numbers →
    Settles (s.link c) (s.occurrences env) (s.LinkedTo env)

theorem Env.declare_congr {vs ws : List LocalVar} (env : Env)
    (h : vs.map LocalVar.entry = ws.map LocalVar.entry) : env.declare vs = env.declare ws := by
  rw [declare, h, declare]

theorem Stmt.linkAll_settles : ∀ {ss : List Stmt}, (∀ s ∈ ss, s.LinksLexically) →
    ∀ {c : LinkContext} {env : Env} {rest : List LocalVar}, c.scope.Reads env (Stmt.declaredAll ss ++ rest) →
    c.scope.Apart (Stmt.innerNumbersAll ss) → Stmt.checkNamesAll ss = .ok () →
    KeysApart (Stmt.occurrencesAll env ss) (ss.flatMap Stmt.numbers) →
    Settles (Stmt.linkAll c ss) (Stmt.occurrencesAll env ss) fun ss' =>
      Settled (Stmt.occurrencesAll env ss) (Stmt.occurrencesAll env ss') ∧
        (Stmt.declaredAll ss').map LocalVar.entry = (Stmt.declaredAll ss).map LocalVar.entry
  | [], _, _, _, _, _, _, _, _ => by
    simp only [Stmt.linkAll]
    exact .pure ⟨rfl, rfl⟩
  | s :: ss, each, c, env, rest, reads, apart, names, keys => by
    simp only [Stmt.declaredAll, List.append_assoc] at reads
    simp only [Stmt.innerNumbersAll] at apart
    simp only [Stmt.checkNamesAll] at names
    obtain ⟨_, first, others⟩ := except_bind_ok names
    simp only [Stmt.occurrencesAll, List.flatMap_cons] at keys
    simp only [Stmt.linkAll, Stmt.occurrencesAll]
    refine (each s List.mem_cons_self c env _ reads apart.left first keys.left).bind fun s' hs => ?_
    have after : Settles (Stmt.linkAll { c with scope := c.scope.declare s.declared } ss) _ _ :=
      Stmt.linkAll_settles (fun t ht => each t (List.mem_cons_of_mem _ ht)) reads.declare
        (apart.right.declare _) others keys.right
    refine after.andThen fun ss' hss => .pure ⟨?_, ?_⟩
    · simp only [Stmt.occurrencesAll, Settled, hs.uses, Env.declare_congr env hs.entries, hss.1, List.map_append]
    · simp only [Stmt.declaredAll, List.map_append, hs.entries, hss.2]

theorem Block.link_settles {b : Block} (each : ∀ s ∈ b.stmts, s.LinksLexically) {c : LinkContext} {env : Env}
    {rest : List LocalVar} (reads : c.scope.Reads env rest) (apart : c.scope.Apart b.numbers)
    (names : b.checkNames = .ok ()) (keys : KeysApart (b.occurrences env) b.numbers) :
    Settles (b.link c) (b.occurrences env) fun b' => Settled (b.occurrences env) (b'.occurrences env) := by
  obtain ⟨i, ss, x⟩ := b
  simp only [Block.checkNames] at names
  obtain ⟨_, inner, own⟩ := except_bind_ok names
  rw [Block.numbers_mk] at apart keys
  simp only [Block.occurrences] at keys
  have apart := apart.perm (Stmt.numbersAll_perm ss)
  have fresh : ∀ v ∈ Stmt.declaredAll ss, v.id ∉ c.scope.visible :=
    fun v hv => apart.left.fresh v.id (List.mem_map.mpr ⟨v, hv, rfl⟩)
  have opened : (c.scope.enterBlock i.pos (Stmt.declaredAll ss)).Reads env (Stmt.declaredAll ss ++ []) := by
    rw [List.append_nil]
    exact reads.enterBlock i.pos apart.left.nodup (checkLocals_nodup own apart.left.nodup) fresh
  simp only [Block.link, Block.occurrences]
  have linked : Settles (Stmt.linkAll { c with scope := c.scope.enterBlock i.pos (Stmt.declaredAll ss) } ss) _ _ :=
    Stmt.linkAll_settles each opened (apart.enterBlock i.pos) inner keys
  exact linked.andThen fun ss' hss => .pure hss.1

/-- The uses in an optional part of a loop. -/
def Stmt.occurrences? (env : Env) (s : Option Stmt) : List NameUse := (s.map (Stmt.occurrences env)).getD []

def Stmt.checkNames? : Option Stmt → Except Error Unit
  | none => pure ()
  | some s => s.checkNames

theorem Stmt.link?_settles {s : Option Stmt} (each : ∀ t, s = some t → t.LinksLexically) {c : LinkContext} {env : Env}
    {rest : List LocalVar} (reads : c.scope.Reads env (Stmt.declared? s ++ rest))
    (apart : c.scope.Apart (Stmt.innerNumbers? s)) (names : Stmt.checkNames? s = .ok ())
    (keys : KeysApart (Stmt.occurrences? env s) (Stmt.numbers? s)) :
    Settles (Stmt.link? c s) (Stmt.occurrences? env s) fun s' =>
      Settled (Stmt.occurrences? env s) (Stmt.occurrences? env s') ∧
        (Stmt.declared? s').map LocalVar.entry = (Stmt.declared? s).map LocalVar.entry := by
  cases s with
  | none => exact .pure ⟨rfl, rfl⟩
  | some s => exact (each s rfl c env rest reads apart names keys).andThen fun s' hs => .pure ⟨hs.uses, hs.entries⟩

theorem Stmt.occurrences_forLoop (env : Env) (i : StmtInfo) (init update : Option Stmt) (e : Expr) (b : Block) :
    (Stmt.forLoop i init e update b).occurrences env =
      Stmt.occurrences? env init ++ (e.occurrences (env.declare (Stmt.declared? init)) ++
        (Stmt.occurrences? (env.declare (Stmt.declared? init)) update ++
          b.occurrences (env.declare (Stmt.declared? init)))) := by
  cases init <;> cases update <;> rfl

/-- The frame of a loop holds the variables of its first part and of its update; those of the first part are declared
in the rest of the loop. -/
theorem Stmt.forLoop_settles {i : StmtInfo} {init update : Option Stmt} {e : Expr} {b : Block}
    (inits : ∀ s, init = some s → s.LinksLexically) (updates : ∀ s, update = some s → s.LinksLexically)
    (body : ∀ s ∈ b.stmts, s.LinksLexically) : (Stmt.forLoop i init e update b).LinksLexically := by
  intro c env rest reads apart names keys
  have names : (do
      Stmt.checkNames? init
      Stmt.checkNames? update
      b.checkNames
      checkLocals (Stmt.declared? init ++ Stmt.declared? update)) = .ok () := by
    rw [← names]
    cases init <;> cases update <;> rfl
  obtain ⟨_, initNames, names⟩ := except_bind_ok names
  obtain ⟨_, updateNames, names⟩ := except_bind_ok names
  obtain ⟨_, bodyNames, own⟩ := except_bind_ok names
  rw [Stmt.occurrences_forLoop, Stmt.numbers_forLoop] at keys
  have apart : c.scope.Apart ((Stmt.declared? init ++ Stmt.declared? update).map (·.id) ++
      (Stmt.innerNumbers? init ++ (Stmt.innerNumbers? update ++ b.numbers))) := by
    simp only [Stmt.innerNumbers] at apart
    exact apart.perm (Stmt.numbers_forLoop_perm i init update e b)
  have fresh : ∀ v ∈ Stmt.declared? init ++ Stmt.declared? update, v.id ∉ c.scope.visible :=
    fun v hv => apart.left.fresh v.id (List.mem_map.mpr ⟨v, hv, rfl⟩)
  have opened := reads.enterBlock i.pos apart.left.nodup (checkLocals_nodup own apart.left.nodup) fresh
  have inside := apart.enterBlock i.pos
  have declared := opened.declare
  rw [Stmt.link_forLoop, Stmt.occurrences_forLoop]
  refine (Stmt.link?_settles inits opened inside.left initNames keys.left).bind fun init' hinit => ?_
  refine (e.link_settles _ _ declared.stands).bind fun e' he => ?_
  have later : KeysApart (Stmt.occurrences? (env.declare (Stmt.declared? init)) update ++
      b.occurrences (env.declare (Stmt.declared? init))) (Stmt.numbers? update ++ b.numbers) :=
    keys.right.mono (fun _ => List.mem_append_right _) fun _ => id
  have inside := inside.right.declare (Stmt.declared? init)
  have unfinished : ((c.scope.enterBlock i.pos (Stmt.declared? init ++ Stmt.declared? update)).declare
      (Stmt.declared? init)).Reads (env.declare (Stmt.declared? init)) (Stmt.declared? update ++ []) := by
    rw [List.append_nil]
    exact declared
  refine (Stmt.link?_settles updates unfinished inside.left updateNames later.left).bind fun update' hupdate => ?_
  refine (Block.link_settles body declared inside.right bodyNames later.right).andThen fun b' hb => .pure ⟨?_, rfl⟩
  simp only [Settled, Stmt.occurrences_forLoop, Env.declare_congr env hinit.2, hinit.1, he, hupdate.1, hb,
    List.map_append]

theorem Stmt.linksLexically (s : Stmt) : s.LinksLexically := by
  induction s using Stmt.inductOn with
  | ifThen i e t f thens elses =>
    intro c env rest reads apart names keys
    cases f with
    | none =>
      simp only [Stmt.checkNames] at names
      simp only [Stmt.innerNumbers, Stmt.numbers_ifThen, Option.map_none, Option.getD_none, List.append_nil] at apart
      simp only [Stmt.occurrences, Stmt.numbers_ifThen, Option.map_none, Option.getD_none, List.append_nil] at keys
      simp only [Stmt.link, Stmt.occurrences]
      refine (e.link_settles _ env reads.stands).bind fun e' he => ?_
      have inner := keys.mono (fun _ => List.mem_append_right _) fun _ => id
      refine (Block.link_settles thens reads apart names inner).andThen fun t' ht => .pure ⟨?_, rfl⟩
      simp only [Settled, Stmt.occurrences, he, ht, List.map_append]
    | some f =>
      simp only [Stmt.checkNames] at names
      obtain ⟨_, first, second⟩ := except_bind_ok names
      simp only [Stmt.innerNumbers, Stmt.numbers_ifThen, Option.map_some, Option.getD_some] at apart
      simp only [Stmt.occurrences, Stmt.numbers_ifThen, Option.map_some, Option.getD_some] at keys
      simp only [Stmt.link, Stmt.occurrences]
      refine (e.link_settles _ env reads.stands).bind fun e' he => ?_
      have inner : KeysApart (t.occurrences env ++ f.occurrences env) (t.numbers ++ f.numbers) :=
        keys.mono (fun _ => List.mem_append_right _) fun _ => id
      refine (Block.link_settles thens reads apart.left first inner.left).bind fun t' ht => ?_
      refine (Block.link_settles (elses f rfl) reads apart.right second inner.right).andThen fun f' hf => .pure ⟨?_, rfl⟩
      simp only [Settled, Stmt.occurrences, he, ht, hf, List.map_append]
  | whileLoop i e b body =>
    intro c env rest reads apart names keys
    simp only [Stmt.checkNames] at names
    simp only [Stmt.innerNumbers, Stmt.numbers_whileLoop] at apart
    simp only [Stmt.occurrences, Stmt.numbers_whileLoop] at keys
    simp only [Stmt.link, Stmt.occurrences]
    refine (e.link_settles _ env reads.stands).bind fun e' he => ?_
    have inner := keys.mono (fun _ => List.mem_append_right _) fun _ => id
    refine (Block.link_settles body reads apart names inner).andThen fun b' hb => .pure ⟨?_, rfl⟩
    simp only [Settled, Stmt.occurrences, he, hb, List.map_append]
  | doWhile i b e body =>
    intro c env rest reads apart names keys
    simp only [Stmt.checkNames] at names
    simp only [Stmt.innerNumbers, Stmt.numbers_doWhile] at apart
    simp only [Stmt.occurrences, Stmt.numbers_doWhile] at keys
    simp only [Stmt.link, Stmt.occurrences]
    have inner := keys.mono (fun _ => List.mem_append_left _) fun _ => id
    refine (Block.link_settles body reads apart names inner).bind fun b' hb => ?_
    refine (e.link_settles _ env reads.stands).andThen fun e' he => .pure ⟨?_, rfl⟩
    simp only [Settled, Stmt.occurrences, he, hb, List.map_append]
  | forLoop i a e u b inits updates body => exact Stmt.forLoop_settles inits updates body
  | block b body =>
    intro c env rest reads apart names keys
    simp only [Stmt.link, Stmt.occurrences]
    exact (Block.link_settles body reads apart names keys).andThen fun b' hb => .pure ⟨hb, rfl⟩
  | seq i ss x each =>
    intro c env rest reads apart names keys
    simp only [Stmt.checkNames] at names
    obtain ⟨_, inner, _⟩ := except_bind_ok names
    simp only [Stmt.declared] at reads
    rw [Stmt.numbers_seq] at keys
    simp only [Stmt.link, Stmt.occurrences]
    exact (Stmt.linkAll_settles each reads apart inner keys).andThen fun ss' hss => .pure ⟨hss.1, hss.2⟩
  | simple s h =>
    intro c env rest reads apart names keys
    cases s with
    | ret i e =>
      simp only [Stmt.link, Stmt.occurrences]
      exact (Expr.link?_settles e _ env reads.stands).andThen fun e' he => .pure ⟨he, rfl⟩
    | eval i e | require i e =>
      simp only [Stmt.link, Stmt.occurrences]
      exact (e.link_settles _ env reads.stands).andThen fun e' he => .pure ⟨he, rfl⟩
    | assign i l r o b =>
      simp only [Stmt.link, Stmt.occurrences]
      refine (l.link_settles _ env reads.stands).bind fun l' hl => ?_
      refine (r.link_settles _ env reads.stands).andThen fun r' hr => .pure ⟨?_, rfl⟩
      simp only [Settled, Stmt.occurrences, hl, hr, List.map_append]
    | declare i v e =>
      simp only [Stmt.occurrences, Stmt.numbers_declare] at keys
      simp only [Stmt.link, Stmt.occurrences]
      have within : ∀ o ∈ v.occurrences env ++ Expr.occurrences? env e, o.Within env :=
        forall_mem_append_of (v.type.occurrences_within env) (Expr.occurrences?_within e env)
      have stands := Scope.Reads.stands_declaring (c := c.withStmt (.declare i v e)) reads within keys
      refine (v.link_settles _ env stands.left).bind fun v' hv => ?_
      refine (Expr.link?_settles e _ env stands.right).andThen fun e' he => .pure ⟨?_, ?_⟩
      · simp only [Settled, Stmt.occurrences, hv.1, he, List.map_append]
      · simp only [Stmt.declared, List.map_cons, List.map_nil, hv.2]
    | breakLoop i | continueLoop i | compute i v | enterKey i b | comment t | blank =>
      simp only [Stmt.link, Stmt.occurrences]
      exact .pure ⟨rfl, rfl⟩
    | ifThen | whileLoop | doWhile | forLoop | block | seq => cases h

/-! ## Conflicting names -/

/-- The failure is about two declarations with the same name. -/
def Error.IsClash (e : Error) : Prop :=
  (∃ n, e = .badValue (.conflict n)) ∨ ∃ (s : Site) (f : FunctionDef), e = s.atFunction f .overloading

/-- Whenever something fails, names clash. -/
def Clashes (x : Except Error Unit) : Prop := ∀ e, x = .error e → e.IsClash

theorem Clashes.ok : Clashes (.ok ()) := fun _ h => nomatch h

theorem Clashes.bind {x : Except Error Unit} {f : Unit → Except Error Unit} (hx : Clashes x)
    (hf : ∀ a, Clashes (f a)) : Clashes (x >>= f) := by
  cases x with
  | error e => exact fun d hd => hx d (Except.error.inj hd ▸ rfl)
  | ok a => exact hf a

theorem Clashes.forIn {α : Type} {f : α → Except Error Unit} {xs : List α} (h : ∀ x ∈ xs, Clashes (f x)) :
    Clashes (forIn xs PUnit.unit fun x _ => do f x; pure (.yield PUnit.unit)) := by
  induction xs with
  | nil => exact .ok
  | cons x xs ih =>
    rw [List.forIn_cons]
    have rest := ih fun y hy => h y (List.mem_cons_of_mem _ hy)
    cases hx : f x with
    | error e => exact fun d hd => Except.error.inj hd ▸ h x List.mem_cons_self e hx
    | ok _ => exact rest

theorem checkConflict_clashes (names : Env) : Clashes (checkConflict names) := by
  intro e h
  unfold checkConflict at h
  split at h <;> cases h
  exact .inl ⟨_, rfl⟩

theorem Stmt.checkNamesAll_clashes {ss : List Stmt} (each : ∀ s ∈ ss, Clashes s.checkNames) :
    Clashes (Stmt.checkNamesAll ss) := by
  induction ss with
  | nil => exact .ok
  | cons s ss ih =>
    exact (each s List.mem_cons_self).bind fun _ => ih fun t ht => each t (List.mem_cons_of_mem _ ht)

theorem Block.checkNames_clashes {b : Block} (each : ∀ s ∈ b.stmts, Clashes s.checkNames) : Clashes b.checkNames := by
  obtain ⟨i, ss, x⟩ := b
  exact (Stmt.checkNamesAll_clashes each).bind fun _ => checkConflict_clashes _

theorem Stmt.checkNames_clashes (s : Stmt) : Clashes s.checkNames := by
  induction s using Stmt.inductOn with
  | ifThen i e t f thens elses =>
    cases f with
    | none => exact Block.checkNames_clashes thens
    | some f => exact (Block.checkNames_clashes thens).bind fun _ => Block.checkNames_clashes (elses f rfl)
  | whileLoop i e b body => exact Block.checkNames_clashes body
  | doWhile i b e body => exact Block.checkNames_clashes body
  | forLoop i a e u b inits updates body =>
    have optional (t : Option Stmt) (h : ∀ s, t = some s → Clashes s.checkNames) : Clashes (checkNames? t) := by
      cases t with
      | none => exact .ok
      | some t => exact h t rfl
    have whole := (optional a inits).bind fun _ => (optional u updates).bind fun _ =>
      (Block.checkNames_clashes body).bind fun _ => checkConflict_clashes
        ((Stmt.declared? a ++ Stmt.declared? u).map LocalVar.entry)
    cases a <;> cases u <;> exact whole
  | block b body => exact Block.checkNames_clashes body
  | seq i ss x each => exact (Stmt.checkNamesAll_clashes each).bind fun _ => checkConflict_clashes _
  | simple s h => cases s <;> first | exact .ok | cases h

theorem Contract.checkNames_clashes (text : List String) (c : Contract) : Clashes (c.checkNames text) := by
  unfold Contract.checkNames
  refine (Clashes.forIn fun f _ => Block.checkNames_clashes fun s _ => s.checkNames_clashes).bind fun _ => ?_
  split
  · intro e h
    cases h
    exact .inr ⟨_, _, rfl⟩
  · exact checkConflict_clashes _

theorem SourceUnit.checkNames_clashes (u : SourceUnit) : Clashes u.checkNames :=
  Clashes.bind (Clashes.forIn fun c _ => c.checkNames_clashes u.text) fun _ => .ok

/-- A clash is not about an unknown name. -/
theorem Error.IsClash.undefined? {e : Error} (h : e.IsClash) : e.undefined? = none := by
  obtain ⟨n, rfl⟩ | ⟨s, f, rfl⟩ := h
  · rfl
  · refine Option.eq_none_iff_forall_ne_some.mpr fun n hn => ?_
    unfold Site.atFunction at hn
    cases Site.complain_undefined hn

/-! ## Names in declarations -/

theorem settled_flatMap {α β : Type} {uses : α → List NameUse} {uses' : β → List NameUse} {as : List α}
    {bs : List β} (h : List.Forall₂ (fun a b => Settled (uses a) (uses' b)) as bs) :
    Settled (as.flatMap uses) (bs.flatMap uses') := by
  induction h with
  | nil => rfl
  | cons hx _ ih => rw [Settled, List.flatMap_cons, List.flatMap_cons, List.map_append, hx, ih]

/-- The linked function takes parameters of the same names, and its uses are linked to what they stand for. -/
structure FunctionDef.LinkedTo (env : Env) (f f' : FunctionDef) : Prop where
  uses : Settled (f.occurrences env) (f'.occurrences env)
  name : f'.name = f.name
  id : f'.id = f.id

theorem FunctionDef.entries_eq {f : FunctionDef} {ps : List Param} {g : FunctionDef} (hg : g.params = ps)
    (h : ps.map (fun p => (p.name, p.id)) = f.params.map fun p => (p.name, p.id)) : g.entries = f.entries := by
  have entries (qs : List Param) : (qs.filterMap fun p => p.name.map fun n => (n, Ref.decl .parameter p.id)) =
      (qs.map fun p => (p.name, p.id)).filterMap fun (x : Option String × Nat) =>
        x.1.map fun n => (n, Ref.decl .parameter x.2) := by
    rw [List.filterMap_map]
    rfl
  rw [FunctionDef.entries, FunctionDef.entries, hg, entries, h, ← entries]

theorem FunctionDef.link_settles {f : FunctionDef} {c : LinkContext} {env : Env} (reads : c.scope.Reads env [])
    (params : (f.entries.map Prod.fst).Nodup) (apart : (c.scope.enter f.entries).Apart f.body.numbers)
    (names : f.body.checkNames = .ok ()) (keys : KeysApart (f.occurrences env) f.body.numbers) :
    Settles (f.link c) (f.occurrences env) (f.LinkedTo env) := by
  have collected : f.names = f.entries := collectNames_of_nodup params
  have scope : c.ofParams f = { c with scope := c.scope.enter f.entries } := by
    rw [LinkContext.ofParams, collected]
  have inside := reads.enter f.entries
  unfold FunctionDef.link FunctionDef.occurrences
  refine (Param.linkAll_settles f.params _ _ (scope ▸ inside.stands)).bind fun ps hps => ?_
  refine (Param.linkAll_settles f.returns _ _ (scope ▸ inside.stands)).bind fun rs hrs => ?_
  have body : Settles (f.body.link (c.ofBody f)) (f.body.occurrences (f.entries ++ env)) fun b =>
      Settled (f.body.occurrences (f.entries ++ env)) (b.occurrences (f.entries ++ env)) := by
    rw [LinkContext.ofBody, scope]
    refine Block.link_settles (fun s _ => s.linksLexically) inside apart names (keys.mono (fun o ho => ?_) fun _ h => h)
    exact List.mem_append_right _ (List.mem_append_right _ ho)
  refine body.andThen fun b hb => ?_
  refine quiet_modify.before fun _ => .pure ⟨?_, rfl, rfl⟩
  have entries := FunctionDef.entries_eq (g := { f with params := ps, returns := rs, body := b }) rfl hps.2
  simp only [Settled, FunctionDef.occurrences, entries, hps.1, hrs.1, hb, List.map_append]

theorem StateItem.link_settles {i : StateItem} {c : LinkContext} {env : Env} (reads : c.scope.Reads env []) :
    Settles (i.link c) (i.occurrences env) fun i' =>
      Settled (i.occurrences env) (i'.occurrences env) ∧ i'.entry? = i.entry? := by
  cases i with
  | var v =>
    refine (v.type.link_settles c env reads.stands).bind fun t ht => ?_
    refine quiet_record.before fun _ => ?_
    refine (Expr.link?_settles v.init c env reads.stands).andThen fun e he => .pure ⟨?_, rfl⟩
    simp only [Settled, StateItem.occurrences, ht, he, List.map_append]
  | comment | blank => exact .pure ⟨rfl, rfl⟩

theorem StructDef.link_settles {d : StructDef} {c : LinkContext} {env : Env} (reads : c.scope.Reads env [])
    (members : (d.entries.map Prod.fst).Nodup) :
    Settles (d.link c) (d.occurrences env) fun d' =>
      Settled (d.occurrences env) (d'.occurrences env) ∧ d'.name = d.name ∧ d'.id = d.id := by
  have names : d.names = d.entries := collectNames_of_nodup members
  have each : ∀ m ∈ d.members, Settles
      (m.link { c with scope := (c.scope.enter d.names).enter [(m.name, m.ref)] })
      (m.occurrences (m.entry :: (d.entries ++ env))) fun m' =>
      Settled (m.occurrences (m.entry :: (d.entries ++ env))) (m'.occurrences (m.entry :: (d.entries ++ env))) ∧
        m'.entry = m.entry := by
    intro m hm
    rw [names]
    exact m.link_settles _ _ ((reads.enter d.entries).enter [m.entry]).stands
  refine (Settles.mapM each).andThen fun ms hms => .pure ⟨?_, rfl, rfl⟩
  have entries : ms.map LocalVar.entry = d.members.map LocalVar.entry :=
    forall₂_map_eq (hms.imp fun _ _ h => h.2)
  refine settled_flatMap (hms.imp fun m m' h => ?_)
  dsimp only [StructDef.entries]
  rw [entries, h.2]
  exact h.1

/-! ## Numbers of visible declarations -/

/-- The declaration of a variable by a statement. -/
def Decl.isLocal : Decl → Bool
  | .variable .localVar _ _ _ => true
  | _ => false

/-- The number is that of a declaration that is no statement's. -/
def SourceUnit.Outer (u : SourceUnit) (i : Nat) : Prop := ∃ d, (i, d) ∈ u.symbols.entries ∧ d.isLocal = false

section Outer

variable {u : SourceUnit} {c : Contract} {f : FunctionDef}

theorem Contract.decls_mem (hc : c ∈ u.contracts) {e : Nat × Decl} (h : e ∈ c.decls) : e ∈ u.symbols.entries :=
  List.mem_append_left _ (List.mem_flatMap.mpr ⟨c, hc, h⟩)

theorem FunctionDef.decls_mem (hf : f ∈ c.allFunctions) {e : Nat × Decl} (h : e ∈ f.decls c.name) : e ∈ c.decls :=
  List.mem_append_right _ (List.mem_flatMap.mpr ⟨f, hf, h⟩)

theorem FunctionDef.entries_outer (hc : c ∈ u.contracts) (hf : f ∈ c.allFunctions) :
    ∀ p ∈ f.entries, u.Outer p.2.id := by
  intro p hp
  obtain ⟨q, hq, hp⟩ := List.mem_filterMap.mp hp
  obtain ⟨n, _, rfl⟩ := Option.map_eq_some_iff.mp hp
  have param : Decl.ofParam q ∈ f.decls c.name :=
    List.mem_append_left _ (List.mem_cons_of_mem _ (List.mem_map.mpr ⟨q, List.mem_append_left _ hq, rfl⟩))
  exact ⟨_, Contract.decls_mem hc (FunctionDef.decls_mem hf param), rfl⟩

theorem Contract.entries_outer (hc : c ∈ u.contracts) : ∀ p ∈ c.entries, u.Outer p.2.id := by
  have declares {e : Nat × Decl} (h : e ∈ c.decls) (outer : e.2.isLocal = false) : u.Outer e.1 :=
    ⟨e.2, Contract.decls_mem hc h, outer⟩
  intro p hp
  unfold Contract.entries at hp
  simp only [List.mem_append, List.mem_map] at hp
  rcases hp with ((⟨v, hv, rfl⟩ | ⟨f, hf, rfl⟩) | ⟨s, hs, rfl⟩) | ⟨e, he, rfl⟩
  · have state : Decl.ofState v ∈ c.decls :=
      List.mem_append_left _ (List.mem_append_right _ (List.mem_map.mpr ⟨v, hv, rfl⟩))
    exact declares state rfl
  · have function : (f.id, .function f c.name) ∈ c.decls :=
      FunctionDef.decls_mem (List.mem_append_right _ hf) List.mem_cons_self
    exact declares function rfl
  · have struct : (s.id, .space .struct s.name ([c.name] ++ [s.name]) s.names none) ∈ c.decls :=
      List.mem_append_left _ (List.mem_append_left _ (List.mem_append_right _
        (List.mem_flatMap.mpr ⟨s, hs, List.mem_cons_self⟩)))
    exact declares struct rfl
  · have enum : (e.id, .space .enum e.name [c.name, e.name] e.names e.type) ∈ c.decls :=
      List.mem_append_left _ (List.mem_append_left _ (List.mem_append_left _ (List.mem_cons_of_mem _
        (List.mem_flatMap.mpr ⟨e, he, List.mem_cons_self⟩))))
    exact declares enum rfl

theorem Builtin.names_outer : ∀ p ∈ Builtin.names, ∃ e ∈ Builtin.decls, e.1 = p.2.id ∧ e.2.isLocal = false := by
  decide

theorem SourceUnit.entries_outer : ∀ p ∈ u.entries, u.Outer p.2.id := by
  intro p hp
  rcases List.mem_append.mp hp with hp | hp
  · obtain ⟨c, hc, rfl⟩ := List.mem_map.mp hp
    have contract : (c.id, .space .contract c.name [c.name] c.names none) ∈ c.decls := List.mem_cons_self
    exact ⟨_, Contract.decls_mem hc contract, rfl⟩
  · obtain ⟨⟨i, d⟩, he, rfl, other⟩ := Builtin.names_outer p hp
    exact ⟨d, List.mem_append_right _ he, other⟩

/-- The numbers of variables in a body are those of declarations by statements only. -/
theorem SourceUnit.body_inner (distinct : u.numbers.Nodup) (hc : c ∈ u.contracts) (hf : f ∈ c.allFunctions) {i : Nat}
    (hi : i ∈ f.body.numbers) : ¬ u.Outer i := by
  rintro ⟨d, hd, outer⟩
  obtain ⟨v, hv, rfl⟩ := List.mem_map.mp hi
  have mem : Decl.ofLocal v ∈ u.symbols.entries :=
    Contract.decls_mem hc (FunctionDef.decls_mem hf (List.mem_append_right _ (List.mem_map.mpr ⟨v, hv, rfl⟩)))
  have same := (lookup_of_mem distinct mem).symm.trans (lookup_of_mem distinct hd)
  cases same
  cases outer

end Outer

/-! ## Names in programs -/

/-- Declarations have numbers of their own, which no key of a mapping has, and the names of contracts, of the members
of a contract or a struct and of parameters are distinct. -/
structure SourceUnit.Distinct (u : SourceUnit) : Prop where
  numbers : u.numbers.Nodup
  keys : KeysApart u.occurrences u.numbers
  contracts : (u.entries.map Prod.fst).Nodup
  members : ∀ c ∈ u.contracts, (c.entries.map Prod.fst).Nodup
  fields : ∀ c ∈ u.contracts, ∀ s ∈ c.structs, (s.entries.map Prod.fst).Nodup
  params : ∀ c ∈ u.contracts, ∀ f ∈ c.allFunctions, (f.entries.map Prod.fst).Nodup

theorem Contract.names_eq {c : Contract} (h : (c.entries.map Prod.fst).Nodup) : c.names = c.entries := by
  have groups : c.nameGroups.flatten = c.entries := by
    unfold Contract.entries at h ⊢
    simp only [List.map_append, List.nodup_append] at h
    obtain ⟨⟨⟨state, functions, _⟩, structs, _⟩, enums, _⟩ := h
    simp only [Contract.nameGroups, List.flatten_cons, List.flatten_nil, List.append_nil, collectNames_of_nodup state,
      collectNames_of_nodup functions, collectNames_of_nodup structs, collectNames_of_nodup enums, List.append_assoc]
  rw [Contract.names, groups, collectNames_of_nodup h]

/-- The linked contract has members of the same names, and its uses are linked to what they stand for. -/
structure Contract.LinkedTo (env : Env) (c c' : Contract) : Prop where
  uses : Settled (c.occurrences env) (c'.occurrences env)
  name : c'.name = c.name
  id : c'.id = c.id

theorem FunctionDef.LinkedTo.entry {env : Env} {f f' : FunctionDef} (h : f.LinkedTo env f') :
    (f'.title, f'.ref) = (f.title, f.ref) := by
  rw [FunctionDef.title, FunctionDef.title, FunctionDef.ref, FunctionDef.ref, h.name, h.id]

theorem SourceUnit.reads {u : SourceUnit} (distinct : u.Distinct) {c : Contract} (hc : c ∈ u.contracts) :
    (c.context u).scope.Reads (c.entries ++ u.entries) [] := by
  have names : u.names = u.entries := collectNames_of_nodup distinct.contracts
  unfold Contract.context
  rw [names, Contract.names_eq (distinct.members c hc)]
  simpa using (Scope.Reads.empty.enter u.entries).enter c.entries

theorem SourceUnit.apart {u : SourceUnit} (distinct : u.Distinct) {c : Contract} (hc : c ∈ u.contracts)
    {f : FunctionDef} (hf : f ∈ c.allFunctions) :
    ((c.context u).scope.enter f.entries).Apart f.body.numbers where
  nodup := body_numbers distinct.numbers (List.mem_flatMap.mpr ⟨c, hc, hf⟩)
  fresh i hi visible := by
    refine body_inner distinct.numbers hc hf hi ?_
    have names : u.names = u.entries := collectNames_of_nodup distinct.contracts
    unfold Contract.context at visible
    rw [names, Contract.names_eq (distinct.members c hc)] at visible
    simp only [Scope.visible_enter, List.mem_append, List.mem_map] at visible
    rcases visible with ⟨p, hp, rfl⟩ | ⟨p, hp, rfl⟩ | ⟨p, hp, rfl⟩ | visible
    · exact FunctionDef.entries_outer hc hf p hp
    · exact Contract.entries_outer hc p hp
    · exact SourceUnit.entries_outer p hp
    · cases visible

theorem Contract.function_link_settles {u : SourceUnit} (distinct : u.Distinct) {c : Contract} (hc : c ∈ u.contracts)
    (names : c.checkNames u.text = .ok ()) {f : FunctionDef} (hf : f ∈ c.allFunctions) :
    Settles (f.link (c.context u)) (f.occurrences (c.entries ++ u.entries)) (f.LinkedTo (c.entries ++ u.entries)) := by
  unfold Contract.checkNames at names
  obtain ⟨_, bodies, _⟩ := except_bind_ok names
  refine FunctionDef.link_settles (SourceUnit.reads distinct hc) (distinct.params c hc f hf)
    (SourceUnit.apart distinct hc hf) (except_for_ok bodies f hf) (distinct.keys.mono (fun o ho => ?_) fun i hi => ?_)
  · refine List.mem_flatMap.mpr ⟨c, hc, List.mem_append_right _ (List.mem_append_right _ ?_)⟩
    rw [← List.flatMap_append]
    exact List.mem_flatMap.mpr ⟨f, hf, ho⟩
  · obtain ⟨v, hv, rfl⟩ := List.mem_map.mp hi
    have declared : Decl.ofLocal v ∈ f.decls c.name := List.mem_append_right _ (List.mem_map.mpr ⟨v, hv, rfl⟩)
    exact List.mem_map.mpr ⟨_, Contract.decls_mem hc (FunctionDef.decls_mem hf declared), rfl⟩

theorem Contract.link_settles {u : SourceUnit} (distinct : u.Distinct) {c : Contract} (hc : c ∈ u.contracts)
    (names : c.checkNames u.text = .ok ()) :
    Settles (c.link u) (c.occurrences u.entries) (c.LinkedTo u.entries) := by
  have reads := SourceUnit.reads distinct hc
  unfold Contract.link Contract.occurrences
  refine (Settles.mapM fun d hd => StructDef.link_settles reads (distinct.fields c hc d hd)).bind fun structs hs => ?_
  refine (Settles.mapM fun i _ => StateItem.link_settles reads).bind fun state hi => ?_
  refine (Settles.mapM fun f hf => function_link_settles distinct hc names (List.mem_append_left _ hf)).bind
    fun constructors hk => ?_
  refine (Settles.mapM fun f hf => function_link_settles distinct hc names (List.mem_append_right _ hf)).andThen
    fun functions hf => .pure ⟨?_, rfl, rfl⟩
  have entries : Contract.entries { c with structs, state, constructors, functions } = c.entries := by
    have structNames : structs.map (fun s => (s.name, s.ref)) = c.structs.map fun s => (s.name, s.ref) :=
      forall₂_map_eq (hs.imp fun _ _ h => by rw [StructDef.ref, StructDef.ref, h.2.1, h.2.2])
    have functionNames : functions.map (fun f => (f.title, f.ref)) = c.functions.map fun f => (f.title, f.ref) :=
      forall₂_map_eq (hf.imp fun _ _ h => h.entry)
    have stateNames : state.map StateItem.entry? = c.state.map StateItem.entry? :=
      forall₂_map_eq (hi.imp fun _ _ h => h.2)
    simp only [Contract.entries, Contract.stateVars_entries, structNames, functionNames, stateNames]
  simp only [Settled, Contract.occurrences, entries, settled_flatMap (hs.imp fun _ _ h => h.1),
    settled_flatMap (hi.imp fun _ _ h => h.1), settled_flatMap (hk.imp fun _ _ h => h.uses),
    settled_flatMap (hf.imp fun _ _ h => h.uses), List.map_append]

/-- A counter in a loop and a variable of its body hide a state variable and a parameter; the initial value of the
counter still sees the state variable. -/
def shadowing : SourceUnit :=
  let body : Block := .ofStmts [.declareAt 106 .publicUint "y" (.nameAt 107 "x"), .eval default (.nameAt 108 "y")]
  let loop := Stmt.forLoop default (some (.declareAt 103 .publicUint "x" (.nameAt 104 "x"))) (.nameAt 105 "x") none body
  .sketch 100 "Counter" [⟨101, [], .publicUint, "x", none⟩]
    [.sketch 102 "count" "public" [.sketch 109 .publicUint "y"] [loop, .eval default (.nameAt 110 "y")]]

theorem shadowing_distinct : shadowing.Distinct := by
  constructor <;> decide

end Shroud
