import Mathlib.Data.List.Basic
import Shroud.Split.Contract
import Shroud.Proofs.Nodes
import Shroud.Proofs.Pointwise

/-!
# Circuit variables in expressions

Source programs hold no circuit variables. The splitter puts them into expressions: a value of the circuit is
read by the name of its variable, an output is a member of the variable that holds all of them in public code, and
operations on ciphertexts name the key and the randomness that they need.

**Assets** are the circuit variables that an expression draws on: `e.Draws Q` says that all of them satisfy `Q`. The
positions are those that the splitter looks into; types and owners are not.

**Results.** Renumbering, copying and linking code, and converting an expression to a type, put no circuit
variables into it.
-/

namespace Shroud

/-- What an expression draws on: a value of the circuit, or something that merely helps to compute one, such as a
key. -/
inductive Asset where
  | value (v : CircuitVar)
  | aid (e : Expr)

instance : Coe CircuitVar Asset := ⟨.value⟩

/-- A condition on values. -/
def Asset.Only (Q : CircuitVar → Prop) : Asset → Prop
  | .value v => Q v
  | .aid _ => True

/-- A name that is a circuit variable is read as a value, unless it belongs to public code. -/
def Ident.Reads (Q : Asset → Prop) : Ident → Prop
  | .plain _ => True
  | .circuit v => Q v ∨ v.role = .contractValue ∧ Q (.aid v.read)

/-- A member that is a circuit variable is one that public code can see. -/
def Ident.Shows (Q : Asset → Prop) : Ident → Prop
  | .plain _ => True
  | .circuit v => Q v

/-! ## Assets of an expression -/

mutual

/-- All circuit variables of the expression satisfy `Q`. -/
def Expr.Draws (Q : Asset → Prop) : Expr → Prop
  | .call _ f as _ k => f.Draws Q ∧ Expr.AllDraws Q as ∧ ∀ v ∈ k, Q (.aid v.read)
  | .operator _ _ _ _ r => ∀ e ∈ r, Q (.aid e)
  | .new _ as | .arrayLit _ as _ | .tuple _ as => Expr.AllDraws Q as
  | .cast _ _ e _ => e.Draws Q
  | .ident _ n _ => n.Reads Q
  | .member _ b n _ => b.Draws Q ∧ n.Shows Q
  | .index _ b k _ => b.Draws Q ∧ k.Draws Q
  | .reclassify _ _ e p _ => e.Draws Q ∧ p.Draws Q
  | _ => True

def Expr.AllDraws (Q : Asset → Prop) : List Expr → Prop
  | [] => True
  | e :: es => e.Draws Q ∧ Expr.AllDraws Q es

end

section Draws

variable {Q R : Asset → Prop}

theorem Expr.allDraws_iff {es : List Expr} : Expr.AllDraws Q es ↔ ∀ e ∈ es, e.Draws Q := by
  induction es with
  | nil => simp [Expr.AllDraws]
  | cons e es ih => simp [Expr.AllDraws, ih]

theorem Ident.Reads.mono (h : ∀ a, Q a → R a) {n : Ident} (hn : n.Reads Q) : n.Reads R := by
  cases n with
  | plain s => trivial
  | circuit v => exact hn.imp (h v) (And.imp_right (h _))

theorem Ident.Shows.mono (h : ∀ a, Q a → R a) {n : Ident} (hn : n.Shows Q) : n.Shows R := by
  cases n with
  | plain s => trivial
  | circuit v => exact h v hn

theorem Expr.Draws.mono (h : ∀ a, Q a → R a) (e : Expr) : e.Draws Q → e.Draws R := by
  have all (es : List Expr) (ih : ∀ a ∈ es, a.Draws Q → a.Draws R) (hes : Expr.AllDraws Q es) :
      Expr.AllDraws R es :=
    Expr.allDraws_iff.mpr fun a ha => ih a ha (Expr.allDraws_iff.mp hes a ha)
  induction e using Expr.inductOn with
  | call i f as o k ihf ihas => exact fun he => ⟨ihf he.1, all as ihas he.2.1, fun v hv => h _ (he.2.2 v hv)⟩
  | new i as ih | tuple i as ih => exact all as ih
  | arrayLit i vs k ih => exact all vs ih
  | cast i t e b ih => exact ih
  | member i e n t ih => exact fun he => ⟨ih he.1, he.2.mono h⟩
  | index i e k t ihe ihk => exact fun he => ⟨ihe he.1, ihk he.2⟩
  | reclassify i m e p k ihe ihp => exact fun he => ⟨ihe he.1, ihp he.2⟩
  | leaf e hl =>
    cases e with
    | ident i n t => exact Ident.Reads.mono h
    | operator i o p d r => exact fun he e hr => h _ (he e hr)
    | boolLit | numLit | me | all => exact fun _ => trivial
    | call | new | cast | arrayLit | tuple | member | index | reclassify => cases hl

theorem Expr.AllDraws.mono (h : ∀ a, Q a → R a) (es : List Expr) (hes : Expr.AllDraws Q es) :
    Expr.AllDraws R es :=
  Expr.allDraws_iff.mpr fun e he => Expr.Draws.mono h e (Expr.allDraws_iff.mp hes e he)

end Draws

section Nodes

variable {Q : Asset → Prop}

theorem Expr.draws_mapInfo {f : Info → Info} {e : Expr} : (e.mapInfo f).Draws Q ↔ e.Draws Q := by
  cases e <;> exact Iff.rfl

theorem Expr.draws_withType {t : AnnTy} {e : Expr} : (e.withType t).Draws Q ↔ e.Draws Q := Expr.draws_mapInfo

theorem Expr.draws_withPos {p : Pos} {e : Expr} : (e.withPos p).Draws Q ↔ e.Draws Q := Expr.draws_mapInfo

theorem CircuitVar.draws_read {v : CircuitVar} (h : Q v) : v.read.Draws Q := .inl h

theorem Expr.ofLabel_draws (l : Label) : (Expr.ofLabel l).Draws Q := by cases l <;> trivial

/-- What is held in place of an expression that is a circuit value already. -/
theorem Expr.Draws.circuitValue {e : Expr} {v : CircuitVar} (h : e.Draws Q) (hv : e.circuitValue? = some v) :
    Q v := by
  unfold Expr.circuitValue? at hv
  split at hv
  · split at hv
    · cases hv
    · rename_i hr
      cases hv
      exact h.resolve_right fun no => hr no.1
  · cases hv

end Nodes

/-! ## Circuit variables of statements -/

mutual

/-- All circuit variables of the statement satisfy `Q`. -/
def Stmt.Draws (Q : Asset → Prop) : Stmt → Prop
  | .ifThen _ c t none => c.Draws Q ∧ t.Draws Q
  | .ifThen _ c t (some e) => c.Draws Q ∧ t.Draws Q ∧ e.Draws Q
  | .whileLoop _ c b => c.Draws Q ∧ b.Draws Q
  | .doWhile _ b c => b.Draws Q ∧ c.Draws Q
  | .forLoop _ init c update b => Stmt.OptionalDraws Q init ∧ c.Draws Q ∧ Stmt.OptionalDraws Q update ∧ b.Draws Q
  | .ret _ e => ∀ x, e = some x → x.Draws Q
  | .eval _ e | .require _ e => e.Draws Q
  | .assign _ l r _ _ => l.Draws Q ∧ r.Draws Q
  | .declare _ _ e => ∀ x, e = some x → x.Draws Q
  | .block b => b.Draws Q
  | .seq _ ss _ => Stmt.AllDraws Q ss
  | _ => True

def Block.Draws (Q : Asset → Prop) : Block → Prop
  | ⟨_, ss, _⟩ => Stmt.AllDraws Q ss

def Stmt.AllDraws (Q : Asset → Prop) : List Stmt → Prop
  | [] => True
  | s :: ss => s.Draws Q ∧ Stmt.AllDraws Q ss

def Stmt.OptionalDraws (Q : Asset → Prop) : Option Stmt → Prop
  | none => True
  | some s => s.Draws Q

end

section StmtOver

variable {Q R : Asset → Prop}

mutual

theorem Stmt.Draws.mono (h : ∀ a, Q a → R a) : ∀ s : Stmt, s.Draws Q → s.Draws R
  | .ifThen _ c t none, hs => ⟨Expr.Draws.mono h c hs.1, Block.Draws.mono h t hs.2⟩
  | .ifThen _ c t (some e), hs =>
    ⟨Expr.Draws.mono h c hs.1, Block.Draws.mono h t hs.2.1, Block.Draws.mono h e hs.2.2⟩
  | .whileLoop _ c b, hs => ⟨Expr.Draws.mono h c hs.1, Block.Draws.mono h b hs.2⟩
  | .doWhile _ b c, hs => ⟨Block.Draws.mono h b hs.1, Expr.Draws.mono h c hs.2⟩
  | .forLoop _ init c update b, hs =>
    ⟨Stmt.OptionalDraws.mono h init hs.1, Expr.Draws.mono h c hs.2.1, Stmt.OptionalDraws.mono h update hs.2.2.1,
      Block.Draws.mono h b hs.2.2.2⟩
  | .ret _ _, hs => fun x hx => Expr.Draws.mono h x (hs x hx)
  | .eval _ e, hs => Expr.Draws.mono h e hs
  | .require _ e, hs => Expr.Draws.mono h e hs
  | .assign _ l r _ _, hs => ⟨Expr.Draws.mono h l hs.1, Expr.Draws.mono h r hs.2⟩
  | .declare _ _ _, hs => fun x hx => Expr.Draws.mono h x (hs x hx)
  | .block b, hs => Block.Draws.mono h b hs
  | .seq _ ss _, hs => Stmt.AllDraws.mono h ss hs
  | .breakLoop _, _ | .continueLoop _, _ | .compute _ _, _ | .enterKey _ _, _ | .comment _, _ | .blank, _ => trivial

theorem Block.Draws.mono (h : ∀ a, Q a → R a) : ∀ b : Block, b.Draws Q → b.Draws R
  | ⟨_, ss, _⟩, hb => Stmt.AllDraws.mono h ss hb

theorem Stmt.AllDraws.mono (h : ∀ a, Q a → R a) : ∀ ss : List Stmt, Stmt.AllDraws Q ss → Stmt.AllDraws R ss
  | [], _ => trivial
  | s :: ss, hs => ⟨Stmt.Draws.mono h s hs.1, Stmt.AllDraws.mono h ss hs.2⟩

theorem Stmt.OptionalDraws.mono (h : ∀ a, Q a → R a) :
    ∀ s : Option Stmt, Stmt.OptionalDraws Q s → Stmt.OptionalDraws R s
  | none, _ => trivial
  | some s, hs => Stmt.Draws.mono h s hs

end

end StmtOver

/-! ## Copies -/

section Copies

variable {Q : Asset → Prop}

attribute [local simp] Expr.bottomUp Stmt.traverse Stmt.copy Expr.link Stmt.link

theorem Expr.bottomUp_draws {σ : Type} {f : Expr → StateM σ Expr} (hf : ∀ e, e.Draws Q → Always (Expr.Draws Q) (f e))
    (e : Expr) : e.Draws Q → Always (Expr.Draws Q) (e.bottomUp f) := by
  have all (es : List Expr) (ih : ∀ a ∈ es, a.Draws Q → Always (Expr.Draws Q) (a.bottomUp f)) :
      Expr.AllDraws Q es → Always (Expr.AllDraws Q) (Expr.bottomUpAll f es) := by
    induction es with
    | nil => exact fun _ => .pure trivial
    | cons e es ihes =>
      intro h
      simp only [Expr.bottomUpAll]
      refine (ih e List.mem_cons_self h.1).bind fun e he => ?_
      refine (ihes (fun a ha => ih a (List.mem_cons_of_mem _ ha)) h.2).bind fun es hes => ?_
      exact .pure ⟨he, hes⟩
  induction e using Expr.inductOn with
  | call i g as o k ihg ihas =>
    intro h
    simp only [Expr.bottomUp]
    exact (ihg h.1).bind fun g hg => (all as ihas h.2.1).bind fun as has => hf _ ⟨hg, has, h.2.2⟩
  | new i as ih | tuple i as ih =>
    intro h
    simp only [Expr.bottomUp]
    exact (all as ih h).bind fun as has => hf _ has
  | arrayLit i vs k ih =>
    intro h
    simp only [Expr.bottomUp]
    exact (all vs ih h).bind fun vs hvs => hf _ hvs
  | cast i t e b ih =>
    intro h
    simp only [Expr.bottomUp]
    exact (ih h).bind fun e he => hf _ he
  | member i e n t ih =>
    intro h
    simp only [Expr.bottomUp]
    exact (ih h.1).bind fun e he => hf _ ⟨he, h.2⟩
  | index i e k t ihe ihk =>
    intro h
    simp only [Expr.bottomUp]
    exact (ihe h.1).bind fun e he => (ihk h.2).bind fun k hk => hf _ ⟨he, hk⟩
  | reclassify i m e p k ihe ihp =>
    intro h
    simp only [Expr.bottomUp]
    exact (ihe h.1).bind fun e he => (ihp h.2).bind fun p hp => hf _ ⟨he, hp⟩
  | leaf e hl =>
    cases e with
    | operator | boolLit | numLit | ident | me | all =>
      intro h
      simp only [Expr.bottomUp]
      exact hf _ h
    | call | new | cast | arrayLit | tuple | member | index | reclassify => cases hl

theorem Expr.renumber_draws (e : Expr) (h : e.Draws Q) : Always (Expr.Draws Q) e.renumber :=
  Expr.bottomUp_draws (fun _ he _ => Expr.draws_mapInfo.mpr he) e h

theorem Expr.copyNode_draws (types : Bool) (e : Expr) (h : e.Draws Q) : Always (Expr.Draws Q) (e.copyNode types) := by
  intro s
  cases e with
  | reclassify i m e p k =>
    cases m with
    | reveal | encrypt => exact h
    | rehom => exact ⟨h.1, trivial⟩
  | call i f as o k => exact ⟨h.1, h.2.1, nofun⟩
  | operator i o p d r => exact nofun
  | new | cast | boolLit | numLit | arrayLit | tuple | ident | member | index | me | all =>
    exact h

theorem Expr.copy_draws (types : Bool) (e : Expr) (h : e.Draws Q) : Always (Expr.Draws Q) (e.copy types) :=
  Expr.bottomUp_draws (Expr.copyNode_draws types) e h

mutual

theorem Stmt.renumber_draws : ∀ s : Stmt, s.Draws Q →
    Always (Stmt.Draws Q) (s.traverse (m := StateM Nat) (fun _ e => e.renumber) fun _ t => pure t)
  | .ifThen i c t none, h => by
    simp only [Stmt.traverse]
    exact (c.renumber_draws h.1).bind fun c hc => (t.renumber_draws h.2).bind fun t ht => .pure ⟨hc, ht⟩
  | .ifThen i c t (some e), h => by
    simp only [Stmt.traverse]
    exact (c.renumber_draws h.1).bind fun c hc => (t.renumber_draws h.2.1).bind fun t ht =>
      (e.renumber_draws h.2.2).bind fun e he => .pure ⟨hc, ht, he⟩
  | .whileLoop i c b, h => by
    simp only [Stmt.traverse]
    exact (c.renumber_draws h.1).bind fun c hc => (b.renumber_draws h.2).bind fun b hb => .pure ⟨hc, hb⟩
  | .doWhile i b c, h => by
    simp only [Stmt.traverse]
    exact (b.renumber_draws h.1).bind fun b hb => (c.renumber_draws h.2).bind fun c hc => .pure ⟨hb, hc⟩
  | .forLoop i init c update b, ⟨hi, hc, hu, hb⟩ => by
    have optional : ∀ s : Option Stmt, Stmt.OptionalDraws Q s → (∀ t, s = some t → t.Draws Q →
        Always (Stmt.Draws Q) (t.traverse (m := StateM Nat) (fun _ e => e.renumber) fun _ t => pure t)) →
        Always (Stmt.OptionalDraws Q) (match s with
          | none => (pure none : StateM Nat (Option Stmt))
          | some s => do return some (← s.traverse (fun _ e => e.renumber) fun _ t => pure t))
      | none, _, _ => .pure trivial
      | some s, hs, ih => (ih s rfl hs).bind fun s hs => .pure hs
    unfold Stmt.traverse
    refine (optional init hi ?_).bind fun init hi => (c.renumber_draws hc).bind fun c hc =>
      (optional update hu ?_).bind fun update hu =>
        (b.renumber_draws hb).bind fun b hb => .pure ⟨hi, hc, hu, hb⟩
    · rintro s rfl hs
      exact s.renumber_draws hs
    · rintro s rfl hs
      exact s.renumber_draws hs
  | .ret i none, h => by
    simp only [Stmt.traverse]
    exact .pure h
  | .ret i (some e), h => by
    simp only [Stmt.traverse]
    exact (e.renumber_draws (h e rfl)).bind fun e he => .pure (by rintro _ ⟨⟩; exact he)
  | .eval i e, h => by
    simp only [Stmt.traverse]
    exact (e.renumber_draws h).bind fun e he => .pure he
  | .require i e, h => by
    simp only [Stmt.traverse]
    exact (e.renumber_draws h).bind fun e he => .pure he
  | .assign i l r o b, h => by
    simp only [Stmt.traverse]
    exact (l.renumber_draws h.1).bind fun l hl => (r.renumber_draws h.2).bind fun r hr => .pure ⟨hl, hr⟩
  | .declare i v none, h => by
    simp only [Stmt.traverse]
    exact .after fun t => .pure nofun
  | .declare i v (some e), h => by
    simp only [Stmt.traverse]
    exact .after fun t => (e.renumber_draws (h e rfl)).bind fun e he => .pure (by rintro _ ⟨⟩; exact he)
  | .block b, h => by
    simp only [Stmt.traverse]
    exact (b.renumber_draws h).bind fun b hb => .pure hb
  | .seq i ss x, h => by
    simp only [Stmt.traverse]
    exact (Stmt.renumberAll_draws ss h).bind fun ss hss => .pure hss
  | .breakLoop i, h => .pure h
  | .continueLoop i, h => .pure h
  | .compute i v, h => .pure h
  | .enterKey i b, h => .pure h
  | .comment t, h => .pure h
  | .blank, h => .pure h

theorem Block.renumber_draws : ∀ b : Block, b.Draws Q → Always (Block.Draws Q) b.renumber
  | ⟨i, ss, x⟩, h => by
    unfold Block.renumber
    simp only [Block.traverse]
    exact (Stmt.renumberAll_draws ss h).bind fun ss hss => .pure hss

theorem Stmt.renumberAll_draws : ∀ ss : List Stmt, Stmt.AllDraws Q ss →
    Always (Stmt.AllDraws Q) (Stmt.traverseAll (m := StateM Nat) (fun _ e => e.renumber) (fun _ t => pure t) ss)
  | [], _ => .pure trivial
  | s :: ss, h => by
    simp only [Stmt.traverseAll]
    exact (s.renumber_draws h.1).bind fun s hs => (Stmt.renumberAll_draws ss h.2).bind fun ss hss => .pure ⟨hs, hss⟩

end

mutual

theorem Stmt.copy_draws (f : Fidelity) : ∀ s : Stmt, s.Draws Q → Always (Stmt.Draws Q) (s.copy f)
  | .ifThen i c t none, h => by
    simp only [Stmt.copy]
    exact (c.copy_draws _ h.1).bind fun c hc => (t.copy_draws f h.2).bind fun t ht => .pure ⟨hc, ht⟩
  | .ifThen i c t (some e), h => by
    simp only [Stmt.copy]
    exact (c.copy_draws _ h.1).bind fun c hc => (t.copy_draws f h.2.1).bind fun t ht =>
      (e.copy_draws f h.2.2).bind fun e he => .pure ⟨hc, ht, he⟩
  | .whileLoop i c b, h => by
    simp only [Stmt.copy]
    exact (c.copy_draws _ h.1).bind fun c hc => (b.copy_draws f h.2).bind fun b hb => .pure ⟨hc, hb⟩
  | .doWhile i b c, h => by
    simp only [Stmt.copy]
    exact (b.copy_draws f h.1).bind fun b hb => (c.copy_draws _ h.2).bind fun c hc => .pure ⟨hb, hc⟩
  | .forLoop i init c update b, ⟨hi, hc, hu, hb⟩ => by
    have optional : ∀ s : Option Stmt, Stmt.OptionalDraws Q s →
        (∀ t, s = some t → t.Draws Q → Always (Stmt.Draws Q) (t.copy f)) →
        Always (Stmt.OptionalDraws Q) (match s with
          | none => (return none : StateM Nat (Option Stmt))
          | some s => do return some (← s.copy f))
      | none, _, _ => .pure trivial
      | some s, hs, ih => (ih s rfl hs).bind fun s hs => .pure hs
    unfold Stmt.copy
    refine (optional init hi ?_).bind fun init hi => (c.copy_draws _ hc).bind fun c hc =>
      (optional update hu ?_).bind fun update hu =>
        (b.copy_draws f hb).bind fun b hb => .pure ⟨hi, hc, hu, hb⟩
    · rintro s rfl hs
      exact s.copy_draws f hs
    · rintro s rfl hs
      exact s.copy_draws f hs
  | .ret i none, h => by
    simp only [Stmt.copy]
    exact .pure h
  | .ret i (some e), h => by
    simp only [Stmt.copy]
    exact (e.copy_draws _ (h e rfl)).bind fun e he => .pure (by rintro _ ⟨⟩; exact he)
  | .eval i e, h => by
    simp only [Stmt.copy]
    exact (e.copy_draws _ h).bind fun e he => .pure he
  | .require i e, h => by
    simp only [Stmt.copy]
    exact (e.copy_draws _ h).bind fun e he => .pure he
  | .assign i l r o b, h => by
    simp only [Stmt.copy]
    exact (l.copy_draws _ h.1).bind fun l hl => (r.copy_draws _ h.2).bind fun r hr => .pure ⟨hl, hr⟩
  | .declare i v none, h => by
    simp only [Stmt.copy]
    exact .after fun v => .pure nofun
  | .declare i v (some e), h => by
    simp only [Stmt.copy]
    exact .after fun v => (e.copy_draws _ (h e rfl)).bind fun e he => .pure (by rintro _ ⟨⟩; exact he)
  | .block b, h => by
    simp only [Stmt.copy]
    exact (b.copy_draws f h).bind fun b hb => .pure hb
  | .seq i ss x, h => by
    simp only [Stmt.copy]
    exact (Stmt.copyAll_draws f ss h).bind fun ss hss => .pure hss
  | .breakLoop i, h => .pure h
  | .continueLoop i, h => .pure h
  | .compute i v, h => .pure h
  | .enterKey i b, h => .pure h
  | .comment t, h => .pure h
  | .blank, h => .pure h

theorem Block.copy_draws (f : Fidelity) : ∀ b : Block, b.Draws Q → Always (Block.Draws Q) (b.copy f)
  | ⟨i, ss, x⟩, h => by
    simp only [Block.copy]
    exact (Stmt.copyAll_draws f ss h).bind fun ss hss => .pure hss

theorem Stmt.copyAll_draws (f : Fidelity) : ∀ ss : List Stmt, Stmt.AllDraws Q ss →
    Always (Stmt.AllDraws Q) (Stmt.copyAll f ss)
  | [], _ => .pure trivial
  | s :: ss, h => by
    simp only [Stmt.copyAll]
    exact (s.copy_draws f h.1).bind fun s hs => (Stmt.copyAll_draws f ss h.2).bind fun ss hss => .pure ⟨hs, hss⟩

end

end Copies

/-! ## Linked code -/

section Links

variable {Q : Asset → Prop}

theorem Expr.link_draws (e : Expr) : ∀ c : LinkContext, e.Draws Q → Yields (Expr.Draws Q) (e.link c) := by
  have all (es : List Expr) (ih : ∀ a ∈ es, ∀ c : LinkContext, a.Draws Q → Yields (Expr.Draws Q) (a.link c)) :
      ∀ c : LinkContext, Expr.AllDraws Q es → Yields (Expr.AllDraws Q) (Expr.linkAll c es) := by
    induction es with
    | nil => exact fun _ _ => .pure trivial
    | cons e es ihes =>
      intro c h
      simp only [Expr.linkAll]
      refine (ih e List.mem_cons_self c h.1).bind fun e he => ?_
      refine (ihes (fun a ha => ih a (List.mem_cons_of_mem _ ha)) c h.2).bind fun es hes => ?_
      exact .pure ⟨he, hes⟩
  induction e using Expr.inductOn with
  | call i f as o k ihf ihas =>
    intro c h
    simp only [Expr.link]
    exact (ihf c h.1).bind fun f hf => (all as ihas c h.2.1).bind fun as has => .pure ⟨hf, has, h.2.2⟩
  | new i as ih =>
    intro c h
    simp only [Expr.link]
    exact .after fun i => (all as ih c h).bind fun as has => .pure has
  | tuple i as ih =>
    intro c h
    simp only [Expr.link]
    exact (all as ih c h).bind fun as has => .pure has
  | arrayLit i vs k ih =>
    intro c h
    simp only [Expr.link]
    exact (all vs ih c h).bind fun vs hvs => .pure hvs
  | cast i t e b ih =>
    intro c h
    simp only [Expr.link]
    exact .after fun t => (ih c h).bind fun e he => .pure he
  | member i e n t ih =>
    intro c h
    simp only [Expr.link]
    exact (ih c h.1).bind fun e he => .after fun r => .pure ⟨he, h.2⟩
  | index i e k t ihe ihk =>
    intro c h
    simp only [Expr.link]
    exact (ihe c h.1).bind fun e he => (ihk c h.2).bind fun k hk => .after fun r => .pure ⟨he, hk⟩
  | reclassify i m e p k ihe ihp =>
    intro c h
    simp only [Expr.link]
    exact (ihe c h.1).bind fun e he => (ihp c h.2).bind fun p hp => .pure ⟨he, hp⟩
  | leaf e hl =>
    cases e with
    | ident i n t =>
      intro c h
      simp only [Expr.link]
      exact .after fun r => .pure h
    | operator | boolLit | numLit | me | all => exact fun _ h => .pure h
    | call | new | cast | arrayLit | tuple | member | index | reclassify => cases hl

theorem Expr.link?_draws (c : LinkContext) : ∀ e : Option Expr, (∀ x, e = some x → x.Draws Q) →
    Yields (fun e => ∀ x, e = some x → x.Draws Q) (Expr.link? c e)
  | none, h => .pure h
  | some e, h => (e.link_draws c (h e rfl)).bind fun e he => .pure (by rintro _ ⟨⟩; exact he)

mutual

theorem Stmt.link_draws : ∀ (s : Stmt) (c : LinkContext), s.Draws Q → Yields (Stmt.Draws Q) (s.link c)
  | .ifThen i e t none, c, h => by
    simp only [Stmt.link]
    exact (e.link_draws _ h.1).bind fun e he => (t.link_draws c h.2).bind fun t ht => .pure ⟨he, ht⟩
  | .ifThen i e t (some f), c, h => by
    simp only [Stmt.link]
    exact (e.link_draws _ h.1).bind fun e he => (t.link_draws c h.2.1).bind fun t ht =>
      (f.link_draws c h.2.2).bind fun f hf => .pure ⟨he, ht, hf⟩
  | .whileLoop i e b, c, h => by
    simp only [Stmt.link]
    exact (e.link_draws _ h.1).bind fun e he => (b.link_draws c h.2).bind fun b hb => .pure ⟨he, hb⟩
  | .doWhile i b e, c, h => by
    simp only [Stmt.link]
    exact (b.link_draws c h.1).bind fun b hb => (e.link_draws _ h.2).bind fun e he => .pure ⟨hb, he⟩
  | .forLoop i init e update b, c, ⟨hi, he, hu, hb⟩ => by
    have optional : ∀ (s : Option Stmt) (c : LinkContext), Stmt.OptionalDraws Q s →
        (∀ t, s = some t → ∀ c, t.Draws Q → Yields (Stmt.Draws Q) (t.link c)) →
        Yields (Stmt.OptionalDraws Q) (match s with
          | none => (return none : LinkM (Option Stmt))
          | some s => do return some (← s.link c))
      | none, _, _, _ => .pure trivial
      | some s, c, hs, ih => (ih s rfl c hs).bind fun s hs => .pure hs
    unfold Stmt.link
    refine (optional init _ hi ?_).bind fun init hi => (e.link_draws _ he).bind fun e he =>
      (optional update _ hu ?_).bind fun update hu =>
        (b.link_draws _ hb).bind fun b hb => .pure ⟨hi, he, hu, hb⟩
    · rintro s rfl c hs
      exact s.link_draws c hs
    · rintro s rfl c hs
      exact s.link_draws c hs
  | .ret i e, c, h => by
    simp only [Stmt.link]
    exact (Expr.link?_draws _ e h).bind fun e he => .pure he
  | .eval i e, c, h => by
    simp only [Stmt.link]
    exact (e.link_draws _ h).bind fun e he => .pure he
  | .require i e, c, h => by
    simp only [Stmt.link]
    exact (e.link_draws _ h).bind fun e he => .pure he
  | .assign i l r o b, c, h => by
    simp only [Stmt.link]
    exact (l.link_draws _ h.1).bind fun l hl => (r.link_draws _ h.2).bind fun r hr => .pure ⟨hl, hr⟩
  | .declare i v e, c, h => by
    simp only [Stmt.link]
    exact .after fun v => (Expr.link?_draws _ e h).bind fun e he => .pure he
  | .block b, c, h => by
    simp only [Stmt.link]
    exact (b.link_draws c h).bind fun b hb => .pure hb
  | .seq i ss x, c, h => by
    simp only [Stmt.link]
    exact (Stmt.linkAll_draws ss c h).bind fun ss hss => .pure hss
  | .breakLoop i, c, h => .pure h
  | .continueLoop i, c, h => .pure h
  | .compute i v, c, h => .pure h
  | .enterKey i b, c, h => .pure h
  | .comment t, c, h => .pure h
  | .blank, c, h => .pure h

theorem Block.link_draws : ∀ (b : Block) (c : LinkContext), b.Draws Q → Yields (Block.Draws Q) (b.link c)
  | ⟨i, ss, x⟩, c, h => by
    simp only [Block.link]
    exact (Stmt.linkAll_draws ss _ h).bind fun ss hss => .pure hss

theorem Stmt.linkAll_draws : ∀ (ss : List Stmt) (c : LinkContext), Stmt.AllDraws Q ss →
    Yields (Stmt.AllDraws Q) (Stmt.linkAll c ss)
  | [], c, _ => .pure trivial
  | s :: ss, c, h => by
    simp only [Stmt.linkAll]
    exact (s.link_draws c h.1).bind fun s hs => (Stmt.linkAll_draws ss _ h.2).bind fun ss hss => .pure ⟨hs, hss⟩

end

theorem Block.duplicate_draws (c : LinkContext) (f : Fidelity) (b : Block) (h : b.Draws Q) :
    Yields (Block.Draws Q) (b.duplicate c f) := by
  unfold Block.duplicate
  refine .after fun s => ?_
  exact .after fun _ => .after fun _ => Block.link_draws _ c (b.copy_draws f h s.next)

end Links

/-! ## Parts of generated code -/

section Parts

variable {Q : Asset → Prop}

theorem Expr.indexedBy_draws {e k p : Expr} (he : e.Draws Q) (hk : k.Draws Q) (h : e.indexedBy k = .ok p) :
    p.Draws Q := by
  unfold Expr.indexedBy at h
  split at h
  · cases h
    exact ⟨he, hk⟩
  · cases h

theorem Expr.converted_draws {e p : Expr} {t : Ty} (he : e.Draws Q) (h : e.converted t = .ok p) : p.Draws Q := by
  unfold Expr.converted at h
  dsimp only at h
  split at h
  · cases h
    exact ⟨nofun, ⟨he, trivial, trivial⟩, nofun⟩
  split at h
  · cases h
    exact ⟨nofun, ⟨he, trivial, trivial, trivial⟩, nofun⟩
  split at h
  · cases h
    exact he
  split at h
  · cases h
    exact he
  · split at h <;> cases h

/-- A variable without a value starts with a zero of its type. -/
theorem Expr.zero_draws {t : Ty} {site : Site} {p : Expr} (h : ((Expr.literal 0).castTo t site).result = .ok p) :
    p.Draws Q := by
  unfold Expr.literal Expr.castTo Expr.castTo.plainCast at h
  dsimp only at h
  split at h
  · cases h
  · obtain ⟨_, _, h⟩ := except_bind_ok h
    cases h
    trivial

end Parts

/-! ## Finding circuit variables -/

section Decide

instance {Q : CircuitVar → Prop} [DecidablePred Q] : DecidablePred (Asset.Only Q)
  | .value v => inferInstanceAs (Decidable (Q v))
  | .aid _ => .isTrue trivial

variable (Q : Asset → Prop) [DecidablePred Q]

instance (n : Ident) : Decidable (n.Reads Q) :=
  match n with
  | .plain _ => .isTrue trivial
  | .circuit v => inferInstanceAs (Decidable (Q v ∨ v.role = .contractValue ∧ Q (.aid v.read)))

instance (n : Ident) : Decidable (n.Shows Q) :=
  match n with
  | .plain _ => .isTrue trivial
  | .circuit v => inferInstanceAs (Decidable (Q v))

mutual

def Expr.decideDraws : ∀ e : Expr, Decidable (e.Draws Q)
  | .call _ f as _ k => @instDecidableAnd _ _ (Expr.decideDraws f)
    (@instDecidableAnd _ _ (Expr.decideAllDraws as) (inferInstanceAs (Decidable (∀ v ∈ k, Q (.aid v.read)))))
  | .new _ as => Expr.decideAllDraws as
  | .arrayLit _ as _ => Expr.decideAllDraws as
  | .tuple _ as => Expr.decideAllDraws as
  | .cast _ _ e _ => Expr.decideDraws e
  | .ident _ n _ => inferInstanceAs (Decidable (n.Reads Q))
  | .member _ b n _ => @instDecidableAnd _ _ (Expr.decideDraws b) (inferInstanceAs (Decidable (n.Shows Q)))
  | .index _ b k _ => @instDecidableAnd _ _ (Expr.decideDraws b) (Expr.decideDraws k)
  | .reclassify _ _ e p _ => @instDecidableAnd _ _ (Expr.decideDraws e) (Expr.decideDraws p)
  | .operator _ _ _ _ r => inferInstanceAs (Decidable (∀ e ∈ r, Q (.aid e)))
  | .boolLit .. => .isTrue trivial
  | .numLit .. => .isTrue trivial
  | .me _ => .isTrue trivial
  | .all _ => .isTrue trivial

def Expr.decideAllDraws : ∀ es : List Expr, Decidable (Expr.AllDraws Q es)
  | [] => .isTrue trivial
  | e :: es => @instDecidableAnd _ _ (Expr.decideDraws e) (Expr.decideAllDraws es)

end

instance (e : Expr) : Decidable (e.Draws Q) := e.decideDraws Q

instance (e : Option Expr) : Decidable (∀ x, e = some x → x.Draws Q) :=
  match e with
  | none => .isTrue nofun
  | some e => decidable_of_iff (e.Draws Q) ⟨fun h _ hx => Option.some.inj hx ▸ h, fun h => h e rfl⟩

mutual

def Stmt.decideDraws : ∀ s : Stmt, Decidable (s.Draws Q)
  | .ifThen _ c t none => @instDecidableAnd _ _ (c.decideDraws Q) (Block.decideDraws t)
  | .ifThen _ c t (some e) =>
    @instDecidableAnd _ _ (c.decideDraws Q) (@instDecidableAnd _ _ (Block.decideDraws t) (Block.decideDraws e))
  | .whileLoop _ c b => @instDecidableAnd _ _ (c.decideDraws Q) (Block.decideDraws b)
  | .doWhile _ b c => @instDecidableAnd _ _ (Block.decideDraws b) (c.decideDraws Q)
  | .forLoop _ init c update b =>
    @instDecidableAnd _ _ (Stmt.decideOptionalDraws init) (@instDecidableAnd _ _ (c.decideDraws Q)
      (@instDecidableAnd _ _ (Stmt.decideOptionalDraws update) (Block.decideDraws b)))
  | .ret _ e => inferInstanceAs (Decidable (∀ x, e = some x → x.Draws Q))
  | .eval _ e => e.decideDraws Q
  | .require _ e => e.decideDraws Q
  | .assign _ l r _ _ => @instDecidableAnd _ _ (l.decideDraws Q) (r.decideDraws Q)
  | .declare _ _ e => inferInstanceAs (Decidable (∀ x, e = some x → x.Draws Q))
  | .block b => Block.decideDraws b
  | .seq _ ss _ => Stmt.decideAllDraws ss
  | .breakLoop _ => .isTrue trivial
  | .continueLoop _ => .isTrue trivial
  | .comment _ => .isTrue trivial
  | .blank => .isTrue trivial
  | .compute .. => .isTrue trivial
  | .enterKey .. => .isTrue trivial

def Block.decideDraws : ∀ b : Block, Decidable (b.Draws Q)
  | ⟨_, ss, _⟩ => Stmt.decideAllDraws ss

def Stmt.decideAllDraws : ∀ ss : List Stmt, Decidable (Stmt.AllDraws Q ss)
  | [] => .isTrue trivial
  | s :: ss => @instDecidableAnd _ _ (Stmt.decideDraws s) (Stmt.decideAllDraws ss)

def Stmt.decideOptionalDraws : ∀ s : Option Stmt, Decidable (Stmt.OptionalDraws Q s)
  | none => .isTrue trivial
  | some s => Stmt.decideDraws s

end

instance (b : Block) : Decidable (b.Draws Q) := b.decideDraws Q

end Decide

end Shroud
