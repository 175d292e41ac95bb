import Shroud.Proofs.Behaviour
import Shroud.Proofs.Sketch

/-!
# Conditions that come out

A condition is evaluated operand by operand; when it has come out true or false, what it implies is known to hold.

**Evaluation.** `e.Gives symbols σ v τ` says that evaluating `e` in the store `σ` can give the content `v` and leave the
store `τ`. Names read the store, tuples collect the contents of their parts, connectives look at their second operand
only if the first one does not decide, and comparisons compare contents. Anything else may give anything: a call with
side effects changes all labels but the fixed ones, and code without side effects changes none.

**Polarity.** Whatever way the connectives are nested, a condition that came out false is one whose negation came out
true.

**Results.**

* `Expr.Gives.affects`: what an evaluation can change.
* `Expr.Gives.mayBe`: a condition without side effects comes out as its comparisons allow.
* `Knowledge.assuming_upheld`: what is known after a condition holds in the store that it leaves behind.
-/

namespace Shroud

/-- What a label holds and what an expression gives. -/
inductive Content (α : Type) where
  | word (a : α)
  | truth (b : Bool)
  | tuple (parts : List (Content α))

section Evaluation

variable {α : Type}

/-- What code with these nodes can do to a store. -/
def Node.Affect (symbols : Symbols) (ns : List Node) (σ τ : Store α) : Prop :=
  σ.Keeps symbols τ ∧ ((∀ n ∈ ns, n.Quiet symbols) → τ = σ)

/-- A name gives what the store holds for it. -/
def Expr.Reads (symbols : Symbols) (e : Expr) (σ : Store (Content α)) (v : Content α) (τ : Store (Content α)) : Prop :=
  match e.label? with
  | some x => σ x = some v ∧ τ = σ
  | none => Node.Affect symbols e.nodes σ τ

mutual

/-- Evaluating the expression in `σ` can give `v` and leave `τ`. -/
def Expr.Gives (symbols : Symbols) :
    Expr → Store (Content α) → Content α → Store (Content α) → Prop
  | .tuple _ es, σ, v, τ => ∃ vs, v = .tuple vs ∧ Expr.GiveAll symbols es σ vs τ
  | .call i (.operator j op p h s) args o n, σ, v, τ =>
    match op, args with
    | .paren, a :: _ => a.Gives symbols σ v τ
    | .not, a :: _ => ∃ t, v = .truth (!t) ∧ a.Gives symbols σ (.truth t) τ
    | .and, a :: b :: _ =>
      (v = .truth false ∧ a.Gives symbols σ (.truth false) τ) ∨
        ∃ ρ, a.Gives symbols σ (.truth true) ρ ∧ b.Gives symbols ρ v τ
    | .or, a :: b :: _ =>
      (v = .truth true ∧ a.Gives symbols σ (.truth true) τ) ∨
        ∃ ρ, a.Gives symbols σ (.truth false) ρ ∧ b.Gives symbols ρ v τ
    | .eq, a :: b :: _ =>
      ∃ x y ρ t, v = .truth t ∧ (t = true ↔ x = y) ∧ a.Gives symbols σ x ρ ∧ b.Gives symbols ρ y τ
    | .ne, a :: b :: _ =>
      ∃ x y ρ t, v = .truth t ∧ (t = true ↔ x ≠ y) ∧ a.Gives symbols σ x ρ ∧ b.Gives symbols ρ y τ
    | _, _ => Node.Affect symbols (Expr.call i (.operator j op p h s) args o n).nodes σ τ
  | e, σ, v, τ => e.Reads symbols σ v τ

/-- Evaluating the expressions from left to right can give these contents. -/
def Expr.GiveAll (symbols : Symbols) :
    List Expr → Store (Content α) → List (Content α) → Store (Content α) → Prop
  | [], σ, vs, τ => vs = [] ∧ τ = σ
  | e :: es, σ, vs, τ =>
    ∃ w ws ρ, vs = w :: ws ∧ e.Gives symbols σ w ρ ∧ Expr.GiveAll symbols es ρ ws τ

end

/-! ## What an evaluation can change -/

variable {symbols : Symbols} {σ ρ τ : Store (Content α)}

theorem Store.Keeps.trans {σ ρ τ : Store α} (h : σ.Keeps symbols ρ) (h' : ρ.Keeps symbols τ) : σ.Keeps symbols τ := by
  intro x a fixed hx
  exact h' x a fixed (h x a fixed hx)

/-- Labels that all stand alone. -/
theorem Store.meets_of_apart {k : Knowledge} {σ : Store α} (h : ∀ c ∈ k.classes, ∃ x, c = [x]) : σ.Meets k := by
  rintro x y ⟨c, hc, hx, hy⟩
  obtain ⟨z, rfl⟩ := h c hc
  rw [List.mem_singleton] at hx hy
  exact .inl (hx.trans hy.symm)

theorem Node.Affect.refl (ns : List Node) (σ : Store α) : Node.Affect symbols ns σ σ :=
  ⟨.refl symbols σ, fun _ => rfl⟩

theorem Node.Affect.mono {ns ms : List Node} {σ τ : Store α} (h : Node.Affect symbols ns σ τ) (sub : ns ⊆ ms) :
    Node.Affect symbols ms σ τ :=
  ⟨h.1, fun quiet => h.2 fun n hn => quiet n (sub hn)⟩

theorem Node.Affect.trans {ns : List Node} {σ ρ τ : Store α} (h : Node.Affect symbols ns σ ρ)
    (h' : Node.Affect symbols ns ρ τ) : Node.Affect symbols ns σ τ :=
  ⟨h.1.trans h'.1, fun quiet => (h'.2 quiet).trans (h.2 quiet)⟩

theorem Expr.nodes_subset_nodesAll {e : Expr} {es : List Expr} (he : e ∈ es) : e.nodes ⊆ Expr.nodesAll es := by
  induction es with
  | nil => cases he
  | cons d es ih =>
    rw [Expr.nodesAll]
    rcases List.mem_cons.mp he with rfl | he
    · exact List.subset_append_left _ _
    · exact List.subset_append_of_subset_right _ (ih he)

theorem Expr.GiveAll.affects {es : List Expr} {vs : List (Content α)} (h : Expr.GiveAll symbols es σ vs τ)
    (each : ∀ e ∈ es, ∀ {σ v τ}, e.Gives (α := α) symbols σ v τ → Node.Affect symbols e.nodes σ τ) :
    Node.Affect symbols (Expr.nodesAll es) σ τ := by
  induction es generalizing σ vs with
  | nil =>
    obtain ⟨-, rfl⟩ := h
    exact .refl _ _
  | cons e es ih =>
    obtain ⟨w, ws, ρ, rfl, he, hes⟩ := h
    have first := each e List.mem_cons_self he
    have rest := ih hes fun e he => each e (List.mem_cons_of_mem _ he)
    exact (first.mono (List.subset_append_left _ _)).trans (rest.mono (List.subset_append_right _ _))

theorem Expr.Reads.affects {e : Expr} {v : Content α} (h : e.Reads symbols σ v τ) :
    Node.Affect symbols e.nodes σ τ := by
  unfold Reads at h
  split at h
  · obtain ⟨-, rfl⟩ := h
    exact .refl _ _
  · exact h

/-- An evaluation does what the calls in the expression can do. -/
theorem Expr.Gives.affects {e : Expr} {v : Content α} (h : e.Gives symbols σ v τ) :
    Node.Affect symbols e.nodes σ τ := by
  induction e using Expr.inductOn generalizing σ v τ with
  | call i f as o n _ ih =>
    have part {a : Expr} (ha : a ∈ as) {σ τ : Store (Content α)} {v : Content α} (h : a.Gives symbols σ v τ) :
        Node.Affect symbols (Expr.call i f as o n).nodes σ τ := by
      refine (ih a ha h).mono (List.Subset.trans (nodes_subset_nodesAll ha) ?_)
      rw [Expr.nodes]
      exact List.subset_append_right _ _
    cases f with
    | operator j op p hom s =>
      rw [Expr.Gives.eq_def] at h
      dsimp only at h
      split at h
      · exact part List.mem_cons_self h
      · obtain ⟨t, -, h⟩ := h
        exact part List.mem_cons_self h
      · rcases h with ⟨-, h⟩ | ⟨ρ, ha, hb⟩
        · exact part List.mem_cons_self h
        · exact (part List.mem_cons_self ha).trans (part (by simp) hb)
      · rcases h with ⟨-, h⟩ | ⟨ρ, ha, hb⟩
        · exact part List.mem_cons_self h
        · exact (part List.mem_cons_self ha).trans (part (by simp) hb)
      · obtain ⟨x, y, ρ, t, -, -, ha, hb⟩ := h
        exact (part List.mem_cons_self ha).trans (part (by simp) hb)
      · obtain ⟨x, y, ρ, t, -, -, ha, hb⟩ := h
        exact (part List.mem_cons_self ha).trans (part (by simp) hb)
      · exact h
    | _ => exact h
  | tuple i es ih =>
    obtain ⟨vs, -, h⟩ := h
    exact (h.affects fun e he => ih e he).mono (List.subset_cons_self _ _)
  | leaf e hl =>
    cases e with
    | ident | me | all => exact Expr.Reads.affects h
    | operator | boolLit | numLit => exact h
    | call | new | cast | arrayLit | tuple | member | index | reclassify => cases hl
  | new | cast | arrayLit | member | index | reclassify => exact h

/-! ## What the result says -/

theorem Expr.Gives.stays {e : Expr} {v : Content α} (h : e.Gives symbols σ v τ)
    (quiet : ∀ n ∈ e.nodes, n.Quiet symbols) : τ = σ :=
  h.affects.2 quiet

theorem Expr.Reads.label {e : Expr} {x : Label} {v : Content α} (h : e.Reads symbols σ v τ) (hx : e.label? = some x) :
    σ x = some v := by
  rw [Expr.Reads, hx] at h
  exact h.1

/-- A label gives what it holds. -/
theorem Expr.Gives.label {e : Expr} {x : Label} {v : Content α} (h : e.Gives symbols σ v τ) (hx : e.label? = some x) :
    σ x = some v := by
  cases e with
  | ident | me | all => exact Expr.Reads.label h hx
  | _ => cases hx

/-- An expression is a tuple of expressions, or it is not taken apart. -/
theorem Expr.tupleOn {P : Expr → Prop} (tuple : ∀ i es, (∀ e ∈ es, P e) → P (.tuple i es))
    (single : ∀ e : Expr, (∀ i es, e ≠ .tuple i es) → P e) (e : Expr) : P e := by
  induction e using Expr.inductOn with
  | tuple i es ih => exact tuple i es ih
  | leaf e hl =>
    refine single e fun i es he => ?_
    subst he
    cases hl
  | _ => exact single _ nofun

theorem Expr.pairs_single {l : Expr} (h : ∀ i es, l ≠ .tuple i es) (r : Expr) : l.pairs r = [(l.label?, r.label?)] := by
  cases l with
  | tuple i es => exact absurd rfl (h i es)
  | _ => rfl

theorem Expr.GiveAll.agree {ls rs : List Expr} {vs : List (Content α)} (hl : Expr.GiveAll symbols ls σ vs σ)
    (hr : Expr.GiveAll symbols rs σ vs σ) (ql : ∀ n ∈ Expr.nodesAll ls, n.Quiet symbols)
    (qr : ∀ n ∈ Expr.nodesAll rs, n.Quiet symbols)
    (each : ∀ l ∈ ls, ∀ (r : Expr) (v : Content α), l.Gives symbols σ v σ → r.Gives symbols σ v σ →
      (∀ n ∈ l.nodes, n.Quiet symbols) → (∀ n ∈ r.nodes, n.Quiet symbols) → l.Agrees σ r) :
    ∀ p ∈ Expr.pairsAll ls rs, ∀ x y, p.1 = some x → p.2 = some y → σ.Agree x y := by
  induction ls generalizing rs vs with
  | nil => nofun
  | cons l ls ih =>
    cases rs with
    | nil => nofun
    | cons r rs =>
      obtain ⟨v, vs, ρ, rfl, hl, hls⟩ := hl
      obtain ⟨w, ws, ρ', same, hr, hrs⟩ := hr
      cases same
      rw [Expr.nodesAll, List.forall_mem_append] at ql qr
      obtain rfl := (hl.stays ql.1).symm
      obtain rfl := (hr.stays qr.1).symm
      intro p hp
      rcases List.mem_append.mp hp with hp | hp
      · exact each l List.mem_cons_self r v hl hr ql.1 qr.1 p hp
      · exact ih hls hrs ql.2 qr.2 (fun l hl => each l (List.mem_cons_of_mem _ hl)) p hp

/-- Expressions without side effects that give the same content agree. -/
theorem Expr.Gives.agrees {l r : Expr} {v : Content α} (hl : l.Gives symbols σ v σ) (hr : r.Gives symbols σ v σ)
    (ql : ∀ n ∈ l.nodes, n.Quiet symbols) (qr : ∀ n ∈ r.nodes, n.Quiet symbols) : l.Agrees σ r := by
  induction l using Expr.tupleOn generalizing r v with
  | tuple i ls ih =>
    cases r with
    | tuple j rs =>
      obtain ⟨vs, rfl, hl⟩ := hl
      obtain ⟨ws, same, hr⟩ := hr
      cases same
      exact GiveAll.agree hl hr (fun n hn => ql n (List.mem_cons_of_mem _ hn))
        (fun n hn => qr n (List.mem_cons_of_mem _ hn)) fun l hl r v => @ih l hl r v
    | _ =>
      intro p hp x y hx
      rw [List.mem_singleton.mp hp] at hx
      cases hx
  | single l h =>
    intro p hp x y hx hy
    rw [pairs_single h, List.mem_singleton] at hp
    subst hp
    exact .inr ⟨v, hl.label hx, hr.label hy⟩

/-- A comparison without side effects that finds no difference. -/
theorem Expr.agrees_of_gives {a b : Expr} {x : Content α} (ha : a.Gives symbols σ x ρ) (hb : b.Gives symbols ρ x τ)
    (qa : ∀ n ∈ a.nodes, n.Quiet symbols) (qb : ∀ n ∈ b.nodes, n.Quiet symbols) : a.Agrees σ b := by
  have same := ha.stays qa
  rw [same] at ha hb
  have same := hb.stays qb
  rw [same] at hb
  exact ha.agrees hb qa qb

/-- A condition without side effects comes out as its comparisons allow. -/
theorem Expr.Gives.mayBe {e : Expr} {t : Bool} (h : e.Gives symbols σ (.truth t) τ)
    (quiet : ∀ n ∈ e.nodes, n.Quiet symbols) : e.MayBe σ t := by
  induction e using Expr.inductOn generalizing t τ with
  | call i f as o n _ ih =>
    have calm {a : Expr} (ha : a ∈ as) : ∀ m ∈ a.nodes, m.Quiet symbols := by
      intro m hm
      refine quiet m ?_
      rw [Expr.nodes]
      exact List.mem_append_right _ (nodes_subset_nodesAll ha hm)
    have part {a : Expr} {u : Bool} {ρ : Store (Content α)} (ha : a ∈ as) (h : a.Gives symbols σ (.truth u) ρ) :
        a.MayBe σ u := ih a ha h (calm ha)
    -- The second operand of a connective is evaluated where the first one left off, in the same store.
    have next {a b : Expr} {u : Bool} {v : Content α} {ρ : Store (Content α)} (ha : a ∈ as) (hb : b ∈ as)
        (h : a.Gives symbols σ v ρ) (k : b.Gives symbols ρ (.truth u) τ) : b.MayBe σ u := by
      rw [h.stays (calm ha)] at k
      exact part hb k
    cases f with
    | operator j op p hom s =>
      rw [Expr.Gives.eq_def] at h
      dsimp only at h
      rw [Expr.MayBe.eq_def]
      split at h
      · exact part List.mem_cons_self h
      · obtain ⟨u, same, h⟩ := h
        cases same
        change MayBe σ _ (!!u)
        rw [Bool.not_not]
        exact part List.mem_cons_self h
      · rcases h with ⟨same, h⟩ | ⟨ρ, ha, hb⟩
        · cases same
          exact .inl (part List.mem_cons_self h)
        · have hb := next List.mem_cons_self (List.mem_cons_of_mem _ List.mem_cons_self) ha hb
          cases t with
          | true => exact ⟨part List.mem_cons_self ha, hb⟩
          | false => exact .inr hb
      · rcases h with ⟨same, h⟩ | ⟨ρ, ha, hb⟩
        · cases same
          exact .inl (part List.mem_cons_self h)
        · have hb := next List.mem_cons_self (List.mem_cons_of_mem _ List.mem_cons_self) ha hb
          cases t with
          | true => exact .inr hb
          | false => exact ⟨part List.mem_cons_self ha, hb⟩
      · obtain ⟨x, y, ρ, u, same, equal, ha, hb⟩ := h
        cases same
        cases t with
        | true =>
          obtain rfl := equal.mp rfl
          exact agrees_of_gives ha hb (calm List.mem_cons_self) (calm (List.mem_cons_of_mem _ List.mem_cons_self))
        | false => trivial
      · obtain ⟨x, y, ρ, u, same, differ, ha, hb⟩ := h
        cases same
        cases t with
        | true => trivial
        | false =>
          obtain rfl : x = y := by
            by_contra other
            cases differ.mpr other
          exact agrees_of_gives ha hb (calm List.mem_cons_self) (calm (List.mem_cons_of_mem _ List.mem_cons_self))
      · split <;> simp_all
    | _ => trivial
  | tuple | new | cast | arrayLit | member | index | reclassify => trivial
  | leaf e hl =>
    cases e with
    | call => cases hl
    | _ => trivial

/-- Evaluations are among those that the analysis reckons with. -/
theorem Expr.Gives.evaluates {c : Expr} {t : Bool} (h : c.Gives symbols σ (.truth t) τ) :
    c.Evaluates symbols t σ τ := by
  by_cases effects : c.hasEffects symbols = .ok false
  · have quiet := Symbols.haveEffects_false.mp effects
    exact .inl ⟨effects, h.stays quiet, h.mayBe quiet⟩
  · exact .inr ⟨effects, h.affects.1⟩

end Evaluation

/-! ## What is known after a condition -/

/-- A condition of either polarity leads to knowledge that the store left behind meets. It does so whenever its side
effects are decided. -/
theorem Knowledge.assuming_upheld {α : Type} (symbols : Symbols) (k : Knowledge) (c : Expr) (negated : Bool) :
    (∀ e, k.assuming symbols c negated = .error e ↔ c.hasEffects symbols = .error e) ∧
      ∀ k', k.assuming symbols c negated = .ok k' → ∀ σ τ : Store (Content α), σ.Meets k →
        c.Gives symbols σ (.truth (!negated)) τ → τ.Meets k' := by
  refine ⟨fun e => assuming_error, fun k' h σ τ hσ hc => ?_⟩
  rw [← Bool.not_not negated] at h
  exact assuming_meets h hc.evaluates hσ

section Nested

/-- The name of an address that is passed to the function. -/
def Expr.party (i : Nat) (x : String) : Expr := .ident default (.plain x) (some (.decl .parameter i))

/-- `!((a, b) != (me, c) || a < c)` -/
def nested : Expr :=
  .applyAt 10 .not [.applyAt 12 .paren [.applyAt 14 .or
    [.applyAt 16 .ne [.tuple default [.party 1 "a", .party 2 "b"], .tuple default [.me default, .party 3 "c"]],
      .applyAt 18 .lt [.party 1 "a", .party 3 "c"]]]]

/-- The sender is `a`, and another address is both `b` and `c`. -/
def settled : Store (Content Bool) := fun x => some (.word (x == .me || x == .var .parameter 1 "a"))

theorem nested_upheld : ∃ k k', settled.Meets k ∧ nested.Gives ⟨[]⟩ settled (.truth true) settled ∧
    k.assuming ⟨[]⟩ nested false = .ok k' ∧ k'.Linked (.var .parameter 1 "a") .me ∧
    k'.Linked (.var .parameter 2 "b") (.var .parameter 3 "c") ∧ settled.Meets k' := by
  let k : Knowledge := ⟨[[.me], [.var .parameter 1 "a"], [.var .parameter 2 "b"], [.var .parameter 3 "c"]]⟩
  obtain ⟨k', h, linked⟩ := exists_ok_of_any (x := k.assuming ⟨[]⟩ nested false)
    (p := fun q => decide (q.Linked (.var .parameter 1 "a") .me ∧
      q.Linked (.var .parameter 2 "b") (.var .parameter 3 "c"))) (by decide +kernel)
  obtain ⟨first, second⟩ := of_decide_eq_true linked
  have apart : settled.Meets k := Store.meets_of_apart (by simp [k])
  have left : (Expr.tuple default [.party 1 "a", .party 2 "b"]).Gives ⟨[]⟩ settled
      (.tuple [.word true, .word false]) settled :=
    ⟨_, rfl, _, _, settled, rfl, ⟨rfl, rfl⟩, _, _, settled, rfl, ⟨rfl, rfl⟩, rfl, rfl⟩
  have right : (Expr.tuple default [.me default, .party 3 "c"]).Gives ⟨[]⟩ settled
      (.tuple [.word true, .word false]) settled :=
    ⟨_, rfl, _, _, settled, rfl, ⟨rfl, rfl⟩, _, _, settled, rfl, ⟨rfl, rfl⟩, rfl, rfl⟩
  -- The comparison finds no difference, and `a < c` comes out false too.
  have gives : nested.Gives ⟨[]⟩ settled (.truth true) settled :=
    ⟨false, rfl, .inr ⟨settled, ⟨_, _, settled, false, rfl, by simp, left, right⟩, .refl _ _⟩⟩
  exact ⟨k, k', apart, gives, h, first, second,
    (Knowledge.assuming_upheld ⟨[]⟩ k nested false).2 k' h settled settled apart gives⟩

end Nested

end Shroud
