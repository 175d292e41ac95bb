import Shroud.Proofs.Operators
import Shroud.Proofs.Requirement

/-!
# Loops of accepted programs

The condition, the body and the update of a loop are repeated in public code, so nothing in them is evaluated in the
circuit and no function is called there that needs a proof.

**Conditions.** The check of types lets private conditions through; only the marks decide whether a loop is refused.
Operators on private values are marked, and so are conversions of private values. What is left is a condition for which
nothing is computed, such as a private variable. Such a loop is accepted although it is repeated as often as a private
value says, and this is the only way (`process_repeatsPublicly_iff`).
-/

namespace Shroud

/-! ## Private values of conditions -/

/-- Nothing is computed from private values for the value of the expression: it is read, returned by a function,
converted from a public value, or such a value in parentheses or in a choice. -/
def Expr.isUncomputed : Expr → Bool
  | .call _ (.operator _ .paren _ _ _) (a :: _) _ _ => a.checkedType.isPublic || a.isUncomputed
  | .call _ (.operator _ .ite _ _ _) (_ :: a :: b :: _) _ _ =>
    (a.checkedType.isPublic || a.isUncomputed) && (b.checkedType.isPublic || b.isUncomputed)
  | .call _ (.operator ..) _ _ _ => false
  | .call i f as o k => !(Expr.call i f as o k).isCastCall
  | .cast _ _ e _ => e.checkedType.isPublic
  | .reclassify .. => false
  | _ => true

/-- A private value that is not evaluated in the circuit is not computed. -/
def Expr.isClear (e : Expr) : Bool := Node.marked e.nodes || e.checkedType.isPublic || e.isUncomputed

/-! ### Checking statements -/

/-- Operators in the conditions of loops that give private values are private ones. -/
abbrev Stmt.HasSettledLoops (s : Stmt) : Prop := s.Conditions fun c => c.isSettled = true

abbrev Block.HasSettledLoops (b : Block) : Prop := b.Conditions fun c => c.isSettled = true

section Checking

variable {b : BodyContext} {i : StmtInfo}

theorem typeAssign_settled {l r : Expr} {o : String} {x : Bool} :
    Ends Stmt.HasSettledLoops (typeAssign b i l r o x) :=
  .withSymbols fun _ => .ensure fun _ => .convert fun _ _ => .attempt fun _ _ => .pure trivial

theorem typeReturn_settled {e : Option Expr} : Ends Stmt.HasSettledLoops (typeReturn b i e) := by
  refine .withSymbols fun _ => .ensure fun _ => ?_
  split
  · exact .ensure fun _ => .pure trivial
  · exact .convert fun _ _ => .pure trivial
  · exact .ensure fun _ => .convertAll fun _ _ => .attempt fun _ _ => .pure trivial

theorem typeDeclare_settled {v : LocalVar} {e : Option Expr} : Ends Stmt.HasSettledLoops (typeDeclare b i v e) := by
  have declared (spot : LocalVar → Site) : Ends (fun _ => True) (v.check i.before spot) :=
    (v.type.check_ends _ _).bind fun _ => Ends.setType.bind fun _ => .pure fun _ _ => trivial
  refine .unlessStopped ((declared _).bind fun v => ?_)
  cases e with
  | none => exact .pure fun _ => trivial
  | some e =>
    refine (e.check_settled _).bind fun e => ?_
    refine (Ends.unlessStopped (P := Stmt.HasSettledLoops) ?_).imp fun _ h _ _ => h
    exact .withSymbols fun _ => .convert fun _ _ => .pure trivial

/-- A last look at a statement whose parts have been checked. -/
theorem ends_verified {s : Stmt} {x : Except Error Unit} {P : Prop} (h : P → s.HasSettledLoops) :
    Ends (fun s => P → s.HasSettledLoops) (CheckM.unlessStopped s (CheckM.attempt x s fun _ => pure s)) :=
  .unlessStopped (.attempt fun _ _ => .pure h)

end Checking

theorem Stmt.check_settled (b : BodyContext) (s : Stmt) : Ends Stmt.HasSettledLoops (s.check b) := by
  have all (ss : List Stmt) (ih : ∀ s ∈ ss, Ends Stmt.HasSettledLoops (s.check b)) :
      Ends (Stmt.AllConditions fun c => c.isSettled = true) (Stmt.checkAll b ss) := by
    induction ss with
    | nil => exact .pure trivial
    | cons s ss hss =>
      exact (ih s List.mem_cons_self).bind fun _ => (hss fun t ht => ih t (List.mem_cons_of_mem _ ht)).bind fun _ =>
        .pure fun hs h => ⟨h, hs⟩
  have body (t : Block) (ih : ∀ s ∈ t.stmts, Ends Stmt.HasSettledLoops (s.check b)) :
      Ends Block.HasSettledLoops (t.check b) := by
    obtain ⟨_, ss, _⟩ := t
    exact (all ss ih).bind fun _ => .pure fun h => h
  induction s using Stmt.inductOn with
  | ifThen i c t e ht he =>
    cases e with
    | none =>
      exact (c.check_settled _).bind fun _ => (body t ht).bind fun _ =>
        (ends_verified fun h => h).imp fun _ h ht _ => h ht
    | some e =>
      exact (c.check_settled _).bind fun _ => (body t ht).bind fun _ => (body e (he e rfl)).bind fun _ =>
        (ends_verified fun h => h).imp fun _ h he ht _ => h ⟨ht, he⟩
  | whileLoop i c t hb =>
    exact (c.check_settled _).bind fun _ => (body t hb).bind fun _ =>
      (ends_verified fun h => h).imp fun _ h hb hc => h ⟨hc, hb⟩
  | doWhile i t c hb =>
    exact (body t hb).bind fun _ => (c.check_settled _).bind fun _ =>
      (ends_verified fun h => h).imp fun _ h hc hb => h ⟨hc, hb⟩
  | forLoop i a c u t ha hu hb =>
    unfold Stmt.check
    refine .bind (P := Stmt.Conditions? fun c => c.isSettled = true) ?_ fun _ => (c.check_settled _).bind fun _ =>
      .bind (P := Stmt.Conditions? fun c => c.isSettled = true) ?_ fun _ => (body t hb).bind fun _ =>
        (ends_verified fun h => h).imp fun _ h hb hu hc ha => h ⟨hc, ha, hu, hb⟩
    · cases a with
      | none => exact .pure trivial
      | some a => exact (ha a rfl).bind fun _ => .pure fun h => h
    · cases u with
      | none => exact .pure trivial
      | some u => exact (hu u rfl).bind fun _ => .pure fun h => h
  | block t hb => exact (body t hb).bind fun _ => .pure fun h => h
  | seq i ss x hs => exact (all ss hs).bind fun _ => .pure fun h => h
  | simple s hs =>
    cases s with
    | ret i e =>
      cases e with
      | none => exact .unlessStopped typeReturn_settled
      | some e =>
        exact (e.check_settled _).bind fun _ => (Ends.unlessStopped typeReturn_settled).imp fun _ h _ => h
    | eval i e => exact (e.check_settled _).bind fun _ => .pure fun _ => trivial
    | require i e =>
      refine (e.check_settled _).bind fun _ => (Ends.unlessStopped (P := Stmt.HasSettledLoops) ?_).imp fun _ h _ => h
      exact .ensure fun _ => .attempt fun _ _ => .pure trivial
    | assign i l r o x =>
      exact (l.check_settled _).bind fun _ => (r.check_settled _).bind fun _ =>
        (Ends.unlessStopped typeAssign_settled).imp fun _ h _ _ => h
    | declare i v e => exact typeDeclare_settled
    | breakLoop | continueLoop | compute | enterKey | comment | blank => exact .pure trivial
    | ifThen | whileLoop | doWhile | forLoop | block | seq => cases hs

/-! ## Marks in conditions -/

namespace Expr

variable {e : Expr}

theorem clear_of_marked (h : e.info.privately = true) : e.isClear = true := by
  obtain ⟨ns, hns⟩ := e.nodes_eq_cons
  unfold isClear
  rw [hns]
  show ((e.info.privately || _) || _ || _) = true
  rw [h, Bool.true_or, Bool.true_or, Bool.true_or]

theorem clear_of_public (h : e.checkedType.isPublic = true) : e.isClear = true := by
  unfold isClear
  rw [h, Bool.or_true, Bool.true_or]

theorem clear_of_uncomputed (h : e.isUncomputed = true) : e.isClear = true := by
  unfold isClear
  rw [h, Bool.or_true]

theorem isClear_iff : e.isClear = true ↔
    Node.marked e.nodes = true ∨ (e.checkedType.isPublic || e.isUncomputed) = true := by
  unfold isClear
  rw [Bool.or_assoc, Bool.or_eq_true]

theorem uncomputed_call {f : Expr} (hf : f.op? = none) {i : Info} {as : List Expr} {o : Int}
    {k : Option CircuitVar} : (Expr.call i f as o k).isUncomputed = !(Expr.call i f as o k).isCastCall := by
  cases f with
  | operator => cases hf
  | _ => rfl

end Expr

section Calls

variable {i j : Info} {p : Bool} {h : Hom} {r : Option Expr} {a b d : Expr} {as : List Expr} {o : Int}
  {k : Option CircuitVar}

theorem Expr.marked_call {f : Expr} (ha : a ∈ as) (hm : Node.marked a.nodes = true) :
    Node.marked (Expr.call i f as o k).nodes = true := by
  have all (as : List Expr) (ha : a ∈ as) : Node.marked (Expr.nodesAll as) = true := by
    induction as with
    | nil => cases ha
    | cons b as ih =>
      rw [Expr.nodesAll, Node.marked_append, Bool.or_eq_true]
      rcases List.mem_cons.mp ha with rfl | ha
      · exact .inl hm
      · exact .inr (ih ha)
  rw [Expr.nodes, Node.marked_append, all as ha, Bool.or_true]

theorem Expr.clear_paren (ha : a.isClear = true) :
    (Expr.call i (.operator j .paren p h r) (a :: as) o k).isClear = true := by
  rcases isClear_iff.mp ha with ha | ha
  · exact isClear_iff.mpr (.inl (marked_call List.mem_cons_self ha))
  · exact clear_of_uncomputed ha

theorem Expr.clear_choice (ha : a.isClear = true) (hb : b.isClear = true) :
    (Expr.call i (.operator j .ite p h r) (d :: a :: b :: as) o k).isClear = true := by
  rcases isClear_iff.mp ha with ha | ha
  · exact isClear_iff.mpr (.inl (marked_call (by simp) ha))
  · rcases isClear_iff.mp hb with hb | hb
    · exact isClear_iff.mpr (.inl (marked_call (by simp) hb))
    · exact clear_of_uncomputed ((Bool.and_eq_true _ _).mpr ⟨ha, hb⟩)

/-- An operator outside of the circuit is clear if its operands are. -/
theorem Expr.clear_operator {op : Op} {bs : List Expr} (hp : p = false)
    (hs : (Expr.call i (.operator j op p h r) as o k).isSettled = true)
    (hargs : List.Forall₂ (fun e e' => e.isSettled = true → e'.isClear = true) as bs) (cur : Bool) (j' : Info) :
    (Expr.call (i.mark cur) (.operator j' op p h r) bs o k).isClear = true := by
  subst hp
  have shown (hs : ((i.type.getD default).isPublic || false) = true) :
      (Expr.call (i.mark cur) (.operator j' op false h r) bs o k).isClear = true :=
    clear_of_public ((Bool.or_false _).symm.trans hs)
  cases op with
  | paren =>
    cases hargs with
    | nil => exact shown hs
    | cons ha _ => exact clear_paren (ha hs)
  | ite =>
    cases hargs with
    | nil => exact shown hs
    | cons _ hargs =>
      cases hargs with
      | nil => exact shown hs
      | cons ha hargs =>
        cases hargs with
        | nil => exact shown hs
        | cons hb hargs =>
          rcases (Bool.or_eq_true _ _).mp hs with hs | hs
          · exact shown hs
          · obtain ⟨sa, sb⟩ := (Bool.and_eq_true _ _).mp hs
            exact clear_choice (ha sa) (hb sb)
  | _ => exact shown hs

/-- A call of a function outside of the circuit is clear. -/
theorem Expr.clear_call {f : Expr} (hf : f.op? = none) (hforce : (Expr.call i f as o k).forces = false) :
    (Expr.call i f as o k).isClear = true := by
  cases hcast : (Expr.call i f as o k).isCastCall with
  | false =>
    refine clear_of_uncomputed ?_
    rw [uncomputed_call hf, hcast]
    rfl
  | true =>
    refine clear_of_public ?_
    unfold forces at hforce
    rw [hcast, Bool.or_eq_false_iff, Bool.true_and] at hforce
    exact AnnTy.isPublic_of_isPrivate hforce.2

end Calls

section Placing

variable (c : PlaceContext) (cur : Bool)

theorem Expr.moved_clear {site : Site} {e : Expr} {P : Prop} :
    Ends (fun e' => P → e'.isClear = true) ((e.marked cur).moveIn site) :=
  ((e.marked cur).moveIn_marks site).imp fun _ h _ => clear_of_marked h

mutual

/-- A condition that was checked is clear once it has been placed. -/
theorem Expr.place_clear : ∀ e : Expr, Ends (fun e' => e.isSettled = true → e'.isClear = true) (e.place c cur)
  | .call i f as o k => by
    have args := Expr.placeAll_clear as
    have func := (f.place_agrees c cur).and_always (f.place_alike c cur)
    rw [Expr.place_call]
    refine ends_placing (fun force => ?_) (fun force => ?_) fun _ => Expr.moved_clear cur
    · cases hop : f.op? with
      | none =>
        refine func.bind fun f' => args.bind fun as' => .pure fun _ hf _ => ?_
        have alike := hf.2
        have same : (Expr.call (i.mark cur) f' as' o k).forces = (Expr.call i f as o k).forces :=
          alike.forces_call rfl
        exact Expr.clear_call (alike.op?.trans hop) (same.trans force)
      | some op =>
        cases f with
        | operator j op p h r =>
          refine .bind (P := fun f' => ∃ j', f' = .operator j' op p h r) (.pure ⟨_, rfl⟩) fun f' =>
            args.bind fun as' => .pure fun hargs hf hs => ?_
          obtain ⟨j', rfl⟩ := hf
          rw [Expr.forces_call] at force
          exact Expr.clear_operator (Bool.or_eq_false_iff.mp force).1 hs hargs cur j'
        | _ => cases hop
    · refine (f.place_agrees c true).bind fun _ => (Expr.placeAll_agrees c true as).bind fun _ => ?_
      exact .pure fun _ _ _ => Expr.clear_of_marked rfl
  | .cast i t e b => by
    have arg := (e.place_agrees c cur).and_always (e.place_alike c cur)
    rw [Expr.place_cast]
    refine ends_placing (fun force => ?_) (fun force => ?_) fun _ => Expr.moved_clear cur
    · refine (t.place_agrees c cur).bind fun _ => arg.bind fun e' => .pure fun he _ _ => ?_
      rw [Expr.forces_cast, ← he.2.isPrivate] at force
      exact Expr.clear_of_uncomputed (AnnTy.isPublic_of_isPrivate force)
    · exact (t.place_agrees c true).bind fun _ => (e.place_agrees c true).bind fun _ =>
        .pure fun _ _ _ => Expr.clear_of_marked rfl
  | .reclassify i m e p h => by
    refine .unlessStopped ?_
    split
    · exact .fail
    · split
      · refine ends_placing nofun (fun _ => ?_) fun _ => Expr.moved_clear cur
        exact (e.place_agrees c true).bind fun _ => .pure fun _ _ => Expr.clear_of_marked rfl
      · exact .withSymbols fun s => (e.place_agrees c _).bind fun _ => .pure fun _ _ => Expr.clear_of_marked rfl
  | .new i as => ends_placing (fun _ => (i.placeType_agrees c cur).bind fun _ =>
    (Expr.placeAll_agrees c cur as).bind fun _ => .pure fun _ _ _ => Expr.clear_of_uncomputed rfl) nofun nofun
  | .arrayLit i vs k => ends_placing (fun _ => (Expr.placeAll_agrees c cur vs).bind fun _ =>
    .pure fun _ _ => Expr.clear_of_uncomputed rfl) nofun nofun
  | .tuple i es => ends_placing (fun _ => (Expr.placeAll_agrees c cur es).bind fun _ =>
    .pure fun _ _ => Expr.clear_of_uncomputed rfl) nofun nofun
  | .member i e n t => ends_placing (fun _ => (e.place_agrees c cur).bind fun _ =>
    .pure fun _ _ => Expr.clear_of_uncomputed rfl) nofun nofun
  | .index i e k t => ends_placing (fun _ => (e.place_agrees c cur).bind fun _ =>
    (k.place_agrees c false).bind fun _ => .pure fun _ _ _ => Expr.clear_of_uncomputed rfl) nofun nofun
  | .operator .. | .boolLit .. | .numLit .. | .ident .. | .me _ | .all _ =>
    .pure fun _ => Expr.clear_of_uncomputed rfl

theorem Expr.placeAll_clear : ∀ es : List Expr,
    Ends (List.Forall₂ (fun e e' => e.isSettled = true → e'.isClear = true) es) (Expr.placeAll c cur es)
  | [] => .pure .nil
  | e :: es => (e.place_clear).bind fun _ => (Expr.placeAll_clear es).bind fun _ => .pure fun hes he => .cons he hes

end

end Placing

/-- Private values of conditions that are not evaluated in the circuit are not computed. -/
abbrev Stmt.HasClearLoops (s : Stmt) : Prop := s.Conditions fun c => c.isClear = true

abbrev Block.HasClearLoops (b : Block) : Prop := b.Conditions fun c => c.isClear = true

theorem Stmt.moveIn_clear (site : Site) (s : Stmt) : Ends Stmt.HasClearLoops (s.moveIn site) :=
  Stmt.traverse_conditions (fun _ e => (e.moveIn_marks _).imp fun _ => Expr.clear_of_marked) (fun _ t => t.moveIn_ends _) s

/-- Loops whose conditions were checked have clear conditions once they have been placed. -/
theorem Stmt.place_clear (b : BodyPlace) (cur : Bool) (s : Stmt) :
    Ends (fun s' => s.HasSettledLoops → s'.HasClearLoops) (s.place b cur) := by
  have all (ss : List Stmt) (ih : ∀ s ∈ ss, ∀ b cur,
      Ends (fun s' => s.HasSettledLoops → s'.HasClearLoops) (s.place b cur)) (b : BodyPlace) (cur : Bool) :
      Ends (fun ss' => Stmt.AllConditions (fun c => c.isSettled = true) ss →
        Stmt.AllConditions (fun c => c.isClear = true) ss') (Stmt.placeAll b cur ss) := by
    induction ss with
    | nil => exact .pure fun _ => trivial
    | cons s ss hss =>
      exact (ih s List.mem_cons_self b cur).bind fun _ =>
        (hss fun t ht => ih t (List.mem_cons_of_mem _ ht)).bind fun _ => .pure fun hs h hss => ⟨h hss.1, hs hss.2⟩
  have body (t : Block) (ih : ∀ s ∈ t.stmts, ∀ b cur,
      Ends (fun s' => s.HasSettledLoops → s'.HasClearLoops) (s.place b cur)) (b : BodyPlace) (cur : Bool) :
      Ends (fun t' => t.HasSettledLoops → t'.HasClearLoops) (t.place b cur) := by
    obtain ⟨_, ss, _⟩ := t
    exact (all ss ih b cur).bind fun _ => .pure fun h => h
  have moved (s : Stmt) (site : Site) (P : Prop) : Ends (fun s' => P → s'.HasClearLoops) (s.moveIn site) :=
    (s.moveIn_clear site).imp fun _ h _ => h
  induction s using Stmt.inductOn generalizing b cur with
  | ifThen i c t e ht he =>
    cases e with
    | none =>
      refine ends_placingIf (fun _ => ?_) (fun _ => ?_) fun _ => moved _ _ _
      all_goals exact (c.place_agrees _ _).bind fun _ => (body t ht _ _).bind fun _ => .pure fun h _ => h
    | some e =>
      refine ends_placingIf (fun _ => ?_) (fun _ => ?_) fun _ => moved _ _ _
      all_goals exact (c.place_agrees _ _).bind fun _ => (body t ht _ _).bind fun _ =>
        (body e (he e rfl) _ _).bind fun _ => .pure fun he ht _ h => ⟨ht h.1, he h.2⟩
  | whileLoop i c t hb =>
    exact (c.place_clear _ cur).bind fun _ => (body t hb b cur).bind fun _ => .pure fun hb hc h => ⟨hc h.1, hb h.2⟩
  | doWhile i t c hb =>
    exact (body t hb b cur).bind fun _ => (c.place_clear _ cur).bind fun _ => .pure fun hc hb h => ⟨hc h.1, hb h.2⟩
  | forLoop i a c u t ha hu hb =>
    unfold Stmt.place
    refine .bind (P := fun a' => Stmt.Conditions? (fun c => c.isSettled = true) a →
      Stmt.Conditions? (fun c => c.isClear = true) a') ?_ fun _ => (c.place_clear _ cur).bind fun _ =>
        .bind (P := fun u' => Stmt.Conditions? (fun c => c.isSettled = true) u →
          Stmt.Conditions? (fun c => c.isClear = true) u') ?_ fun _ => (body t hb b cur).bind fun _ =>
            .pure fun hb hu hc ha h => ⟨hc h.1, ha h.2.1, hu h.2.2.1, hb h.2.2.2⟩
    · cases a with
      | none => exact .pure fun _ => trivial
      | some a => exact (ha a rfl b cur).bind fun _ => .pure fun h => h
    · cases u with
      | none => exact .pure fun _ => trivial
      | some u => exact (hu u rfl b cur).bind fun _ => .pure fun h => h
  | block t hb => exact (body t hb b cur).bind fun _ => .pure fun h => h
  | seq i ss x hs => exact (all ss hs b cur).bind fun _ => .pure fun h => h
  | simple s hs =>
    cases s with
    | ret i e =>
      cases e with
      | none => exact .pure fun _ => trivial
      | some e => exact (e.place_agrees _ cur).bind fun _ => .pure fun _ _ => trivial
    | eval i e | require i e => exact (e.place_agrees _ cur).bind fun _ => .pure fun _ _ => trivial
    | assign i l r o x =>
      exact (l.place_agrees _ cur).bind fun _ => (r.place_agrees _ cur).bind fun _ => .pure fun _ _ _ => trivial
    | declare i v e =>
      cases e with
      | none => exact (v.type.place_agrees _ cur).bind fun _ => .pure fun _ _ => trivial
      | some e =>
        exact (v.type.place_agrees _ cur).bind fun _ => (e.place_agrees _ cur).bind fun _ => .pure fun _ _ _ => trivial
    | breakLoop | continueLoop | compute | enterKey | comment | blank => exact .pure fun _ => trivial
    | ifThen | whileLoop | doWhile | forLoop | block | seq => cases hs

/-! ## Whole programs -/

theorem Stmt.Conditions.mapExprs {P Q : Expr → Prop} {f : Expr → Expr} (hf : ∀ e, P e → Q (f e)) {s : Stmt}
    (h : s.Conditions P) : (s.mapExprs f).Conditions Q := by
  have all (ss : List Stmt) (ih : ∀ s ∈ ss, s.Conditions P → (s.mapExprs f).Conditions Q)
      (h : Stmt.AllConditions P ss) : Stmt.AllConditions Q (ss.map (Stmt.mapExprs f)) := by
    induction ss with
    | nil => trivial
    | cons s ss hss => exact ⟨ih s List.mem_cons_self h.1, hss (fun t ht => ih t (List.mem_cons_of_mem _ ht)) h.2⟩
  have body (b : Block) (ih : ∀ s ∈ b.stmts, s.Conditions P → (s.mapExprs f).Conditions Q) (h : b.Conditions P) :
      (b.mapExprs f).Conditions Q := by
    rw [Block.mapExprs_eq]
    obtain ⟨_, ss, _⟩ := b
    exact all ss ih h
  induction s using Stmt.inductOn with
  | ifThen i c t e ht he =>
    rw [Stmt.mapExprs_ifThen]
    cases e with
    | none => exact body t ht h
    | some e => exact ⟨body t ht h.1, body e (he e rfl) h.2⟩
  | whileLoop i c b hb => exact ⟨hf c h.1, body b hb h.2⟩
  | doWhile i b c hb => exact ⟨hf c h.1, body b hb h.2⟩
  | forLoop i a c u b ha hu hb =>
    rw [Stmt.mapExprs_forLoop]
    refine ⟨hf c h.1, ?_, ?_, body b hb h.2.2.2⟩
    · cases a with
      | none => trivial
      | some a => exact ha a rfl h.2.1
    · cases u with
      | none => trivial
      | some u => exact hu u rfl h.2.2.1
  | block b hb => exact body b hb h
  | seq i ss x hs =>
    have stmts : (Stmt.seq i ss x).mapExprs f = .seq i (ss.map (Stmt.mapExprs f)) x :=
      congrArg (Stmt.seq i · x) (Stmt.traverseAll_mapExprs f ss)
    rw [stmts]
    exact all ss hs h
  | simple s hs =>
    cases s with
    | ret i e => rw [Stmt.mapExprs_ret]; trivial
    | declare i v e => rw [Stmt.mapExprs_declare]; trivial
    | eval | require | assign | breakLoop | continueLoop | compute | enterKey | comment | blank => trivial
    | ifThen | whileLoop | doWhile | forLoop | block | seq => cases hs

theorem Block.Conditions.mapExprs {P Q : Expr → Prop} {f : Expr → Expr} (hf : ∀ e, P e → Q (f e)) {b : Block}
    (h : b.Conditions P) : (b.mapExprs f).Conditions Q :=
  Stmt.Conditions.mapExprs (s := .block b) hf h

theorem FunctionDef.check_settled (site : Site) (f : FunctionDef) :
    Ends (fun g => g.body.HasSettledLoops) (f.check site) := by
  have body (b : BodyContext) : Ends Block.HasSettledLoops (f.body.check b) := fun s hs =>
    Stmt.check_settled b (.block f.body) s hs
  refine .unlessStopped <| (Param.checkAll_ends none _ [] f.params).bind fun _ =>
    (Param.checkAll_ends none _ [] f.returns).bind fun _ => Ends.setFunction.bind fun _ => (body _).bind fun t =>
      Ends.setFunction.bind fun _ => ?_
  exact (Ends.unlessStopped (P := fun g => t.HasSettledLoops → g.body.HasSettledLoops)
    (.ensure fun _ => .ensure fun _ => .pure fun h => h)).imp fun _ h _ hb _ _ _ => h hb

theorem EnumDef.check_ends (name : String) (e : EnumDef) : Ends (fun _ => True) (e.check name) := by
  refine .unlessStopped ((ends_mapM (R := fun _ _ => True) (fun v => ?_) e.values).bind fun _ => ?_)
  · exact Ends.setType.bind fun _ => .pure fun _ => trivial
  · exact Ends.setType.bind fun _ => .pure fun _ _ => trivial

theorem StructDef.check_ends (site : Site) (s : StructDef) : Ends (fun _ => True) (s.check site) := by
  refine (ends_mapM (R := fun _ _ => True) (fun v => ?_) s.members).bind fun _ => .pure fun _ => trivial
  exact (v.type.check_ends _ _).bind fun _ => Ends.setType.bind fun _ => .pure fun _ _ => trivial

theorem StateItem.check_ends (site : Site) (i : StateItem) : Ends (fun _ => True) (i.check site) := by
  cases i with
  | var v =>
    refine .unlessStopped (Ends.bind (P := fun _ => True) ?_ fun _ => .pure fun _ => trivial)
    refine (v.type.check_ends _ _).bind fun t => Ends.setType.bind fun _ => ?_
    refine Ends.imp (P := fun _ => True) ?_ fun _ _ _ _ => trivial
    cases v.init with
    | none => exact .unlessStopped (.ensure fun _ => .pure trivial)
    | some e =>
      refine (e.check_settled _).bind fun _ => Ends.imp (P := fun _ => True) ?_ fun _ _ _ => trivial
      exact .unlessStopped <| .ensure fun _ => .withSymbols fun _ => .convert fun _ _ => .ensure fun _ => .pure trivial
  | comment | blank => exact .pure trivial

theorem Contract.check_settled (text : List String) (c : Contract) :
    Ends (c.Pointwise fun _ g => g.body.HasSettledLoops) (c.check text) := by
  refine (ends_mapM (R := fun _ _ => True) (EnumDef.check_ends _) c.enums).bind fun _ => ?_
  refine (ends_mapM (R := fun _ _ => True) (StructDef.check_ends _) c.structs).bind fun _ => ?_
  refine (ends_mapM (R := fun _ _ => True) (StateItem.check_ends _) c.state).bind fun _ => ?_
  refine (ends_mapM (R := fun _ g => g.body.HasSettledLoops) (FunctionDef.check_settled _) c.constructors).bind
    fun _ => ?_
  refine (ends_mapM (R := fun _ g => g.body.HasSettledLoops) (FunctionDef.check_settled _) c.functions).bind
    fun _ => .pure fun functions constructors _ _ _ => ?_
  exact ⟨rfl, rfl, constructors, functions⟩

namespace SourceUnit

/-- The loops of a program whose types were checked. -/
theorem check_settled {u : SourceUnit} (h : u.check.failure = none) :
    ∀ f ∈ u.check.unit.allFunctions, f.body.HasSettledLoops := by
  have settle (f : FunctionDef) (s : Symbols) (hf : f.body.HasSettledLoops) : (f.settle s).body.HasSettledLoops :=
    hf.mapExprs fun _ => Expr.settle_settled s
  suffices related : u.Pointwise (fun _ g => g.body.HasSettledLoops) u.check.unit by
    intro f hf
    obtain ⟨_, _, hf⟩ := exists_mem_of_forall₂_right (allFunctions_pointwise related) hf
    exact hf
  unfold check at h ⊢
  split at h
  · cases h
  · have checked := (ends_mapM (Contract.check_settled u.text) u.contracts _ h).2
    show List.Forall₂ _ _ (ite _ _ _)
    split
    · refine List.forall₂_map_right_iff.mpr (checked.imp fun c d h => ?_)
      exact ⟨h.id, h.name, List.forall₂_map_right_iff.mpr (h.constructors.imp fun _ g hg => settle g _ hg),
        List.forall₂_map_right_iff.mpr (h.functions.imp fun _ g hg => settle g _ hg)⟩
    · exact checked

theorem place_clear {u v : SourceUnit} {b : Bool} (settled : ∀ f ∈ u.allFunctions, f.body.HasSettledLoops)
    (h : u.place b = (v, none)) : ∀ f ∈ v.allFunctions, f.body.HasClearLoops := by
  have body (f : FunctionDef) (t : BodyPlace) : Ends (fun b => f.body.HasSettledLoops → b.HasClearLoops)
      (f.body.place t false) := fun s hs => Stmt.place_clear t false (.block f.body) s hs
  have related := place_related (R := fun f g => f.body.HasSettledLoops → g.body.HasClearLoops)
    (fun f t => (body f t).imp fun _ h => h) h
  intro f hf
  obtain ⟨g, hg, clear⟩ := exists_mem_of_forall₂_right (allFunctions_pointwise related) hf
  exact clear (settled g hg)

end SourceUnit

section Inlining

variable (s : Symbols)

theorem Expr.isPublic_markInlined (e : Expr) : (e.markInlined s).checkedType.isPublic = e.checkedType.isPublic := by
  cases e <;> rfl

theorem Expr.isUncomputed_markInlined (e : Expr) : (e.markInlined s).isUncomputed = e.isUncomputed := by
  induction e using Expr.inductOn with
  | call i f as o k hf has =>
    have alike := f.markInlined_alike s
    cases hop : f.op? with
    | none =>
      rw [uncomputed_call hop]
      refine (uncomputed_call (alike.op?.trans hop)).trans (congrArg not ?_)
      show ((f.markInlined s).isLocation && ((f.markInlined s).target?.map Ref.isCastTarget).getD false) = _
      rw [alike.isLocation, alike.target?]
      rfl
    | some op =>
      cases f with
      | operator j op p h r =>
        cases op with
        | paren =>
          rcases as with _ | ⟨a, as⟩
          · rfl
          · show ((a.markInlined s).checkedType.isPublic || (a.markInlined s).isUncomputed) = _
            rw [isPublic_markInlined, has a List.mem_cons_self]
            rfl
        | ite =>
          rcases as with _ | ⟨c, _ | ⟨a, _ | ⟨b, as⟩⟩⟩
          · rfl
          · rfl
          · rfl
          · show (((a.markInlined s).checkedType.isPublic || (a.markInlined s).isUncomputed) &&
              ((b.markInlined s).checkedType.isPublic || (b.markInlined s).isUncomputed)) = _
            rw [isPublic_markInlined, isPublic_markInlined, has a (by simp), has b (by simp)]
            rfl
        | _ => rfl
      | _ => cases hop
  | cast i t e b he => exact e.isPublic_markInlined s
  | leaf e hl =>
    cases e with
    | operator | boolLit | numLit | ident | me | all => rfl
    | _ => cases hl
  | _ => rfl

theorem Expr.isClear_markInlined (e : Expr) : (e.markInlined s).isClear = e.isClear := by
  have marks : Node.marked (e.markInlined s).nodes = Node.marked e.nodes := by
    have looks := congrArg (fun ls => ls.any fun l => l.1) (e.looks_markInlined s)
    rwa [List.any_map, List.any_map] at looks
  unfold isClear
  rw [marks, isPublic_markInlined, isUncomputed_markInlined]

end Inlining

/-- The loops of an accepted program. -/
theorem SourceUnit.Accepted.clear {u v : SourceUnit} {next : Nat} {o : Options} (h : u.Accepted next o v) :
    ∀ f ∈ v.allFunctions, f.body.HasClearLoops := by
  cases h with
  | @intro linked aliased called accessed placed n _ _ _ _ _ _ types places =>
  have facts (w : SourceUnit) (f : Symbols → FunctionDef → FunctionFacts) :
      w.Pointwise (fun f g => g.body = f.body) (w.mapFacts f) :=
    mapFacts_pointwise (f := f) (fun _ _ => rfl) w
  have keep {P : Block → Prop} {v w : SourceUnit} (h : v.Pointwise (fun f g => g.body = f.body) w)
      (hv : ∀ f ∈ v.allFunctions, P f.body) : ∀ f ∈ w.allFunctions, P f.body := by
    intro f hf
    obtain ⟨g, hg, same⟩ := exists_mem_of_forall₂_right (allFunctions_pointwise h) hf
    exact same ▸ hv g hg
  have capable : ∀ f ∈ accessed.check.unit.markCapable.allFunctions, f.body.HasSettledLoops :=
    keep (facts _ _) (keep (facts _ _) (check_settled types))
  have proved : ∀ f ∈ placed.markProofs.allFunctions, f.body.HasClearLoops :=
    keep (facts _ _) (keep (facts _ _) (place_clear capable places))
  have inlined := mapFunctions_pointwise (R := fun f g => f.body.HasClearLoops → g.body.HasClearLoops) (σ := Unit)
    (f := fun _ f _ => ({ f with body := f.body.mapExprs (Expr.markInlined placed.markProofs.symbols) }, ()))
    (fun _ f _ hf => hf.mapExprs fun e he => (e.isClear_markInlined _).trans he) placed.markProofs ()
  have whole : placed.markProofs.Pointwise (fun f g => f.body.HasClearLoops → g.body.HasClearLoops)
      placed.markProofs.markInlined :=
    List.forall₂_map_right_iff.mpr (inlined.imp fun _ _ h => ⟨h.id, h.name, h.constructors, h.functions⟩)
  intro f hf
  obtain ⟨g, hg, clear⟩ := exists_mem_of_forall₂_right (allFunctions_pointwise whole) hf
  exact clear (proved g hg)

/-! ## Code that is repeated -/

/-- The expression calls a function that needs a proof. -/
def Expr.callsProved (symbols : Symbols) : Expr → Bool
  | .call i f as o k => !(Expr.call i f as o k).isCastCall && ((symbols.callee? f).map (·.facts.needsProof)).getD false
  | _ => false

/-- The loop is repeated in public code: its condition is public, and nothing that is repeated is evaluated in the
circuit or calls a function that needs a proof. -/
structure Stmt.RepeatsPublicly (symbols : Symbols) (s : Stmt) : Prop where
  condition : ∀ r, s.repeated? = some r → r.1.checkedType.isPublic = true
  code : ∀ r, s.repeated? = some r → ∀ e ∈ Node.exprs r.2, e.info.privately = false ∧ e.callsProved symbols = false

theorem Node.havePrivateCode_eq (symbols : Symbols) (ns : List Node) :
    Node.havePrivateCode symbols ns = (Node.exprs ns).any fun e => e.info.privately || e.callsProved symbols := by
  unfold havePrivateCode
  congr 1
  funext e
  cases e <;> rfl

theorem Stmt.checkLoop_code {symbols : Symbols} {site : Site} {s : Stmt} (h : s.checkLoop symbols site = .ok ()) :
    ∀ r, s.repeated? = some r → ∀ e ∈ Node.exprs r.2, e.info.privately = false ∧ e.callsProved symbols = false := by
  have unmarked {ns : List Node} (h : ¬ Node.havePrivateCode symbols ns = true) :
      ∀ e ∈ Node.exprs ns, e.info.privately = false ∧ e.callsProved symbols = false := by
    rw [Node.havePrivateCode_eq] at h
    simpa using h
  cases s with
  | whileLoop i c b | doWhile i b c =>
    rintro _ ⟨⟩
    unfold checkLoop at h
    dsimp only at h
    split at h
    · cases h
    · rename_i condition
      split at h
      · cases h
      · rename_i body
        rw [Node.exprs_append]
        exact List.forall_mem_append.mpr ⟨unmarked condition, unmarked body⟩
  | forLoop i a c u b =>
    unfold checkLoop at h
    dsimp only at h
    obtain ⟨_, h, last⟩ := except_bind_ok h
    split at h
    · cases h
    · rename_i condition
      split at h
      · cases h
      · rename_i body
        have both := List.forall_mem_append.mpr ⟨unmarked condition, unmarked body⟩
        rw [← Node.exprs_append] at both
        cases u with
        | none =>
          rintro _ ⟨⟩
          exact both
        | some u =>
          dsimp only at last
          split at last
          · cases last
          · rename_i update
            rintro _ ⟨⟩
            rw [Node.exprs_append]
            exact List.forall_mem_append.mpr ⟨both, unmarked update⟩
  | _ => rintro _ ⟨⟩

theorem SourceUnit.checkLoops_code {u : SourceUnit} (h : u.checkLoops = .ok ()) :
    ∀ f ∈ u.allFunctions, ∀ s ∈ Node.stmts f.body.nodes, ∀ r, s.repeated? = some r →
      ∀ e ∈ Node.exprs r.2, e.info.privately = false ∧ e.callsProved u.symbols = false := by
  intro f hf s hs
  obtain ⟨c, hc, hf⟩ := List.mem_flatMap.mp hf
  unfold checkLoops at h
  dsimp only at h
  obtain ⟨_, h, _⟩ := except_bind_ok h
  exact Stmt.checkLoop_code (except_for_ok (except_for_ok (except_for_ok h c hc) f hf) s hs)

/-- No loop of an accepted program repeats private code. -/
theorem SourceUnit.Accepted.repeatedCode {u v : SourceUnit} {next : Nat} {o : Options} (h : u.Accepted next o v) :
    ∀ f ∈ v.allFunctions, ∀ s ∈ Node.stmts f.body.nodes, ∀ r, s.repeated? = some r →
      ∀ e ∈ Node.exprs r.2, e.info.privately = false ∧ e.callsProved v.symbols = false := by
  cases h with
  | intro _ _ _ _ _ _ _ _ _ _ loops => exact checkLoops_code loops

theorem Node.marked_eq (ns : List Node) : marked ns = (exprs ns).any fun e => e.info.privately := by
  unfold marked
  induction ns with
  | nil => rfl
  | cons n ns ih => cases n <;> simp_all [isMarked, exprs]

/-- The condition is repeated, too. -/
theorem Stmt.exprs_condition {s : Stmt} {r : Expr × List Node} (h : s.repeated? = some r) :
    ∀ e ∈ Node.exprs r.1.nodes, e ∈ Node.exprs r.2 := by
  intro e he
  cases s with
  | whileLoop i c b | doWhile i b c =>
    cases h
    rw [Node.exprs_append]
    exact List.mem_append_left _ he
  | forLoop i a c u b =>
    cases u with
    | none =>
      cases h
      rw [Node.exprs_append]
      exact List.mem_append_left _ he
    | some u =>
      cases h
      rw [Node.exprs_append, Node.exprs_append]
      exact List.mem_append_left _ (List.mem_append_left _ he)
  | _ => cases h

/-! ## The result -/

/-- Loops of an accepted program repeat nothing that is evaluated in the circuit and call no function that needs a
proof. So such a loop is repeated publicly exactly if its condition is public where nothing is computed for it. -/
theorem process_repeatsPublicly_iff {u : SourceUnit} {next : Nat} {o : Options} {t : Transcript} {p : Progress}
    (h : (u.process next o .all t).2 = .ok p) : ∀ f ∈ p.unit.allFunctions, ∀ s ∈ Node.stmts f.body.nodes,
      (∀ r, s.repeated? = some r → ∀ e ∈ Node.exprs r.2,
        e.info.privately = false ∧ e.callsProved p.unit.symbols = false) ∧
      (s.RepeatsPublicly p.unit.symbols ↔
        ∀ r, s.repeated? = some r → r.1.isUncomputed = true → r.1.checkedType.isPublic = true) := by
  intro f hf s hs
  have accepted := SourceUnit.process_accepted h
  have code := accepted.repeatedCode f hf s hs
  refine ⟨code, fun publicly r hr _ => publicly.condition r hr, fun uncomputed => ⟨fun r hr => ?_, code⟩⟩
  have clear : r.1.isClear = true := Stmt.Conditions.nodes (s := .block f.body) (accepted.clear f hf) s hs r hr
  rcases Expr.isClear_iff.mp clear with marked | clear
  · rw [Node.marked_eq] at marked
    obtain ⟨e, he, marked⟩ := List.any_eq_true.mp marked
    rw [(code r hr e (Stmt.exprs_condition hr e he)).1] at marked
    cases marked
  · rcases (Bool.or_eq_true _ _).mp clear with isPublic | nothing
    · exact isPublic
    · exact uncomputed r hr nothing

/-- A loop that is repeated until a private truth value is false. -/
def waiting : SourceUnit :=
  let count := Stmt.assign default (.nameAt 110 "n") (.applyAt 111 .add [.nameAt 113 "n", .literalAt 114 1]) "+" false
  .sketch 100 "Wait" [] [.sketch 101 "f" "public" [.sketch 102 Ty.bool.mine "b", .sketch 103 (.plain AnnTy.uint) "n"]
    [.whileLoop default (.nameAt 115 "b") (.ofStmts [count])]]

theorem waiting_repeatsPublicly_iff : ∃ p, (waiting.process 120 .default .all .empty).2 = .ok p ∧
    ∀ f ∈ p.unit.allFunctions, ∀ s ∈ Node.stmts f.body.nodes,
      (∀ r, s.repeated? = some r → ∀ e ∈ Node.exprs r.2,
        e.info.privately = false ∧ e.callsProved p.unit.symbols = false) ∧
      (s.RepeatsPublicly p.unit.symbols ↔
        ∀ r, s.repeated? = some r → r.1.isUncomputed = true → r.1.checkedType.isPublic = true) := by
  obtain ⟨p, hp, _⟩ := exists_ok_of_any (x := (waiting.process 120 .default .all .empty).2) (p := fun _ => true)
    (by decide +kernel)
  exact ⟨p, hp, process_repeatsPublicly_iff hp⟩

/-- The loop is accepted, but its condition is private. -/
theorem waiting_not_repeatsPublicly : ∃ p, (waiting.process 120 .default .all .empty).2 = .ok p ∧
    ∃ f ∈ p.unit.allFunctions, ∃ s ∈ Node.stmts f.body.nodes, ¬ s.RepeatsPublicly p.unit.symbols := by
  obtain ⟨p, hp, h⟩ := exists_ok_of_any (x := (waiting.process 120 .default .all .empty).2)
    (p := fun p => p.unit.allFunctions.any fun f => (Node.stmts f.body.nodes).any fun s =>
      s.repeated?.any fun r => !r.1.checkedType.isPublic) (by decide +kernel)
  obtain ⟨f, hf, h⟩ := List.any_eq_true.mp h
  obtain ⟨s, hs, h⟩ := List.any_eq_true.mp h
  obtain ⟨r, hr, isPrivate⟩ := (Option.any_eq_true _ _).mp h
  refine ⟨p, hp, f, hf, s, hs, fun publicly => ?_⟩
  rw [publicly.condition r hr] at isPrivate
  cases isPrivate

end Shroud
