import Shroud.Proofs.Declared
import Shroud.Proofs.Derived
import Shroud.Proofs.Sketch

/-!
# Types of expressions in accepted programs

An accepted program has types for all its expressions. This module is about the laws that these types obey
(`SourceUnit.check_lawful`).

**What everybody can see.** No public type is homomorphic, however the type was found.

**Declared and derived.** Names, elements, members and results of functions have types that are declared somewhere, and
these obey all laws. The types of operators, casts and values for another owner are computed; they obey the laws but for
what may come from a few sources (`Expr.Grounded`), and may be private although nothing of that kind may be declared
(`rehoming_not_lawful`).
-/

namespace Shroud

/-! ## Statements -/

/-- The types of all expressions of the statement are sound and derived within the laws. -/
def Stmt.Lawful (s : Stmt) : Prop := ∀ e ∈ s.exprs, e.Lawful

section Statements

variable {H : Prop} {b : BodyContext} {i : StmtInfo}

theorem typeAssign_lawful {l r : Expr} {o : String} {x : Bool} (target : H → l.Lawful) (value : H → r.Lawful) :
    Typing H Stmt.Lawful (typeAssign b i l r o x) := by
  refine .withSymbols fun s => .ensure fun _ => .convert fun r' hr => .attempt fun _ _ => .pure fun known => ?_
  have converted := Expr.coerce_lawful (value known.1) (target known.1).sound.self.checkedType hr
  exact List.forall_mem_cons.mpr ⟨target known.1, List.forall_mem_singleton.mpr converted⟩

theorem typeReturn_lawful {value : Option Expr} (returns : H → ∀ p ∈ b.returns, p.type.Written)
    (lawful : H → ∀ e, value = some e → e.Lawful) : Typing H Stmt.Lawful (typeReturn b i value) := by
  have types (h : H) : ∀ t ∈ b.returns.map (·.type), t.Sound :=
    List.forall_mem_map.mpr fun p hp => (returns h p hp).sound
  refine .withSymbols fun s => .ensure fun _ => ?_
  split
  · exact .ensure fun _ => .pure fun _ => nofun
  · refine .convert fun e he => .pure fun known => List.forall_mem_singleton.mpr ?_
    exact Expr.coerce_lawful (lawful known.1 _ rfl) (AnnTy.written_tuple (types known.1)).sound he
  · refine .ensure fun _ => .convertAll fun es hes => .attempt fun _ _ => .pure fun known => ?_
    have converted :=
      Expr.coerceAll_lawful (List.forall_mem_singleton.mpr (lawful known.1 _ rfl)) (types known.1) hes
    exact List.forall_mem_singleton.mpr (Expr.lawful_tuple converted rfl)

theorem LocalVar.check_sound {k : Option Knowledge} {spot : LocalVar → Site} {v : LocalVar}
    (fresh : Node.Fresh v.nodes) : Typing H (fun v' => v'.type.Written) (v.check k spot) := by
  obtain ⟨⟨-, type⟩, -⟩ := Node.fresh_node.mp fresh
  exact (v.type.check_sound k _ type).bind fun _ => (Typing.setType And.right).bind fun _ => .pure fun known =>
    known.1.2

theorem typeDeclare_lawful {v : LocalVar} {e : Option Expr} (fresh : Node.Fresh v.nodes)
    (value : ∀ x, e = some x → Node.Fresh x.nodes) : Typing H Stmt.Lawful (typeDeclare b i v e) := by
  refine .unlessStopped ((LocalVar.check_sound fresh).bind fun v => ?_)
  cases e with
  | none => exact .pure fun _ => nofun
  | some e =>
    refine (e.check_lawful _ (value e rfl)).bind fun e => .unlessStopped <| .withSymbols fun s => .convert fun x hx =>
      .pure fun known => List.forall_mem_singleton.mpr ?_
    exact Expr.coerce_lawful known.1.2 known.1.1.2.sound hx

/-- The types found in a statement are sound and derived within the laws. -/
theorem Stmt.check_lawful (b : BodyContext) (returns : H → ∀ p ∈ b.returns, p.type.Written) (s : Stmt)
    (fresh : Node.Fresh s.nodes) : Typing H (fun s' => ∀ t ∈ Node.stmts s'.nodes, t.Lawful) (s.check b) := by
  refine (check_each (N := (·.isFresh = true)) (E := fun _ e' => e'.Lawful) (P := fun _ s' => s'.Lawful)
    (fun c e => e.check_lawful c) (fun _ _ _ exprs => forall_mem_of_forall₂_right exprs) (fun s simple fresh => ?_) s
    fresh).imp fun _ _ each => forall_mem_of_forall₂_right each
  · cases s with
    | ret i e =>
      cases e with
      | none =>
        refine .unlessStopped ((typeReturn_lawful returns ?_).imp fun _ _ lawful _ => lawful)
        exact fun _ => nofun
      | some e =>
        refine (e.check_lawful _ (Node.fresh_cons.mp fresh).2).bind fun e' => .unlessStopped ?_
        refine (typeReturn_lawful (fun known => returns known.1) fun known => ?_).imp fun _ _ lawful _ => lawful
        rintro _ ⟨⟩
        exact known.2
    | eval i e =>
      exact (e.check_lawful _ (Node.fresh_cons.mp fresh).2).bind fun _ => .pure fun known _ =>
        List.forall_mem_singleton.mpr known.2
    | require i e =>
      exact (e.check_lawful _ (Node.fresh_cons.mp fresh).2).bind fun _ => .unlessStopped <| .ensure fun _ =>
        .attempt fun _ _ => .pure fun known _ => List.forall_mem_singleton.mpr known.2
    | assign i l r o x =>
      obtain ⟨⟨-, hl⟩, hr⟩ := Node.fresh_node.mp fresh
      refine (l.check_lawful _ hl).bind fun _ => (r.check_lawful _ hr).bind fun _ => .unlessStopped ?_
      exact (typeAssign_lawful (fun known => known.1.2) And.right).imp fun _ _ lawful _ => lawful
    | declare i v e =>
      obtain ⟨⟨-, hv⟩, he⟩ := Node.fresh_node.mp fresh
      refine (typeDeclare_lawful hv fun x hx => ?_).imp fun _ _ lawful _ => lawful
      cases hx
      exact he
    | breakLoop | continueLoop | compute | enterKey | comment | blank => exact .pure fun _ _ => nofun
    | ifThen | whileLoop | doWhile | forLoop | block | seq => cases simple

end Statements

/-! ## Programs -/

/-- The types of all expressions in the body are sound and derived within the laws. -/
def FunctionDef.Lawful (f : FunctionDef) : Prop := ∀ s ∈ Node.stmts f.body.nodes, s.Lawful

section Programs

variable {H : Prop}

theorem FunctionDef.check_lawful (site : Site) (f : FunctionDef) (fresh : Node.Fresh f.nodes) :
    Typing H FunctionDef.Lawful (f.check site) := by
  obtain ⟨rest, hbody⟩ := Node.fresh_append.mp fresh
  obtain ⟨rest, hreturns⟩ := Node.fresh_append.mp rest
  obtain ⟨-, hparams⟩ := Node.fresh_append.mp rest
  refine .unlessStopped <| (Param.checkAll_sound none _ [] f.params hparams fun _ => nofun).bind fun params =>
    (Param.checkAll_sound none _ [] f.returns hreturns fun _ => nofun).bind fun returns => ?_
  have written {g : FunctionDef} (known : ∀ p ∈ params, p.type.Written) (known' : ∀ p ∈ returns, p.type.Written)
      (same : g.params = params) (same' : g.returns = returns) : g.type.Written :=
    FunctionDef.type_written (same ▸ known) (same' ▸ known')
  refine (Typing.setFunction fun known => written known.1.2 known.2 rfl rfl).bind fun _ => ?_
  refine (Block.check_upholds (Stmt.check_lawful _ (fun known => known.1.2) (.block f.body) hbody)).bind fun body => ?_
  refine (Typing.setFunction fun known => written known.1.1.1.2 known.1.1.2 rfl rfl).bind fun _ => ?_
  exact .unlessStopped <| .ensure fun _ => .ensure fun _ => .pure fun known => known.1.2

theorem EnumDef.check_sound (name : String) (e : EnumDef) : Typing H (fun _ => True) (e.check name) := by
  have named (sort : NamedSort) (names : List String) (r : Option NamedTarget) :
      (AnnTy.plain (.named sort names r)).Written := AnnTy.written_plain trivial
  refine .unlessStopped <| (Upholds.mapM (Q := fun _ _ => True) fun v _ => ?_).bind fun _ => ?_
  · exact (Typing.setType fun _ => named ..).bind fun _ => .pure fun _ => trivial
  · exact (Typing.setType fun _ => named ..).bind fun _ => .pure fun _ => trivial

theorem StructDef.check_sound (site : Site) (s : StructDef) (fresh : Node.Fresh s.nodes) :
    Typing H (fun _ => True) (s.check site) := by
  have members := Node.fresh_flatMap.mp (Node.fresh_cons.mp (Node.fresh_cons.mp fresh).2).2
  exact (Upholds.mapM fun v hv => LocalVar.check_sound (members v hv)).bind fun _ => .pure fun _ => trivial

theorem StateItem.check_sound (site : Site) (i : StateItem) (fresh : Node.Fresh i.nodes) :
    Typing H (fun _ => True) (i.check site) := by
  cases i with
  | var v =>
    obtain ⟨first, hinit⟩ := Node.fresh_append.mp fresh
    obtain ⟨⟨-, type⟩, -⟩ := Node.fresh_node.mp first
    refine .unlessStopped (.bind (P := fun _ => True) ?_ fun _ => .pure fun _ => trivial)
    refine (v.type.check_sound none _ type).bind fun t => (Typing.setType And.right).bind fun _ => ?_
    dsimp only
    cases hv : v.init with
    | none => exact .unlessStopped (.ensure fun _ => .pure fun _ => trivial)
    | some e =>
      rw [hv] at hinit
      exact (e.check_sound _ hinit).bind fun _ => .unlessStopped <| .ensure fun _ => .withSymbols fun _ =>
        .convert fun _ _ => .ensure fun _ => .pure fun _ => trivial
  | comment | blank => exact .pure fun _ => trivial

theorem Contract.check_lawful (text : List String) (c : Contract) (fresh : Node.Fresh c.nodes) :
    Typing H (fun d => ∀ f ∈ d.allFunctions, f.Lawful) (c.check text) := by
  obtain ⟨rest, hfunctions⟩ := Node.fresh_append.mp fresh
  obtain ⟨rest, hconstructors⟩ := Node.fresh_append.mp rest
  obtain ⟨rest, hstate⟩ := Node.fresh_append.mp rest
  obtain ⟨-, hstructs⟩ := Node.fresh_append.mp rest
  rw [Node.fresh_flatMap] at hfunctions hconstructors hstate hstructs
  refine (Upholds.mapM fun e _ => e.check_sound _).bind fun _ => ?_
  refine (Upholds.mapM fun s hs => s.check_sound _ (hstructs s hs)).bind fun _ => ?_
  refine (Upholds.mapM fun i hi => i.check_sound _ (hstate i hi)).bind fun _ => ?_
  refine (Upholds.mapM fun f hf => f.check_lawful _ (hconstructors f hf)).bind fun _ => ?_
  refine (Upholds.mapM fun f hf => f.check_lawful _ (hfunctions f hf)).bind fun _ => .pure fun known => ?_
  exact List.forall_mem_append.mpr ⟨forall_mem_of_forall₂_right known.1.2, forall_mem_of_forall₂_right known.2⟩

end Programs

/-! ## Calls with several results -/

section Settling

variable {symbols : Symbols} {i : Info} {f : Expr} {as bs : List Expr} {o : Int} {k : Option CircuitVar}

theorem Expr.isDerived_settle :
    (Expr.call i (f.settle symbols) bs o k).isDerived = (Expr.call i f as o k).isDerived := by
  cases f with
  | call j g cs p key =>
    obtain ⟨j', settled⟩ := settleNode_call symbols j (g.settle symbols) (cs.map (settle symbols)) p key
    rw [settle_call, settled]
    rfl
  | _ => rfl

/-- The type of a call is the declared one of the called function. -/
theorem Symbols.Sound.returns (declared : symbols.Sound) {g : FunctionDef} (called : symbols.callee? f = some g) :
    (returnType g.returns).Written := by
  obtain ⟨d, hd, called⟩ := Option.bind_eq_some_iff.mp called
  obtain ⟨r, -, hd⟩ := Option.bind_eq_some_iff.mp hd
  cases d with
  | function g' c =>
    cases called
    cases r with
    | decl _ j => exact returnType_written (Param.allWritten_iff.mp (declared j _ hd g.type rfl).type.2)
    | _ => cases hd
  | _ => cases called

/-- A result that gets its type once more gets a sound one. -/
theorem Expr.settleNode_lawful (declared : symbols.Sound) {x : Expr} (h : x.Lawful) :
    (x.settleNode symbols).Lawful := by
  unfold settleNode
  split
  · rename_i a as _ _
    split
    · obtain ⟨-, -, args⟩ := each_call.mp h
      have value : a.Lawful := args a List.mem_cons_self
      refine h.withType value.sound.self.checkedType (fun declared => by cases declared)
        (fun _ => ⟨fun hidden => ?_, fun differs => ?_, ?_⟩) fun label => by cases label
      · refine (value.grounded.data hidden).imp_right fun widened => ?_
        simp [withType, mapInfo, isWidened, anyWidened, widened]
      · refine (value.grounded.hom differs).imp_right (.imp_right fun rehomed => ?_)
        simp [withType, mapInfo, isRehomed, anyRehomed, rehomed]
      · exact shares_neutral (.inl rfl)
    · exact h
  · split
    · rename_i called _
      have written := declared.returns called
      refine h.withType written.sound (fun _ => written.declarable)
        (fun _ => written.declarable.grounded (.ofCall ?_)) fun label => by cases label
      rintro _ _ _ _ _ rfl
      cases called
    · exact h
  · exact h

/-- Where the type of a call comes from is told by its function and its arguments. -/
theorem Expr.sources_call (i j : Info) (f : Expr) (as : List Expr) (o : Int) (k : Option CircuitVar) :
    (Expr.call i f as o k).isWidened = (Expr.call j f as o k).isWidened ∧
      (Expr.call i f as o k).isRehomed = (Expr.call j f as o k).isRehomed := by
  cases f <;> exact ⟨rfl, rfl⟩

/-- Settling types changes nothing about where they come from. -/
theorem Expr.sources_settle (symbols : Symbols) (e : Expr) :
    (e.settle symbols).isWidened = e.isWidened ∧ (e.settle symbols).isRehomed = e.isRehomed := by
  have all {as : List Expr}
      (ih : ∀ a ∈ as, (a.settle symbols).isWidened = a.isWidened ∧ (a.settle symbols).isRehomed = a.isRehomed) :
      Expr.anyWidened (as.map (settle symbols)) = Expr.anyWidened as ∧
        Expr.anyRehomed (as.map (settle symbols)) = Expr.anyRehomed as := by
    induction as with
    | nil => exact ⟨rfl, rfl⟩
    | cons a as hs =>
      obtain ⟨first, rest⟩ := List.forall_mem_cons.mp ih
      rw [List.map_cons, anyWidened, anyWidened, anyRehomed, anyRehomed, first.1, first.2, (hs rest).1, (hs rest).2]
      exact ⟨rfl, rfl⟩
  induction e using Expr.inductOn with
  | call i f as o k hf has =>
    obtain ⟨j, settled⟩ := settleNode_call symbols i (f.settle symbols) (as.map (settle symbols)) o k
    rw [settle_call, settled]
    cases f with
    | operator fi op p h r =>
      have args := all has
      exact ⟨congrArg (h != .nonHomomorphic || (op == .ite && p) || ·) args.1,
        congrArg (h != .nonHomomorphic || ·) args.2⟩
    | call g h bs q key =>
      obtain ⟨j', inner⟩ := settleNode_call symbols g (h.settle symbols) (bs.map (settle symbols)) q key
      rw [settle_call, inner]
      exact ⟨rfl, rfl⟩
    | _ => exact ⟨rfl, rfl⟩
  | cast i u e b he => exact ⟨rfl, congrArg (u.notHomomorphic?.isSome || ·) he.2⟩
  | reclassify i m e p hom he hp => exact ⟨he.1, rfl⟩
  | leaf e hl =>
    cases e with
    | operator | boolLit | numLit | ident | me | all => exact ⟨rfl, rfl⟩
    | _ => cases hl
  | _ => exact ⟨rfl, rfl⟩

/-- Only types of tuples are settled. -/
theorem Expr.settleNode_single {x : Expr} (single : x.checkedType.type.isTuple = false) (outside : x.isEnclosed = false) :
    x.settleNode symbols = x := by
  unfold settleNode
  split
  · cases outside
  · split
    · rename_i tuple
      rw [tuple] at single
      cases single
    · rfl
  · rfl

theorem Expr.isEnclosed_call (i : Info) (f : Expr) (as : List Expr) (o : Int) (k : Option CircuitVar) :
    (Expr.call i f as o k).isEnclosed = (f.op? == some .paren) := by
  cases f with
  | operator j op => cases op <;> rfl
  | _ => rfl

/-- Settling keeps the forms of operands. -/
theorem Expr.forms_settle (symbols : Symbols) (e : Expr) : (e.settle symbols).isEnclosed = e.isEnclosed ∧
    (e.settle symbols).isReclassify = e.isReclassify ∧ (e.settle symbols).isAll = e.isAll := by
  cases e with
  | call i f as o k =>
    obtain ⟨j, settled⟩ := settleNode_call symbols i (f.settle symbols) (as.map (settle symbols)) o k
    rw [settle_call, settled, isEnclosed_call, isEnclosed_call, settle_op?]
    exact ⟨rfl, rfl, rfl⟩
  | _ => exact ⟨rfl, rfl, rfl⟩

theorem Expr.checkedType_settle (symbols : Symbols) {e : Expr} (single : e.checkedType.type.isTuple = false)
    (outside : e.isEnclosed = false) : (e.settle symbols).checkedType = e.checkedType := by
  cases e with
  | call i f as o k =>
    have unsettled : (Expr.call i (f.settle symbols) (as.map (settle symbols)) o k).isEnclosed = false := by
      rwa [isEnclosed_call, settle_op?, ← isEnclosed_call i f as o k]
    rw [settle_call, settleNode_single (x := .call i (f.settle symbols) _ o k) single unsettled]
    rfl
  | _ => rfl

theorem Expr.SharesHom.settle {h : Hom} {a : Expr} (shares : a.SharesHom h) (outside : a.isEnclosed = false) :
    (a.settle symbols).SharesHom h := by
  have same := a.checkedType_settle symbols shares.single outside
  exact ⟨same ▸ shares.single, same ▸ shares.hom⟩

/-- Operands keep their types and forms, so an operation on ciphertexts still has the operands it needs. -/
theorem Expr.Shares.settle {t : AnnTy} (h : (Expr.call i f as o k).Shares t) :
    (Expr.call i (f.settle symbols) (as.map (Expr.settle symbols)) o k).Shares t := by
  refine .ofCall fun j op p g r func paren ite differs => ?_
  have operator : f = .operator j op p g r := by
    cases f with
    | operator => exact func
    | call i f as o k =>
      obtain ⟨j', settled⟩ := Expr.settleNode_call symbols i (f.settle symbols) (as.map (Expr.settle symbols)) o k
      rw [Expr.settle_call, settled] at func
      cases func
    | _ => cases func
  subst operator
  obtain ⟨homs, each, product⟩ := h.operation _ _ _ _ _ _ _ _ _ rfl paren ite differs
  refine ⟨homs, List.forall_mem_map.mpr fun a ha outside => ?_, fun mul => ?_⟩
  · have outside := (a.forms_settle symbols).1.symm.trans outside
    exact (each a ha outside).settle outside
  · obtain ⟨a, b, rfl, factors⟩ := product mul
    refine ⟨a.settle symbols, b.settle symbols, rfl, ?_⟩
    rw [(a.forms_settle symbols).1, (b.forms_settle symbols).1, (a.forms_settle symbols).2.1,
      (b.forms_settle symbols).2.1]
    cases outside : a.isEnclosed with
    | true => exact .inl rfl
    | false =>
      cases outside' : b.isEnclosed with
      | true => exact .inr (.inl rfl)
      | false =>
        rw [outside, outside'] at factors
        rwa [a.checkedType_settle symbols (each a (by simp) outside).single outside,
          b.checkedType_settle symbols (each b (by simp) outside').single outside']

/-- The law about an expression depends on where its type comes from. -/
theorem Expr.Derives.congr {e x : Expr} (h : e.Derives) (derived : x.isDerived = e.isDerived) (type : x.type? = e.type?)
    (sources : x.isWidened = e.isWidened ∧ x.isRehomed = e.isRehomed) (operands : ∀ t, e.Shares t → x.Shares t) :
    x.Derives := by
  intro hx t ht
  have grounded := h (derived.symm.trans hx) t (type.symm.trans ht)
  exact ⟨sources.1 ▸ grounded.data, sources.2 ▸ grounded.hom, operands t grounded.operands⟩

/-- Types stay sound and within the laws when those of several results are settled. -/
theorem Expr.settle_lawful (declared : symbols.Sound) {e : Expr} (h : e.Lawful) : (e.settle symbols).Lawful := by
  have all {as : List Expr} (ih : ∀ a ∈ as, a.Lawful → (a.settle symbols).Lawful) (has : ∀ a ∈ as, a.Lawful) :
      ∀ a ∈ as.map (settle symbols), a.Lawful := List.forall_mem_map.mpr fun a ha => ih a ha (has a ha)
  induction e using Expr.inductOn with
  | call i f as o k hf has =>
    obtain ⟨⟨sound, derives⟩, func, args⟩ := each_call.mp h
    obtain ⟨j, settled⟩ := settleNode_call symbols i (f.settle symbols) (as.map (settle symbols)) o k
    have sources := (Expr.call i f as o k).sources_settle symbols
    have unmarked := sources_call j i (f.settle symbols) (as.map (settle symbols)) o k
    rw [settle_call, settled, unmarked.1, unmarked.2] at sources
    rw [settle_call]
    refine settleNode_lawful declared (each_call.mpr
      ⟨⟨⟨fun t ht => ?_, nofun⟩, derives.congr isDerived_settle rfl sources fun _ => Expr.Shares.settle⟩, hf func,
        all has args⟩)
    rw [isDerived_settle]
    exact sound.type t ht
  | new i as has =>
    obtain ⟨whole, args⟩ := each_new.mp h
    have settled : (Expr.new i as).settle symbols = .new i (as.map (settle symbols)) := by
      rw [← settle_all]
      rfl
    rw [settled]
    exact each_new.mpr ⟨⟨⟨whole.1.type, nofun⟩, derives_declared rfl⟩,
      all has args⟩
  | arrayLit i es b hes =>
    obtain ⟨whole, values⟩ := each_arrayLit.mp h
    have settled : (Expr.arrayLit i es b).settle symbols = .arrayLit i (es.map (settle symbols)) b := by
      rw [← settle_all]
      rfl
    rw [settled]
    exact each_arrayLit.mpr ⟨⟨⟨whole.1.type, nofun⟩, derives_declared rfl⟩,
      all hes values⟩
  | tuple i es hes =>
    obtain ⟨whole, parts⟩ := each_tuple.mp h
    have settled : (Expr.tuple i es).settle symbols = .tuple i (es.map (settle symbols)) := by
      rw [← settle_all]
      rfl
    rw [settled]
    exact each_tuple.mpr ⟨⟨⟨whole.1.type, nofun⟩, derives_declared rfl⟩,
      all hes parts⟩
  | cast i u e b he =>
    obtain ⟨whole, value⟩ := each_cast.mp h
    have derives : ((Expr.cast i u e b).settle symbols).Derives := whole.2.congr rfl rfl (sources_settle symbols _)
      fun _ _ => shares_cast
    exact each_cast.mpr ⟨⟨⟨whole.1.type, nofun⟩, derives⟩, he value⟩
  | member i e n r he =>
    obtain ⟨whole, base⟩ := each_member.mp h
    exact each_member.mpr ⟨⟨⟨whole.1.type, nofun⟩, derives_declared rfl⟩, he base⟩
  | index i e k r he hk =>
    obtain ⟨whole, base, key⟩ := each_index.mp h
    exact each_index.mpr ⟨⟨⟨whole.1.type, nofun⟩, derives_declared rfl⟩, he base, hk key⟩
  | reclassify i m e p hom he hp =>
    obtain ⟨whole, value, owner⟩ := each_reclassify.mp h
    have derives : ((Expr.reclassify i m e p hom).settle symbols).Derives :=
      whole.2.congr rfl rfl (sources_settle symbols _) fun _ shares =>
        shares_reclassify fun visible => shares.everybody _ _ _ _ _ rfl ((p.forms_settle symbols).2.2 ▸ visible)
    exact each_reclassify.mpr ⟨⟨⟨whole.1.type, nofun⟩, derives⟩, he value, hp owner⟩
  | leaf e hl =>
    cases e with
    | operator | boolLit | numLit | ident | me | all => exact h
    | _ => cases hl

theorem Stmt.exprs_mapExprs (f : Expr → Expr) (s : Stmt) : (s.mapExprs f).exprs = s.exprs.map f := by
  cases s with
  | ifThen i c t e =>
    rw [mapExprs_ifThen]
    rfl
  | forLoop i a c u b =>
    rw [mapExprs_forLoop]
    rfl
  | ret i e =>
    rw [mapExprs_ret]
    cases e <;> rfl
  | declare i v e =>
    rw [mapExprs_declare]
    cases e <;> rfl
  | _ => rfl

theorem FunctionDef.Lawful.settle (declared : symbols.Sound) {f : FunctionDef} (h : f.Lawful) :
    (f.settle symbols).Lawful := by
  intro s hs
  rw [FunctionDef.settle, Block.stmts_mapExprs] at hs
  obtain ⟨t, ht, rfl⟩ := List.mem_map.mp hs
  unfold Stmt.Lawful
  rw [Stmt.exprs_mapExprs]
  exact List.forall_mem_map.mpr fun e he => Expr.settle_lawful declared (h t ht e he)

end Settling

/-! ## Accepted programs -/

namespace SourceUnit

variable {u : SourceUnit}

/-- Before the check, everything has the type that it is declared with. -/
theorem symbols_sound (fresh : Node.Fresh u.nodes) (h : u.check.failure = none) : u.symbols.Sound := by
  have contracts := Node.fresh_flatMap.mp (Node.fresh_cons.mp fresh).2
  unfold check at h
  split at h
  · cases h
  · have checked : Upholds (fun _ => True) True _ (u.contracts.mapM (Contract.check u.text)) :=
      .mapM fun c hc => c.check_written u.text (contracts c hc)
    obtain ⟨-, written⟩ := checked.holds trivial ⟨u.symbols, none, []⟩ trivial h
    refine Symbols.sound_of_mem (List.forall_mem_append.mpr ⟨fun d hd => ?_, Builtin.decls_written⟩)
    obtain ⟨c, hc, hd⟩ := List.mem_flatMap.mp hd
    exact forall_mem_of_forall₂_left written c hc d hd

/-- The types in an accepted program are sound and derived within the laws. -/
theorem check_bodies (fresh : Node.Fresh u.nodes) (h : u.check.failure = none) :
    ∀ f ∈ u.check.unit.allFunctions, f.Lawful := by
  have contracts := Node.fresh_flatMap.mp (Node.fresh_cons.mp fresh).2
  have start := symbols_sound fresh h
  unfold check at h ⊢
  split at h
  · cases h
  · have checked : Typing True _ (u.contracts.mapM (Contract.check u.text)) :=
      .mapM fun c hc => c.check_lawful u.text (contracts c hc)
    obtain ⟨declared, lawful⟩ := checked.holds trivial ⟨u.symbols, none, []⟩ start h
    replace lawful := forall_mem_of_forall₂_right lawful
    intro f hf
    obtain ⟨c, hc, hf⟩ := List.mem_flatMap.mp hf
    replace hc : c ∈ ite _ _ _ := hc
    split at hc
    · obtain ⟨d, hd, rfl⟩ := List.mem_map.mp hc
      rw [Contract.allFunctions, Contract.settle, ← List.map_append] at hf
      obtain ⟨g, hg, rfl⟩ := List.mem_map.mp hf
      exact (lawful d hd g hg).settle declared
    · exact lawful c hc f hf

/-- All expressions in the bodies of functions, those inside others included. -/
def bodyExprs (u : SourceUnit) : List Expr :=
  u.allFunctions.flatMap fun f => (Node.stmts f.body.nodes).flatMap fun s => Expr.subexprsAll s.exprs

/-- All expressions in an accepted program are lawful, with everything in them. -/
theorem bodyExprs_lawful (fresh : Node.Fresh u.nodes) (accepted : u.check.failure = none) :
    ∀ x ∈ u.check.unit.bodyExprs, x.Lawful := by
  intro x hx y hy
  obtain ⟨f, hf, hx⟩ := List.mem_flatMap.mp hx
  obtain ⟨s, hs, hx⟩ := List.mem_flatMap.mp hx
  obtain ⟨e, he, hx⟩ := Expr.mem_subexprsAll.mp hx
  exact check_bodies fresh accepted f hf s hs e he y (Expr.subexprs_trans hy hx)

/-- In an accepted program, public types are not homomorphic. Types that are not derived from those of other
expressions obey all laws of declared types, unless they name an enum that was not known yet. The others obey them but
for what may come from casts to large numbers, folded constants and operations on ciphertexts. The operands of such an
operation have its homomorphism. -/
theorem check_lawful (fresh : Node.Fresh u.nodes) (accepted : u.check.failure = none) :
    ∀ x ∈ u.check.unit.bodyExprs, ∀ t, x.type? = some t → (t.isPublic = true → t.hom = .nonHomomorphic) ∧
      (x.isDerived = false → t.isLawful = true ∨ t.type.isUnresolved = true) ∧ x.Grounded t := by
  intro x hx t ht
  have lawful := bodyExprs_lawful fresh accepted x hx
  obtain ⟨type, declared⟩ := lawful.sound.self.type t ht
  refine ⟨type.2.plain, fun computed => (declared computed).lawful, ?_⟩
  rw [← Expr.checkedType_of_type ht]
  exact lawful.grounded

end SourceUnit

/-- A private value is increased by one that is revealed to its owner. -/
def revealing : SourceUnit :=
  .sketch 100 "Counter" [] [.sketch 101 "run" "public" [.sketch 102 AnnTy.uint.mine "x", .sketch 103 .publicUint "n"]
    [.declareAt 104 AnnTy.uint.mine "y" (.applyAt 110 .add
      [.nameAt 112 "x", .reclassify (.numbered 113) .reveal (.nameAt 114 "n") .meLabel none])]]

theorem revealing_lawful : ∃ u n, revealing.link 120 = .ok (u, n) ∧ Node.Fresh u.nodes ∧ u.check.failure = none ∧
    ∀ x ∈ u.check.unit.bodyExprs, ∀ t, x.type? = some t → (t.isPublic = true → t.hom = .nonHomomorphic) ∧
      (x.isDerived = false → t.isLawful = true ∨ t.type.isUnresolved = true) ∧ x.Grounded t := by
  obtain ⟨⟨u, n⟩, link, tested⟩ := exists_ok_of_any (x := revealing.link 120)
    (p := fun r => decide (Node.Fresh r.1.nodes ∧ r.1.check.failure.isNone = true)) (by decide +kernel)
  obtain ⟨fresh, passes⟩ := of_decide_eq_true tested
  have accepted : u.check.failure = none := Option.isNone_iff_eq_none.mp passes
  exact ⟨u, n, link, fresh, accepted, SourceUnit.check_lawful fresh accepted⟩

/-- A number of 256 bits is revealed to the sender as a homomorphic ciphertext. -/
def rehoming : SourceUnit :=
  .sketch 100 "Counter" [] [.sketch 101 "run" "public" [.sketch 103 .publicUint "n"]
    [.declareAt 104 AnnTy.uint.mine "y"
      (.reclassify (.numbered 113) .reveal (.nameAt 114 "n") .meLabel (some .additive))]]

/-- The program passes, but the ciphertext has a type that cannot be declared. -/
theorem rehoming_not_lawful : ∃ u n, rehoming.link 120 = .ok (u, n) ∧ Node.Fresh u.nodes ∧ u.check.failure = none ∧
    ∃ x ∈ u.check.unit.bodyExprs, ∃ t, x.type? = some t ∧ t.isLawful = false := by
  obtain ⟨⟨u, n⟩, link, tested⟩ := exists_ok_of_any (x := rehoming.link 120)
    (p := fun r => decide (Node.Fresh r.1.nodes ∧ r.1.check.failure.isNone = true ∧
      ∃ x ∈ r.1.check.unit.bodyExprs, x.type?.any (fun t => !t.isLawful) = true)) (by decide +kernel)
  obtain ⟨fresh, passes, x, hx, found⟩ := of_decide_eq_true tested
  obtain ⟨t, ht, unlawful⟩ := (Option.any_eq_true ..).mp found
  exact ⟨u, n, link, fresh, Option.isNone_iff_eq_none.mp passes, x, hx, t, ht, Bool.eq_false_of_not_eq_true' unlawful⟩

end Shroud
