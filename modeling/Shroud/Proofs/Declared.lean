import Shroud.Proofs.Forms
import Shroud.Proofs.Typed

/-!
# Declared types of accepted programs

Every type that is written in an accepted program obeys the laws, apart from names of enums, which the check replaces.
So the table of declarations is sound before the check starts, and what has not been checked yet can be relied on.

**Names of enums.** They stay in the type of a function until its declaration has been checked. A call before that
gets such a type.
-/

namespace Shroud

/-! ## Written types -/

/-- A type with others inside, which cannot be private. -/
def Ty.isComposed : Ty → Bool
  | .mapping .. | .array .. | .function .. => true
  | _ => false

/-- The check only changes what is inside a type. -/
def Ty.SameSort (t u : Ty) : Prop := u = t ∨ t.isComposed = true ∧ u.isComposed = true

theorem Expr.isAll_of_fresh {p : Expr} (h : Node.Fresh p.nodes) (label : p.label? = some .all) : p.isAll = true := by
  cases p with
  | ident i n r => exact ((hasSound_untyped (Node.fresh_cons.mp h).1).keyword label).1
  | all => rfl
  | _ => cases label

theorem Ty.resolved_of_isComposed {t : Ty} (h : t.isComposed = true) : t.isUnresolved = false := by
  cases t with
  | mapping | array | function => rfl
  | _ => cases h

theorem Ty.canBePrivate_of_isComposed (t : Ty) (h : t.isComposed = true) : t.canBePrivate = false := by
  cases t with
  | mapping | array | function => rfl
  | _ => cases h

/-- Only names are resolved. -/
theorem resolveEnum_other {s : Symbols} {site : Site} {t u : Ty} (h : t.isUnresolved = false)
    (resolved : resolveEnum s site t = .ok u) : t = u := by
  unfold resolveEnum at resolved
  split at resolved
  · cases h
  · cases resolved
    rfl

/-- A type that is accepted was declared within the laws, unless it is the name of an enum. -/
theorem AnnTy.declarable_of_checked {s : Symbols} {site : Site} {t v : AnnTy} {u : Ty} (sort : t.type.SameSort v.type)
    (owner : v.privacy.isAll = t.privacy.isAll) (hom : v.hom = t.hom)
    (keyword : t.privacy.label? = some .all → t.isPublic = true) (resolved : resolveEnum s site v.type = .ok u)
    (lawful : { v with type := u }.isLawful = true) : t.Declarable := by
  have isPublic : { v with type := u }.isPublic = t.isPublic := owner
  have plain (visible : t.isPublic = true) : t.hom = .nonHomomorphic := by
    rw [← hom]
    exact (AnnTy.isOpen_of_lawful (t := { v with type := u }) (fun _ => isPublic.trans visible) lawful).plain
      (isPublic.trans visible)
  refine ⟨⟨keyword, plain⟩, ?_⟩
  cases visible : t.isPublic with
  | true =>
    refine .inl ?_
    unfold AnnTy.isLawful
    rw [if_pos visible, plain visible]
    rfl
  | false =>
    unfold AnnTy.isLawful at lawful
    rw [isPublic, visible] at lawful
    rcases sort with same | ⟨-, composed⟩
    · rw [same] at resolved
      cases unresolved : t.type.isUnresolved with
      | true => exact .inr rfl
      | false =>
        refine .inl ?_
        unfold AnnTy.isLawful
        rw [visible, resolveEnum_other unresolved resolved, ← hom]
        exact lawful
    · rw [← resolveEnum_other (Ty.resolved_of_isComposed composed) resolved] at lawful
      have hidden : v.type.canBePrivate = false := v.type.canBePrivate_of_isComposed composed
      rw [hidden] at lawful
      cases lawful

mutual

theorem Ty.check_written (k : Option Knowledge) (spot : Ty → Site) : ∀ t : Ty, Node.Fresh t.nodes →
    Ends (fun t' => t.Sound ∧ t.SameSort t') (t.check k spot)
  | .mapping _ kt l v, h => by
    obtain ⟨hkey, hv⟩ := Node.fresh_append.mp h
    obtain ⟨⟨-, hkt⟩, -⟩ := Node.fresh_node.mp hkey
    refine (kt.check_written k _ hkt).bind fun kt' => (v.check_written k _ hv).bind fun v' =>
      (Ends.unlessStopped (P := fun t' : Ty => (l.isNone || kt'.same (.address false)) = true ∧ t'.isComposed = true)
        (.ensure fun named => .pure ⟨named, rfl⟩)).imp fun t' checked value key => ⟨⟨?_, value⟩, .inr ⟨rfl, checked.2⟩⟩
    refine ((Bool.or_eq_true _ _).mp checked.1).imp Option.isNone_iff_eq_none.mp fun address => ?_
    rcases key.2 with rfl | ⟨-, composed⟩
    · exact address
    · cases kt' with
      | mapping | array | function => cases address
      | _ => cases composed
  | .array v none, h => (v.check_written k _ (Node.fresh_cons.mp h).2).bind fun _ => .pure fun value =>
    ⟨value, .inr ⟨rfl, rfl⟩⟩
  | .array v (some n), h => by
    obtain ⟨⟨-, hv⟩, hn⟩ := Node.fresh_node.mp h
    exact (v.check_written k _ hv).bind fun _ => (n.check_settled _).bind fun _ => .pure fun _ value =>
      ⟨value, .inr ⟨rfl, rfl⟩⟩
  | .function ps _ rs, h => by
    obtain ⟨⟨-, hps⟩, hrs⟩ := Node.fresh_node.mp h
    exact (Param.checkAll_written k _ [] ps hps).bind fun _ => (Param.checkAll_written k _ [] rs hrs).bind fun _ =>
      .pure fun returns params => ⟨⟨params, returns⟩, .inr ⟨rfl, rfl⟩⟩
  | .tuple _, h => nomatch (Node.fresh_cons.mp h).1
  | .elementary _, _ | .bool, _ | .boolLit _, _ | .number, _ | .numLit _, _ | .integer _ _, _ | .named _ _ _, _
  | .address _, _ | .cipher _ _, _ | .publicKey _, _ | .randomness _, _ => .pure ⟨trivial, .inl rfl⟩

theorem AnnTy.check_written (k : Option Knowledge) (spot : AnnTy → Site) : ∀ t : AnnTy, Node.Fresh t.nodes →
    Ends (fun _ => t.Written) (t.check k spot)
  | ⟨t, p, h, a, d⟩, fresh => by
    obtain ⟨⟨-, ht⟩, hp⟩ := Node.fresh_node.mp fresh
    refine .unlessStopped <| (t.check_written k _ ht).bind fun t' => (p.check_samePlaces _).bind fun p' =>
      (Ends.unlessStopped (P := fun _ => t.SameSort t' → p'.isAll = p.isAll → AnnTy.Declarable ⟨t, p, h, a, d⟩)
        ?_).imp fun _ declarable owner type => ⟨type.1, declarable type.2 owner.isAll⟩
    refine .withSymbols fun s => .attempt fun u hu => .attempt fun _ checked => .pure fun sort owner => ?_
    obtain ⟨_, lawful, -⟩ := except_bind_ok checked
    exact AnnTy.declarable_of_checked (v := ⟨t', p', h, a, d⟩) sort owner rfl (Expr.isAll_of_fresh hp) hu
      (finishType_lawful lawful)

theorem Param.checkAll_written (k : Option Knowledge) (spot : List Param → Site) : ∀ ds ps : List Param,
    Node.Fresh (Param.nodesAll ps) → Ends (fun _ => Param.AllWritten ps) (Param.checkAll k spot ds ps)
  | _, [], _ => .pure trivial
  | _, ⟨_, _, t, _, _, _⟩ :: ps, h => by
    obtain ⟨hp, hps⟩ := Node.fresh_append.mp h
    obtain ⟨⟨-, ht⟩, -⟩ := Node.fresh_node.mp hp
    exact (t.check_written k _ ht).bind fun _ => Ends.setType.bind fun _ =>
      (Param.checkAll_written k spot _ ps hps).imp fun _ rest _ first => ⟨first, rest⟩

end

/-! ## Declarations -/

/-- A declaration of a plain type that holds nothing else. -/
def Decl.isPlain (d : Decl) : Bool :=
  match d with
  | .function f _ => (f.params ++ f.returns).all fun p => simple p.type
  | d => d.type?.all simple
where
  simple (t : AnnTy) : Bool := t.isPublic && t.isLawful && !(t.type.isComposed || t.type.isTuple)

theorem Ty.sound_of_simple {t : Ty} (h : (t.isComposed || t.isTuple) = false) : t.Sound := by
  cases t with
  | mapping | array | function | tuple => cases h
  | _ => trivial

theorem Decl.written_of_simple {t : AnnTy} (h : isPlain.simple t = true) : t.Written := by
  unfold isPlain.simple at h
  simp only [Bool.and_eq_true, Bool.not_eq_true'] at h
  obtain ⟨⟨visible, lawful⟩, simple⟩ := h
  exact AnnTy.written_iff.mpr
    ⟨Ty.sound_of_simple simple, AnnTy.isOpen_of_lawful (fun _ => visible) lawful, .inl lawful⟩

theorem Decl.written_of_isPlain {d : Decl} (h : d.isPlain = true) : d.Written := by
  intro t ht
  cases d with
  | function f c =>
    cases ht
    have written := List.all_eq_true.mp h
    exact FunctionDef.type_written (fun p hp => written_of_simple (written p (List.mem_append_left _ hp)))
      fun p hp => written_of_simple (written p (List.mem_append_right _ hp))
  | _ =>
    cases ht
    exact written_of_simple h

theorem Builtin.decls_written : ∀ d ∈ Builtin.decls, d.2.Written := by
  have plain : Builtin.decls.all (·.2.isPlain) = true := by decide
  exact fun d hd => Decl.written_of_isPlain (List.all_eq_true.mp plain d hd)

theorem Node.fresh_flatMap {α : Type} {xs : List α} {f : α → List Node} :
    Node.Fresh (xs.flatMap f) ↔ ∀ x ∈ xs, Node.Fresh (f x) := by
  constructor
  · exact fun h x hx n hn => h n (List.mem_flatMap.mpr ⟨x, hx, hn⟩)
  · intro h n hn
    obtain ⟨x, hx, hn⟩ := List.mem_flatMap.mp hn
    exact h x hx n hn

section Declarations

variable {H : Prop}

/-- An activity of which only its result matters. -/
theorem Ends.upholds {α : Type} {P : α → Prop} {x : CheckM α} (h : Ends P x) : Upholds (fun _ => True) H P x :=
  .of_ends h fun _ _ => trivial

theorem LocalVar.check_written {k : Option Knowledge} {spot : LocalVar → Site} {v : LocalVar}
    (fresh : Node.Fresh v.nodes) : Ends (fun _ => v.type.Written) (v.check k spot) := by
  obtain ⟨⟨-, type⟩, -⟩ := Node.fresh_node.mp fresh
  exact (v.type.check_written k _ type).bind fun _ => Ends.setType.bind fun _ => .pure fun _ written => written

theorem typeDeclare_written {b : BodyContext} {i : StmtInfo} {v : LocalVar} {e : Option Expr}
    (fresh : Node.Fresh v.nodes) : Ends (fun _ => v.type.Written) (typeDeclare b i v e) := by
  refine .unlessStopped ((LocalVar.check_written fresh).bind fun v => ?_)
  cases e with
  | none => exact .pure id
  | some e =>
    refine (e.check_settled _).bind fun e => Ends.imp (P := fun _ => True) ?_ fun _ _ _ written => written
    exact .unlessStopped <| .withSymbols fun _ => .convert fun _ _ => .pure trivial

/-- Variables that are accepted were declared within the laws. -/
theorem Stmt.check_written (b : BodyContext) (s : Stmt) (fresh : Node.Fresh s.nodes) :
    Upholds (fun _ => True) H (fun _ => ∀ v ∈ Node.locals s.nodes, v.type.Written) (s.check b) := by
  refine (check_each (N := (·.isFresh = true)) (E := fun _ _ => True)
    (P := fun s _ => ∀ i v e, s = .declare i v e → v.type.Written) (fun c e _ => ?_) (fun s _ compound _ => ?_)
    (fun s simple known => ?_) s fresh).imp fun s' _ each v hv => ?_
  · exact ((e.check_settled c).imp fun _ _ => trivial).upholds
  · rintro i v e rfl
    cases compound
  · cases s with
    | declare i v e =>
      obtain ⟨⟨-, hv⟩, -⟩ := Node.fresh_node.mp known
      refine (typeDeclare_written hv).upholds.imp fun _ _ written _ => ?_
      rintro _ _ _ ⟨⟩
      exact written
    | _ => exact (check_simple b simple).upholds.imp fun _ _ _ _ _ _ _ same => nomatch same
  · obtain ⟨i, e, declared⟩ := s.locals_declared v hv
    exact forall_mem_of_forall₂_left each _ declared i v e rfl

theorem Decl.written_untyped {d : Decl} (h : d.type? = none) : d.Written := fun _ ht => nomatch h.symm.trans ht

theorem Decl.written_typed {k : DeclKind} {n : String} {ks : List String} {t : AnnTy} (h : t.Written) :
    (Decl.variable k n ks t).Written := by
  rintro _ ⟨⟩
  exact h

theorem FunctionDef.decls_written {contract : String} {f : FunctionDef} (params : ∀ p ∈ f.params, p.type.Written)
    (returns : ∀ p ∈ f.returns, p.type.Written) (locals : ∀ v ∈ f.body.locals, v.type.Written) :
    ∀ d ∈ f.decls contract, d.2.Written := by
  refine List.forall_mem_append.mpr ⟨List.forall_mem_cons.mpr ⟨?_, ?_⟩, ?_⟩
  · rintro _ ⟨⟩
    exact FunctionDef.type_written params returns
  · refine List.forall_mem_map.mpr (List.forall_mem_append.mpr ⟨fun p hp => ?_, fun p hp => ?_⟩)
    · exact Decl.written_typed (params p hp)
    · exact Decl.written_typed (returns p hp)
  · exact List.forall_mem_map.mpr fun v hv => Decl.written_typed (locals v hv)

theorem FunctionDef.check_written (contract : String) (site : Site) (f : FunctionDef) (fresh : Node.Fresh f.nodes) :
    Upholds (fun _ => True) H (fun _ => ∀ d ∈ f.decls contract, d.2.Written) (f.check site) := by
  obtain ⟨rest, hbody⟩ := Node.fresh_append.mp fresh
  obtain ⟨rest, hreturns⟩ := Node.fresh_append.mp rest
  obtain ⟨-, hparams⟩ := Node.fresh_append.mp rest
  refine .unlessStopped <| (Param.checkAll_written none _ [] f.params hparams).upholds.bind fun _ =>
    (Param.checkAll_written none _ [] f.returns hreturns).upholds.bind fun _ => Ends.setFunction.upholds.bind fun _ => ?_
  refine (Block.check_upholds (Stmt.check_written _ (.block f.body) hbody)).bind fun _ => Ends.setFunction.upholds.bind fun _ => ?_
  refine .unlessStopped (.ensure fun _ => .ensure fun _ => .pure fun known => ?_)
  obtain ⟨⟨⟨⟨⟨-, params⟩, returns⟩, -⟩, locals⟩, -⟩ := known
  exact FunctionDef.decls_written (Param.allWritten_iff.mp params) (Param.allWritten_iff.mp returns) locals

theorem EnumDef.decls_written {contract : String} {e : EnumDef} (fresh : Node.Fresh e.nodes) :
    ∀ d ∈ e.decls contract, d.2.Written := by
  obtain ⟨whole, rest⟩ := Node.fresh_cons.mp fresh
  have values := Node.fresh_flatMap.mp (Node.fresh_cons.mp rest).2
  refine List.forall_mem_cons.mpr ⟨Decl.written_untyped (Option.isNone_iff_eq_none.mp whole), ?_⟩
  refine List.forall_mem_map.mpr fun v hv => Decl.written_untyped ?_
  exact Option.isNone_iff_eq_none.mp (Node.fresh_cons.mp (values v hv)).1

theorem StructDef.check_written (path : List String) (site : Site) (s : StructDef) (fresh : Node.Fresh s.nodes) :
    Upholds (fun _ => True) H (fun _ => ∀ d ∈ s.decls path, d.2.Written) (s.check site) := by
  have members := Node.fresh_flatMap.mp (Node.fresh_cons.mp (Node.fresh_cons.mp fresh).2).2
  refine (Upholds.mapM (Q := fun v _ => v.type.Written) fun v hv => ?_).bind fun _ => .pure fun known => ?_
  · exact (LocalVar.check_written (members v hv)).upholds
  · refine List.forall_mem_cons.mpr ⟨Decl.written_untyped rfl, List.forall_mem_map.mpr fun v hv => ?_⟩
    exact Decl.written_typed (forall_mem_of_forall₂_left known.2 v hv)

theorem StateItem.check_written (site : Site) (i : StateItem) (fresh : Node.Fresh i.nodes) :
    Upholds (fun _ => True) H (fun _ => ∀ v, i = .var v → v.type.Written) (i.check site) := by
  cases i with
  | var v =>
    obtain ⟨first, -⟩ := Node.fresh_append.mp fresh
    obtain ⟨⟨-, type⟩, -⟩ := Node.fresh_node.mp first
    refine .unlessStopped (.bind (P := fun _ => v.type.Written) ?_ fun _ => .pure fun known => ?_)
    · refine (v.type.check_written none _ type).upholds.bind fun t => Ends.setType.upholds.bind fun _ => ?_
      dsimp only
      cases v.init with
      | none => exact .unlessStopped (.ensure fun _ => .pure fun known => known.1.2)
      | some e =>
        refine (e.check_settled _).upholds.bind fun _ => .unlessStopped <| .ensure fun _ => .withSymbols fun _ =>
          .convert fun _ _ => .ensure fun _ => .pure fun known => ?_
        exact known.1.1.1.2
    · rintro _ ⟨⟩
      exact known.2
  | comment | blank => exact .pure fun _ => nofun

/-- Everything in an accepted contract was declared within the laws. -/
theorem Contract.check_written (text : List String) (c : Contract) (fresh : Node.Fresh c.nodes) :
    Upholds (fun _ => True) H (fun _ => ∀ d ∈ c.decls, d.2.Written) (c.check text) := by
  obtain ⟨rest, hfunctions⟩ := Node.fresh_append.mp fresh
  obtain ⟨rest, hconstructors⟩ := Node.fresh_append.mp rest
  obtain ⟨rest, hstate⟩ := Node.fresh_append.mp rest
  obtain ⟨rest, hstructs⟩ := Node.fresh_append.mp rest
  have henums := (Node.fresh_cons.mp (Node.fresh_cons.mp rest).2).2
  rw [Node.fresh_flatMap] at hfunctions hconstructors hstate hstructs henums
  refine (Upholds.mapM fun e _ => (EnumDef.check_ends _ e).upholds).bind fun _ => ?_
  refine (Upholds.mapM fun s hs => s.check_written [c.name] _ (hstructs s hs)).bind fun _ => ?_
  refine (Upholds.mapM fun i hi => i.check_written _ (hstate i hi)).bind fun _ => ?_
  refine (Upholds.mapM fun f hf => f.check_written c.name _ (hconstructors f hf)).bind fun _ => ?_
  refine (Upholds.mapM fun f hf => f.check_written c.name _ (hfunctions f hf)).bind fun _ => .pure fun known => ?_
  obtain ⟨⟨⟨⟨⟨-, -⟩, structs⟩, state⟩, constructors⟩, functions⟩ := known
  have decls {α : Type} {xs : List α} {f : α → List (Nat × Decl)} (h : ∀ x ∈ xs, ∀ d ∈ f x, d.2.Written) :
      ∀ d ∈ xs.flatMap f, d.2.Written := by
    intro d hd
    obtain ⟨x, hx, hd⟩ := List.mem_flatMap.mp hd
    exact h x hx d hd
  refine List.forall_mem_append.mpr ⟨List.forall_mem_append.mpr ⟨List.forall_mem_append.mpr ⟨?_, ?_⟩, ?_⟩, ?_⟩
  · exact List.forall_mem_cons.mpr ⟨Decl.written_untyped rfl, decls fun e he => EnumDef.decls_written (henums e he)⟩
  · exact decls (forall_mem_of_forall₂_left structs)
  · refine List.forall_mem_map.mpr fun v hv => Decl.written_typed ?_
    obtain ⟨i, hi, found⟩ := List.mem_filterMap.mp hv
    cases i with
    | var w =>
      cases found
      exact forall_mem_of_forall₂_left state _ hi _ rfl
    | comment | blank => cases found
  · exact decls (List.forall_mem_append.mpr
      ⟨forall_mem_of_forall₂_left constructors, forall_mem_of_forall₂_left functions⟩)

end Declarations

end Shroud
