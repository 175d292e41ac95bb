import Shroud.Proofs.Lexical

/-!
# Linking types and expressions

Linking runs through a program and may stop anywhere. What it owes to the uses of names on its way is an account.

**Accounts.** `Resolves os P r` says that the result `r` accounts for the uses `os`: if it is a success, they all stand
for something; if it is a complaint about an unknown name, the name is the first of them that stands for nothing. An
activity that settles uses does so from every state, and activities in a row settle their uses in a row.

**Results.** Linking a type or an expression settles its uses wherever the scope finds what the environment says
(`Ty.link_settles`, `Expr.link_settles`).
-/

namespace Shroud

/-- The complaint is that this name is unknown. -/
def Error.undefined? : Error → Option String
  | .fault (.undefined n) _ => some n
  | _ => none

/-- A result that accounts for all the uses: success means that every name stands for something, and a complaint about
an unknown name is about the first that stands for nothing. -/
def Resolves {α : Type} (os : List NameUse) (P : α → Prop) : Except Error α → Prop
  | .ok a => (∀ o ∈ os, o.meaning.isSome) ∧ P a
  | .error e => ∀ n, e.undefined? = some n → ∃ o, os.find? (·.meaning.isNone) = some o ∧ o.name = n

/-- The activity of the linker accounts for all the uses. -/
def LinkM.Settles {α : Type} (x : LinkM α) (os : List NameUse) (P : α → Prop) : Prop :=
  ∀ s, Resolves os (fun r => P r.1) (x s)

/-- The uses of the result are linked to what they stand for. -/
abbrev Settled (os os' : List NameUse) : Prop := os' = os.map NameUse.settled

/-! ## Sequences of activities -/

section Resolves

variable {α β : Type} {os os' : List NameUse} {P : α → Prop} {Q : β → Prop}

theorem find?_append_of_some (h : ∀ o ∈ os, o.meaning.isSome) :
    (os ++ os').find? (·.meaning.isNone) = os'.find? (·.meaning.isNone) := by
  have none : os.find? (·.meaning.isNone) = none := by
    rw [List.find?_eq_none]
    intro o ho
    simpa using Option.isSome_iff_ne_none.mp (h o ho)
  rw [List.find?_append, none, Option.none_or]

theorem Resolves.bind {x : Except Error α} {f : α → Except Error β} (hx : Resolves os P x)
    (hf : ∀ a, P a → Resolves os' Q (f a)) : Resolves (os ++ os') Q (x >>= f) := by
  cases x with
  | error e =>
    intro n hn
    obtain ⟨o, ho, name⟩ := hx n hn
    exact ⟨o, by rw [List.find?_append, ho, Option.some_or], name⟩
  | ok a =>
    obtain ⟨some, ha⟩ := hx
    show Resolves (os ++ os') Q (f a)
    have rest := hf a ha
    cases hfa : f a with
    | ok b =>
      rw [hfa] at rest
      exact ⟨fun o ho => (List.mem_append.mp ho).elim (some o) (rest.1 o), rest.2⟩
    | error e =>
      rw [hfa] at rest
      intro n hn
      rw [find?_append_of_some some]
      exact rest n hn

theorem Resolves.failure {e : Error} (h : e.undefined? = none) : Resolves os P (.error e) := by
  intro n hn
  rw [h] at hn
  cases hn

end Resolves

namespace LinkM

section Settles

variable {α β : Type} {x : LinkM α} {os os' : List NameUse} {P : α → Prop} {Q : β → Prop}

theorem Settles.pure {a : α} (h : P a) : Settles (pure a) [] P := fun _ => ⟨List.forall_mem_nil _, h⟩

theorem Settles.bind {f : α → LinkM β} (hx : Settles x os P) (hf : ∀ a, P a → Settles (f a) os' Q) :
    Settles (x >>= f) (os ++ os') Q := fun s => (hx s).bind fun r hr => hf r.1 hr r.2

/-- The last activity has uses, what follows has none. -/
theorem Settles.andThen {f : α → LinkM β} (hx : Settles x os P) (hf : ∀ a, P a → Settles (f a) [] Q) :
    Settles (x >>= f) os Q := by
  rw [← List.append_nil os]
  exact hx.bind hf

/-- The activity concerns no name. -/
def Quiet (x : LinkM α) : Prop := Settles x [] fun _ => True

theorem Quiet.before {f : α → LinkM β} (hx : Quiet x) (hf : ∀ a, Settles (f a) os Q) : Settles (x >>= f) os Q :=
  Settles.bind hx fun a _ => hf a

theorem Quiet.bind {f : α → LinkM β} (hx : Quiet x) (hf : ∀ a, Quiet (f a)) : Quiet (x >>= f) := hx.before hf

theorem Quiet.pure (a : α) : Quiet (pure a) := Settles.pure trivial

theorem Quiet.throw {e : Error} (h : e.undefined? = none) : Quiet (throw e : LinkM α) := fun _ => Resolves.failure h

theorem Quiet.lift {r : Except Error α} (h : ∀ e, r = .error e → e.undefined? = none) : Quiet (liftM r : LinkM α) := by
  intro s
  cases r with
  | ok a => exact ⟨List.forall_mem_nil _, trivial⟩
  | error e => exact Resolves.failure (h e rfl)

theorem quiet_get : Quiet (get : LinkM LinkState) := fun _ => ⟨List.forall_mem_nil _, trivial⟩

theorem quiet_fresh : Quiet fresh := fun _ => ⟨List.forall_mem_nil _, trivial⟩

theorem quiet_record {id : Nat} {t : AnnTy} : Quiet (record id t) := fun _ => ⟨List.forall_mem_nil _, trivial⟩

theorem quiet_modify {f : LinkState → LinkState} : Quiet (modify f : LinkM Unit) :=
  fun _ => ⟨List.forall_mem_nil _, trivial⟩

/-- Working through a list, each element accounts for its own uses. -/
theorem Settles.mapM {f : α → LinkM β} {uses : α → List NameUse} {R : α → β → Prop} :
    ∀ {as : List α}, (∀ a ∈ as, Settles (f a) (uses a) (R a)) → Settles (as.mapM f) (as.flatMap uses) (List.Forall₂ R as)
  | [], _ => by
    rw [List.mapM_nil]
    exact .pure .nil
  | a :: as, h => by
    rw [List.mapM_cons, List.flatMap_cons]
    refine (h a List.mem_cons_self).bind fun b hb => ?_
    exact (Settles.mapM fun a' ha' => h a' (List.mem_cons_of_mem _ ha')).andThen fun bs hbs => .pure (.cons hb hbs)

end Settles

end LinkM

open LinkM

/-! ## Activities that concern no name -/

theorem Site.complain_eq (s : Site) (f : Fault) (p : Place) :
    s.complain f p = .fault f p ∨ s.complain f p = .functionType := by
  unfold complain
  dsimp only
  generalize (f.isWordable && _) = wordable
  cases wordable with
  | true => exact .inl rfl
  | false => exact .inr rfl

theorem Site.complain_undefined {s : Site} {f : Fault} {p : Place} {n : String}
    (h : (s.complain f p).undefined? = some n) : f = .undefined n := by
  rcases s.complain_eq f p with eq | eq <;> rw [eq] at h
  · unfold Error.undefined? at h
    split at h
    · rename_i heq
      cases heq
      cases h
      rfl
    · cases h
  · cases h

theorem Site.atExpr_defined {s : Site} {e : Expr} {f : Fault} (h : ∀ n, f ≠ .undefined n) :
    (s.atExpr e f).undefined? = none :=
  Option.eq_none_iff_forall_ne_some.mpr fun n hn => h n (complain_undefined hn)

theorem Symbols.follow_defined {symbols : Symbols} {e : Error} : ∀ {ns : List String} {n : String} {r : Ref},
    symbols.follow n r ns = .error e → e.undefined? = none
  | [], _, _, h => nomatch h
  | n :: ns, m, r, h => by
    unfold Symbols.follow at h
    split at h
    · exact Symbols.follow_defined h
    · cases h
      rfl

theorem quiet_linkType {c : LinkContext} {names : List String} : Quiet (linkType c names) := by
  unfold linkType
  split
  · exact .pure _
  · split
    · exact .pure _
    · exact quiet_get.bind fun _ => Quiet.bind (.lift fun _ h => Symbols.follow_defined h) fun _ => .pure _

theorem quiet_linkSpace {c : LinkContext} {t : Ty} : Quiet (linkSpace c t) := by
  have members {names : List String} {target : Option NamedTarget} : Quiet (do
      let symbols := (← get).symbols
      return target.map fun t => symbols.membersOf (names.getLastD "") t.ref : LinkM _) :=
    quiet_get.bind fun _ => .pure _
  unfold linkSpace
  dsimp only
  split
  · exact members
  · exact quiet_linkType.bind fun _ => members
  · exact quiet_linkType.bind fun _ => members
  · exact .throw rfl

theorem quiet_linkMember {c : LinkContext} {e base : Expr} {name : String} {old : Option Ref} :
    Quiet (linkMember c e base name old) := by
  unfold linkMember
  refine quiet_get.bind fun _ => ?_
  dsimp only
  split
  iterate 4
    split
    · exact .pure _
    · exact .throw rfl
  · split
    · exact .throw rfl
    · split
      · split
        · exact .pure _
        · exact .throw (Site.atExpr_defined fun _ h => nomatch h)
      · refine quiet_linkSpace.bind fun _ => ?_
        split
        · exact .pure _
        · split
          · exact .pure _
          · exact .throw (Site.atExpr_defined fun _ h => nomatch h)
  · exact .throw rfl

theorem quiet_linkElement {base : Expr} : Quiet (linkElement base) := by
  unfold linkElement
  refine quiet_get.bind fun _ => ?_
  dsimp only
  split
  · split
    · exact .throw rfl
    · refine quiet_fresh.bind fun _ => ?_
      split <;> exact .pure _
  · exact .throw rfl

/-! ## Names in expressions -/

/-- The surroundings find what the environment says, for all the uses: none of them stands for a declaration that is
being made. -/
structure LinkContext.Stands (c : LinkContext) (env : Env) (os : List NameUse) : Prop where
  mirrors : Scope.Mirrors { c.scope with own := [] } env
  own : ∀ o ∈ os, ∀ r, o.meaning = some r → r.id ∉ c.scope.own

namespace LinkContext.Stands

variable {c : LinkContext} {env : Env} {os os' : List NameUse}

theorem left (h : c.Stands env (os ++ os')) : c.Stands env os :=
  ⟨h.mirrors, fun o ho => h.own o (List.mem_append_left _ ho)⟩

theorem right (h : c.Stands env (os ++ os')) : c.Stands env os' :=
  ⟨h.mirrors, fun o ho => h.own o (List.mem_append_right _ ho)⟩

theorem withKey (h : c.Stands env os) (i : Nat) (l : Option String) : (c.withKey i l).Stands (env.withKey i l) os := by
  cases l with
  | none => exact h
  | some l => exact ⟨Scope.Mirrors.enter rfl h.mirrors [(l, .keyLabel i none)], h.own⟩

end LinkContext.Stands

/-- Linking a name finds what it stands for, or complains about the name. -/
theorem linkValue_settles {c : LinkContext} {env : Env} {n : String} {t : Option Ref}
    (h : c.Stands env [⟨n, t, env⟩]) (e : Expr) :
    Settles (linkValue c e n) [⟨n, t, env⟩] fun r => env.lookup n = some r := by
  have found : (c.scope.value n).toOption = env.lookup n := by
    rw [← h.mirrors n]
    refine Scope.searchValue_own c.scope.frames none none fun r hr => ?_
    exact h.own _ List.mem_cons_self r ((h.mirrors n).symm.trans hr)
  intro s
  have failed {e : Error} (missing : env.lookup n = none) (he : ∀ m, e.undefined? = some m → n = m) :
      Resolves [⟨n, t, env⟩] (fun r : Ref × LinkState => env.lookup n = some r.1) (.error e) := by
    intro m hm
    refine ⟨_, List.find?_cons_of_pos ?_, he m hm⟩
    simp only [NameUse.meaning, missing, Option.isNone_none]
  have named {f : Fault} {p : Place} (hf : f = .undefined n) (m : String)
      (h : (c.site.complain f p).undefined? = some m) : n = m := by
    cases hf.symm.trans (Site.complain_undefined h)
    rfl
  unfold linkValue
  cases hv : c.scope.value n with
  | ok r =>
    rw [hv] at found
    refine ⟨?_, found.symm⟩
    simp only [List.mem_singleton]
    rintro o rfl
    simp only [NameUse.meaning, ← found]
    rfl
  | error blamed =>
    rw [hv] at found
    cases blamed with
    | none => exact failed found.symm (named rfl)
    | some pos => exact failed found.symm (named rfl)

mutual

theorem Ty.link_settles : ∀ (t : Ty) (c : LinkContext) (env : Env), c.Stands env (t.occurrences env) →
    Settles (t.link c) (t.occurrences env) fun t' => Settled (t.occurrences env) (t'.occurrences env)
  | .named s ns t, c, env, h => by
    simp only [Ty.link, Ty.occurrences]
    refine quiet_linkType.before fun target => ?_
    split <;> exact .pure rfl
  | .mapping i k l v, c, env, h => by
    simp only [Ty.occurrences] at h
    simp only [Ty.link, Ty.occurrences]
    refine (k.link_settles _ _ (h.left.withKey i l)).bind fun k' hk => ?_
    refine (v.link_settles _ _ (h.right.withKey i l)).andThen fun v' hv => .pure ?_
    simp only [Ty.occurrences, Settled, hk, hv, List.map_append]
  | .array v none, c, env, h => by
    simp only [Ty.occurrences] at h
    simp only [Ty.link, Ty.occurrences]
    refine (v.link_settles c env h).andThen fun v' hv => .pure ?_
    simp only [Ty.occurrences, hv]
  | .array v (some n), c, env, h => by
    simp only [Ty.occurrences] at h
    simp only [Ty.link, Ty.occurrences]
    refine (v.link_settles c env h.left).bind fun v' hv => ?_
    refine (n.link_settles c env h.right).andThen fun n' hn => .pure ?_
    simp only [Ty.occurrences, Settled, hv, hn, List.map_append]
  | .function ps ms rs, c, env, h => by
    simp only [Ty.occurrences] at h
    simp only [Ty.link, Ty.occurrences]
    refine (Param.linkAll_settles ps c env h.left).bind fun ps' hps => ?_
    refine (Param.linkAll_settles rs c env h.right).andThen fun rs' hrs => .pure ?_
    simp only [Ty.occurrences, Settled, hps.1, hrs.1, List.map_append]
  | .elementary .., _, _, _ | .bool, _, _, _ | .boolLit .., _, _, _ | .number, _, _, _ | .numLit .., _, _, _
  | .integer .., _, _, _ | .address .., _, _, _ | .cipher .., _, _, _ | .publicKey .., _, _, _
  | .randomness .., _, _, _ | .tuple .., _, _, _ => by
    simp only [Ty.link, Ty.occurrences]
    exact .pure rfl

theorem AnnTy.link_settles : ∀ (t : AnnTy) (c : LinkContext) (env : Env), c.Stands env (t.occurrences env) →
    Settles (t.link c) (t.occurrences env) fun t' => Settled (t.occurrences env) (t'.occurrences env)
  | ⟨t, p, m, a, d⟩, c, env, h => by
    simp only [AnnTy.occurrences] at h
    simp only [AnnTy.link, AnnTy.occurrences]
    refine (t.link_settles c env h.left).bind fun t' ht => ?_
    refine (p.link_settles c env h.right).andThen fun p' hp => .pure ?_
    simp only [AnnTy.occurrences, Settled, ht, hp, List.map_append]

theorem Param.link_settles : ∀ (p : Param) (c : LinkContext) (env : Env), c.Stands env (p.occurrences env) →
    Settles (p.link c) (p.occurrences env) fun p' =>
      Settled (p.occurrences env) (p'.occurrences env) ∧ (p'.name, p'.id) = (p.name, p.id)
  | ⟨i, k, t, n, s, o⟩, c, env, h => by
    simp only [Param.occurrences] at h
    simp only [Param.link, Param.occurrences]
    refine (t.link_settles c env h).andThen fun t' ht => ?_
    refine quiet_record.before fun _ => .pure ?_
    simp only [Param.occurrences, ht, and_self]

theorem Param.linkAll_settles : ∀ (ps : List Param) (c : LinkContext) (env : Env),
    c.Stands env (Param.occurrencesAll env ps) →
    Settles (Param.linkAll c ps) (Param.occurrencesAll env ps) fun ps' =>
      Settled (Param.occurrencesAll env ps) (Param.occurrencesAll env ps') ∧
        ps'.map (fun p => (p.name, p.id)) = ps.map fun p => (p.name, p.id)
  | [], _, _, _ => by
    simp only [Param.linkAll]
    exact .pure ⟨rfl, rfl⟩
  | p :: ps, c, env, h => by
    simp only [Param.occurrencesAll] at h
    simp only [Param.linkAll, Param.occurrencesAll]
    refine (p.link_settles c env h.left).bind fun p' hp => ?_
    refine (Param.linkAll_settles ps c env h.right).andThen fun ps' hps => .pure ⟨?_, ?_⟩
    · simp only [Param.occurrencesAll, Settled, hp.1, hps.1, List.map_append]
    · simp only [List.map_cons, hp.2, hps.2]

theorem Info.linkType_settles : ∀ (i : Info) (c : LinkContext) (env : Env), c.Stands env (i.occurrences env) →
    Settles (i.linkType c) (i.occurrences env) fun i' => Settled (i.occurrences env) (i'.occurrences env)
  | ⟨i, p, some t, b, x⟩, c, env, h => by
    simp only [Info.occurrences] at h
    simp only [Info.linkType, Info.occurrences]
    refine (t.link_settles c env h).andThen fun t' ht => .pure ?_
    simp only [Info.occurrences, ht]
  | ⟨i, p, none, b, x⟩, _, _, _ => by
    simp only [Info.linkType]
    exact .pure rfl

theorem Expr.link_settles : ∀ (e : Expr) (c : LinkContext) (env : Env), c.Stands env (e.occurrences env) →
    Settles (e.link c) (e.occurrences env) fun e' => Settled (e.occurrences env) (e'.occurrences env)
  | .call i f as o k, c, env, h => by
    simp only [Expr.occurrences] at h
    simp only [Expr.link, Expr.occurrences]
    refine (f.link_settles c env h.left).bind fun f' hf => ?_
    refine (Expr.linkAll_settles as c env h.right).andThen fun as' has => .pure ?_
    simp only [Expr.occurrences, Settled, hf, has, List.map_append]
  | .new i as, c, env, h => by
    simp only [Expr.occurrences] at h
    simp only [Expr.link, Expr.occurrences]
    refine (i.linkType_settles c env h.left).bind fun i' hi => ?_
    refine (Expr.linkAll_settles as c env h.right).andThen fun as' has => .pure ?_
    simp only [Expr.occurrences, Settled, hi, has, List.map_append]
  | .cast i t e b, c, env, h => by
    simp only [Expr.occurrences] at h
    simp only [Expr.link, Expr.occurrences]
    refine (t.link_settles c env h.left).bind fun t' ht => ?_
    refine (e.link_settles c env h.right).andThen fun e' he => .pure ?_
    simp only [Expr.occurrences, Settled, ht, he, List.map_append]
  | .arrayLit i es k, c, env, h => by
    simp only [Expr.occurrences] at h
    simp only [Expr.link, Expr.occurrences]
    refine (Expr.linkAll_settles es c env h).andThen fun es' hes => .pure ?_
    simp only [Expr.occurrences, hes]
  | .tuple i es, c, env, h => by
    simp only [Expr.occurrences] at h
    simp only [Expr.link, Expr.occurrences]
    refine (Expr.linkAll_settles es c env h).andThen fun es' hes => .pure ?_
    simp only [Expr.occurrences, hes]
  | .ident i n t, c, env, h => by
    simp only [Expr.occurrences] at h
    simp only [Expr.link, Expr.occurrences]
    refine (linkValue_settles h _).andThen fun r hr => .pure ?_
    simp only [Expr.occurrences, Settled, List.map_cons, List.map_nil, NameUse.settled, NameUse.meaning, hr]
  | .member i e n t, c, env, h => by
    simp only [Expr.occurrences] at h
    simp only [Expr.link, Expr.occurrences]
    refine (e.link_settles c env h).andThen fun e' he => ?_
    refine quiet_linkMember.before fun _ => .pure ?_
    simp only [Expr.occurrences, he]
  | .index i e k t, c, env, h => by
    simp only [Expr.occurrences] at h
    simp only [Expr.link, Expr.occurrences]
    refine (e.link_settles c env h.left).bind fun e' he => ?_
    refine (k.link_settles c env h.right).andThen fun k' hk => ?_
    refine quiet_linkElement.before fun _ => .pure ?_
    simp only [Expr.occurrences, Settled, he, hk, List.map_append]
  | .reclassify i m e p x, c, env, h => by
    simp only [Expr.occurrences] at h
    simp only [Expr.link, Expr.occurrences]
    refine (e.link_settles c env h.left).bind fun e' he => ?_
    refine (p.link_settles c env h.right).andThen fun p' hp => .pure ?_
    simp only [Expr.occurrences, Settled, he, hp, List.map_append]
  | .operator .., _, _, _ | .boolLit .., _, _, _ | .numLit .., _, _, _ | .me .., _, _, _ | .all .., _, _, _ => by
    simp only [Expr.link, Expr.occurrences]
    exact .pure rfl

theorem Expr.linkAll_settles : ∀ (es : List Expr) (c : LinkContext) (env : Env),
    c.Stands env (Expr.occurrencesAll env es) →
    Settles (Expr.linkAll c es) (Expr.occurrencesAll env es) fun es' =>
      Settled (Expr.occurrencesAll env es) (Expr.occurrencesAll env es')
  | [], _, _, _ => by
    simp only [Expr.linkAll]
    exact .pure rfl
  | e :: es, c, env, h => by
    simp only [Expr.occurrencesAll] at h
    simp only [Expr.linkAll, Expr.occurrencesAll]
    refine (e.link_settles c env h.left).bind fun e' he => ?_
    refine (Expr.linkAll_settles es c env h.right).andThen fun es' hes => .pure ?_
    simp only [Expr.occurrencesAll, Settled, he, hes, List.map_append]

end

end Shroud
